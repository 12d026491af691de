/-
# Derived binders simulate their base

A binder is attached to a context, or its derived copy to an object that forwards to
the context. The machine with the copy takes a step whenever the other does, and now
and then some more: an action is first handed to the base, and a subscription too. What
shows is the same, and between steps the worlds are twins.

Key definitions: `Answers`, `AttachedOnce`, `Shadow`.
Key theorems: `World.Twin.step`, `Shadow.step`, `derived_binder_simulates`.
-/
import LiveRules.Proofs.Coherence.Commands
import LiveRules.Proofs.Derived.Abreast
import LiveRules.Proofs.Derived.Tasks

namespace LiveRules

variable {κ σ : Type} {L : Language κ σ}

/-! ### One step -/

/-- Where one task `u` comes to the effect `e`, the machine `m'` comes to a twin world and
twin tasks in front of `tail'`, and the same shows. -/
def Answers (L : Language κ σ) (t : TreeId) (d b : ObjectId) (u : Task κ) (e : Effect κ σ) (tail' : List (Task κ))
    (m' : Machine κ σ) : Prop :=
  ∃ ms g' tasks', L.Passes m' ms (machine g' (tasks' ++ tail') e.state) ∧ e.world.Twin t d b g' ∧
    Woven (Task.Twin t d b) (Task.Spare b) e.tasks tasks' ∧ ms.filterMap Machine.event? = u.event?.toList

section

variable {t : TreeId} {d b : ObjectId} {g g' : World κ} {u u' : Task κ} {tail tail' : List (Task κ)} {s : σ}

theorem Language.Passes.one (m : Machine κ σ) : L.Passes m [m] (L.step m) :=
  .step (.done _)

theorem Answers.single {e e' : Effect κ σ} (hcarry : L.carry g' s u' tail' = e') (hworld : e.world.Twin t d b e'.world)
    (hstate : e'.state = e.state) (htasks : Woven (Task.Twin t d b) (Task.Spare b) e.tasks e'.tasks)
    (hevent : u'.event? = u.event?) : Answers L t d b u e tail' (machine g' (u' :: tail') s) := by
  refine ⟨[machine g' (u' :: tail') s], e'.world, e'.tasks, ?_, hworld, htasks, ?_⟩
  · have hstep : L.step (machine g' (u' :: tail') s) = machine e'.world (e'.tasks ++ tail') e.state := by
      rw [← hstate, ← hcarry]
      rfl
    exact hstep ▸ .one _
  · have hshows : (machine g' (u' :: tail') s).event? = u.event? := hevent
    rw [List.filterMap_cons, hshows]
    cases u.event? <;> rfl

/-- A task that only concerns the world. -/
theorem Answers.pure {r r' : World κ × List (Task κ)} (h : Matches t d b r r')
    (hcarry : L.carry g' s u' tail' = { world := r'.1, state := s, tasks := r'.2 }) (hevent : u'.event? = u.event?) :
    Answers L t d b u { world := r.1, state := s, tasks := r.2 } tail' (machine g' (u' :: tail') s) :=
  .single hcarry h.world rfl h.tasks hevent

/-- A step that shows nothing comes first. -/
theorem Answers.after {e : Effect κ σ} {m' : Machine κ σ} (hstep : Answers L t d b u e tail' (L.step m'))
    (hquiet : m'.event? = none) : Answers L t d b u e tail' m' := by
  obtain ⟨ms, g', tasks', hpasses, hworld, htasks, hevents⟩ := hstep
  exact ⟨m' :: ms, g', tasks', .step hpasses, hworld, htasks, by rw [List.filterMap_cons_none hquiet, hevents]⟩

/-- What the copy does on the side comes last. -/
theorem Answers.before {e : Effect κ σ} {m' : Machine κ σ} {spare : Task κ} (hspare : spare.Spare b)
    (h : Answers L t d b u e (spare :: tail') m') : Answers L t d b u e tail' m' := by
  obtain ⟨ms, g', tasks', hpasses, hworld, htasks, hevents⟩ := h
  refine ⟨ms, g', tasks' ++ [spare], by rwa [List.append_assoc], hworld, ?_, hevents⟩
  have hend := htasks.append (.other hspare .nil)
  rwa [List.append_nil] at hend

variable (hL : L.Discreet) (h : g.Twin t d b g') (hfronts : g.Fronts d b)
  (htail : Woven (Task.Twin t d b) (Task.Spare b) tail tail')

include hL h hfronts htail

theorem World.Twin.step_request {r : Request κ} (ht : t < g.trees.size)
    (hd : Scene.alive { world := g, agenda := .request r :: tail } d = true)
    (hattach : ∀ context, r ≠ .attach t context) : Answers L t d b (.request r) (L.carry g s (.request r) tail) tail'
      (machine g' (.request r :: tail') s) := by
  have hwhole : Woven (Task.Twin t d b) (Task.Spare b) (.request r :: tail) (.request r :: tail') :=
    .cons (.same rfl) htail
  cases r with
  | call k signal =>
    have hrun := hL.run (h.alike hfronts hwhole.held hd) k signal s
    refine .single rfl h ?_ ?_ rfl
    · simp only [Language.carry, hrun]
    · simp only [Language.carry, hrun]
      exact .refl (.refl t d b) _
  | _ => exact .pure (h.grant hfronts ht htail _ hattach) rfl rfl

omit hfronts htail in
theorem World.Twin.step_act (a : Action κ) (context : ObjectId)
    (halike : Scene.Alike { world := g, agenda := .perform a context :: tail }
      { world := g', agenda := .perform a context :: tail' }) :
    Answers L t d b (.perform a context) (L.carry g s (.perform a context) tail) tail'
      (machine g' (.perform a context :: tail') s) := by
  have hperform := hL.perform halike s a context
  have hself : Scene.Alike { world := g, agenda := .perform a context :: tail }
      { world := g, agenda := .perform a context :: tail } :=
    ⟨rfl, fun _ => rfl, rfl, fun _ => rfl, fun _ => rfl⟩
  -- an action touches neither watchers nor trees
  have hkept := congrArg Effect.world (hL.perform hself s a context)
  refine .single (show L.carry g' s (.perform a context) tail' = _ from hperform) ?_ rfl (.refl (.refl t d b) _) rfl
  exact h.frameOf _ (congrArg World.watchers hkept :) (congrArg World.trees hkept :)

variable (ht : t < g.trees.size) (hd : Scene.alive { world := g, agenda := u :: tail } d = true)

include ht hd

/-- A task that knows nothing of the tree is done alike. -/
theorem World.Twin.step_same (hu : u.isNeutral = true) (hattach : ∀ context, u ≠ .request (.attach t context)) :
    Answers L t d b u (L.carry g s u tail) tail' (machine g' (u :: tail') s) := by
  have hwhole : Woven (Task.Twin t d b) (Task.Spare b) (u :: tail) (u :: tail') := .cons (.same hu) htail
  cases u with
  | request r =>
    exact h.step_request hL hfronts htail ht hd fun context heq => hattach context (heq ▸ rfl)
  | perform a context => exact h.step_act hL a context (h.alike hfronts hwhole.held hd)
  | deliver subject id l => exact .pure ⟨h, h.deliver hfronts hwhole.held hd subject id l⟩ rfl rfl
  | deliverChange c id l change => exact .pure (h.deliverChange hfronts hwhole.held c id l change) rfl rfl
  | plant i w => exact .pure ⟨h.reroot i (some w), .nil⟩ rfl rfl
  | release held =>
    cases held with
    | tree i => exact .pure ⟨h.bury hfronts htail.held i, .nil⟩ rfl rfl
    | value v => exact .pure (h.plain []) rfl rfl
    | watcher w => exact .pure (h.plain []) rfl rfl
  | fire site batch => cases hu
  | bind w v => cases hu
  | bindMembers x => cases hu
  | enrol e => cases hu
  | subscribe subject p l r => cases hu
  | register subject p l r => cases hu

/-- **One step** is answered by some steps of the machine with the copy. -/
theorem World.Twin.step (hu : u.Twin t d b u')
    (hattach : ∀ context, u = .request (.attach t context) → context = b ∧ u' = .request (.attach t d)) :
    Answers L t d b u (L.carry g s u tail) tail' (machine g' (u' :: tail') s) := by
  have hwhole : Woven (Task.Twin t d b) (Task.Spare b) (u :: tail) (u' :: tail') := .cons hu htail
  have halike := h.alike hfronts hwhole.held hd
  have hobject : ∀ o, g'.hasObject o = g.hasObject o := fun o => World.hasValue_congr h.outline (.object o)
  cases hu with
  | same hneutral =>
    refine h.step_same hL hfronts htail ht hd hneutral fun context heq => ?_
    -- the tree itself is not attached like any other
    obtain ⟨rfl, heq'⟩ := hattach context heq
    obtain ⟨-, hbd⟩ := Request.attach.inj (Task.request.inj (heq.symm.trans heq'))
    exact hfronts.lt.ne hbd
  | attach =>
    have hattached : Matches t d b (g.grant tail (.attach t b)) (g'.grant tail' (.attach t d)) := by
      simp only [World.grant, hobject, hfronts.made, hfronts.made_base, if_true]
      exact h.attachCopy hfronts
    exact .pure hattached rfl rfl
  | ask a =>
    have hasked : Matches t d b (g.grant tail (.perform a b)) (g'.grant tail' (.perform (.onBase a) d)) := by
      simp only [World.grant, hobject, hfronts.made, hfronts.made_base, if_true]
      exact ⟨h, .cons (.perform a) (.one (.release (Or.inr ⟨rfl, rfl⟩)))⟩
    exact .pure hasked rfl rfl
  | perform a =>
    -- the action is handed to the base, and the base is held until it is done
    have hbase : g'.baseOf d = some b := (World.baseOf_congr h.outline d).trans hfronts.baseOf
    have hhanded : L.step (machine g' (.perform (.onBase a) d :: tail') s) =
        machine g' (.perform a b :: .release (.value (.object b)) :: tail') s := by
      simp only [Language.step, machine, Language.carry, Language.perform, hbase, Option.getD_some,
        List.cons_append, List.nil_append]
    refine .after ?_ rfl
    rw [hhanded]
    refine .before rfl (h.step_act hL a b (h.alike hfronts ?_ hd))
    exact Woven.held (.cons (.same rfl) (.other rfl htail))
  | @fire site site' f hguise batch =>
    have halive : ∀ o, Scene.alive { world := g', agenda := .fire site' (batch.map (onActions f)) :: tail' } o =
        Scene.alive { world := g, agenda := .fire site batch :: tail } o := halike.alive
    refine .single rfl h rfl ?_ rfl
    simp only [Language.carry, halive, List.map_map]
    cases hguise with
    | same => exact .refl (.refl t d b) _
    | based tree top =>
      have hb : Scene.alive { world := g, agenda := .fire ⟨tree, top, b⟩ batch :: tail } b = true :=
        hfronts.alive_base hd
      simp only [hb, hd, if_true]
      exact (Woven.of_map fun e _ => .perform e.2).append (.one (.release (Or.inr ⟨rfl, rfl⟩)))
  | bind w hv => exact .pure (h.bind hfronts hv w) rfl rfl
  | bindMembers hx => exact .pure (h.bindMembers hx) rfl rfl
  | enrol he => exact .pure (h.enrol hfronts he) rfl rfl
  | @subscribe subject subject' hs p l r r' hr =>
    rcases hs with rfl | ⟨rfl, rfl⟩
    · exact .pure (h.subscribe subject' p l hr) rfl rfl
    · -- the subscription is handed to the base
      have hfronts' : g'.Fronts d b := hfronts.of_watching h.outline (hfronts.forwards.congr (by rw [h.frame]; rfl))
      have hsubscribed : L.step (machine g' (.subscribe (.object d) p l r' :: tail') s) =
          machine g' (.register (.object d) p l r' :: tail') s := by
        simp only [Language.step, machine, Language.carry, hfronts'.subscribe_eq, List.cons_append, List.nil_append]
      have hregistered : L.step (machine g' (.register (.object d) p l r' :: tail') s) =
          machine g' (.subscribe (.object b) p l r' :: tail') s := by
        simp only [Language.step, machine, Language.carry, hfronts'.register_eq, List.cons_append, List.nil_append]
      refine .after ?_ rfl
      rw [hsubscribed]
      refine .after ?_ rfl
      rw [hregistered]
      exact .pure (h.subscribe (.object b) p l hr) rfl rfl
  | register subject p l hr => exact .pure (h.register hfronts subject p l hr) rfl rfl
  | release hv => exact .pure (h.plain []) rfl rfl

end

/-! ### Whole runs -/

/-- The next step attaches the tree `t`. -/
def Machine.attaches (t : TreeId) (m : Machine κ σ) : Bool :=
  match m.agenda with
  | .request (.attach i _) :: _ => i = t
  | _ => false

/-- Nobody attaches the tree `t` but the binder that made it, with `rest` to be done then:
the tree is attached once, when just this is left to do. -/
structure AttachedOnce (t : TreeId) (rest : List (Task κ)) (later : List (Machine κ σ)) : Prop where
  once : later.Pairwise fun n n' => ¬ (n.attaches t = true ∧ n'.attaches t = true)
  last : ∀ n ∈ later, n.attaches t = true → n.agenda.tail = rest

/-- How far attaching has come: it is still to come, or it has been. -/
inductive Phase (t : TreeId) (d b : ObjectId) (rest : List (Task κ)) (later : List (Machine κ σ)) :
    List (Task κ) → List (Task κ) → Prop
  | before {ahead ahead' : List (Task κ)} (h : Woven (Task.Twin t d b) (Task.Spare b) ahead ahead') :
      Phase t d b rest later (ahead ++ .request (.attach t b) :: rest) (ahead' ++ .request (.attach t d) :: rest)
  | after {agenda agenda' : List (Task κ)} (hattached : ∃ n ∈ later, n.attaches t = true)
      (h : Woven (Task.Twin t d b) (Task.Spare b) agenda agenda') : Phase t d b rest later agenda agenda'

/-- The machine `m'` does with the copy what `m` does. -/
structure Shadow (t : TreeId) (d b : ObjectId) (rest : List (Task κ)) (later : List (Machine κ σ))
    (m m' : Machine κ σ) : Prop where
  world : m.world.Twin t d b m'.world
  fronts : m.world.Fronts d b
  made : t < m.world.trees.size
  state : m'.state = m.state
  phase : Phase t d b rest later m.agenda m'.agenda

theorem Phase.woven {t : TreeId} {d b : ObjectId} {rest agenda agenda' : List (Task κ)} {later : List (Machine κ σ)}
    (h : Phase t d b rest later agenda agenda') : Woven (Task.Twin t d b) (Task.Spare b) agenda agenda' := by
  cases h with
  | before h => exact h.append (.cons .attach (.refl (.refl t d b) rest))
  | after _ h => exact h

/-- At rest the tree has been attached. -/
theorem Phase.at_rest {t : TreeId} {d b : ObjectId} {rest agenda' : List (Task κ)} {later : List (Machine κ σ)}
    (h : Phase t d b rest later [] agenda') : (∃ n ∈ later, n.attaches t = true) ∧ ∀ u ∈ agenda', u.Spare b := by
  generalize hnil : ([] : List (Task κ)) = agenda at h
  cases h with
  | before h => simp at hnil
  | after hattached h => exact ⟨hattached, (hnil ▸ h).all_other⟩

/-- What the copy does on the side shows nothing and changes nothing. -/
theorem Language.Passes.spare (L : Language κ σ) {b : ObjectId} (g : World κ) (s : σ) (tail : List (Task κ))
    {spares : List (Task κ)} (h : ∀ u ∈ spares, u.Spare b) :
    ∃ ms, L.Passes (machine g (spares ++ tail) s) ms (machine g tail s) ∧ ms.filterMap Machine.event? = [] := by
  induction spares with
  | nil => exact ⟨[], .done _, rfl⟩
  | cons u spares ih =>
    obtain ⟨ms, hpasses, hevents⟩ := ih fun v hv => h v (List.mem_cons_of_mem _ hv)
    obtain rfl : u = _ := h u List.mem_cons_self
    exact ⟨_ :: ms, .step hpasses, hevents⟩

/-- Client code cannot tell the machines apart: they have the same state, are at rest
together, and the worlds differ in watchers and in the plans of trees only. -/
structure Machine.Alike (m m' : Machine κ σ) : Prop where
  scene : m.toScene.Alike m'.toScene
  state : m'.state = m.state
  rest : m'.agenda = [] ↔ m.agenda = []

namespace Shadow

variable {t : TreeId} {d b : ObjectId} {rest : List (Task κ)} {later : List (Machine κ σ)} {m m' : Machine κ σ}

/-- At rest, the machine with the copy comes to rest too. -/
theorem rests (h : Shadow t d b rest later m m') (hrest : m.agenda = []) :
    ∃ ms, L.Passes m' ms (machine m'.world [] m'.state) ∧ ms.filterMap Machine.event? = [] ∧
      Shadow t d b rest later m (machine m'.world [] m'.state) := by
  obtain ⟨⟨g', agenda'⟩, s'⟩ := m'
  have hphase := h.phase
  rw [hrest] at hphase
  obtain ⟨hattached, hspares⟩ := hphase.at_rest
  obtain ⟨ms, hpasses, hevents⟩ := Language.Passes.spare L g' s' [] hspares
  rw [List.append_nil] at hpasses
  exact ⟨ms, hpasses, hevents, h.world, h.fronts, h.made, h.state, .after hattached (by rw [hrest]; exact .nil)⟩

/-- The copy's turn comes after what it does on the side. -/
theorem answers {g : World κ} {s : σ} {u : Task κ} {tail : List (Task κ)} (hL : L.Discreet)
    (h : Shadow t d b rest later (machine g (u :: tail) s) m')
    (hd : Scene.alive { world := g, agenda := u :: tail } d = true)
    {others : List (Task κ)} {u' : Task κ} {tail' : List (Task κ)} (hagenda : m'.agenda = others ++ u' :: tail')
    (hothers : ∀ v ∈ others, v.Spare b) (hu : u.Twin t d b u')
    (htail : Woven (Task.Twin t d b) (Task.Spare b) tail tail')
    (hattach : ∀ context, u = .request (.attach t context) → context = b ∧ u' = .request (.attach t d)) :
    ∃ ms g'' tasks', L.Passes m' ms (machine g'' (tasks' ++ tail') (L.carry g s u tail).state) ∧
      ms.filterMap Machine.event? = u.event?.toList ∧ (L.carry g s u tail).world.Twin t d b g'' ∧
      Woven (Task.Twin t d b) (Task.Spare b) (L.carry g s u tail).tasks tasks' := by
  obtain ⟨⟨g', agenda'⟩, s'⟩ := m'
  obtain rfl : s' = s := h.state
  obtain rfl : agenda' = others ++ u' :: tail' := hagenda
  obtain ⟨ms, hcleared, hquiet⟩ := Language.Passes.spare L g' s' (u' :: tail') hothers
  obtain ⟨ms', g'', tasks', hpasses, hworld, htasks, hevents⟩ :=
    h.world.step hL h.fronts htail h.made hd hu hattach (s := s')
  exact ⟨ms ++ ms', g'', tasks', hcleared.trans hpasses,
    by rw [List.filterMap_append, hquiet, hevents]; rfl, hworld, htasks⟩

/-- **What one step keeps**: the machine with the copy takes some steps that show the same. -/
theorem step (hL : L.Discreet) (h : Shadow t d b rest later m m') (hd : m.alive d = true) (hhook : m.hooksOn d = false)
    (hattach : AttachedOnce t rest (m :: later)) : ∃ ms n', L.Passes m' ms n' ∧
      ms.filterMap Machine.event? = m.event?.toList ∧ Shadow t d b rest (m :: later) (L.step m) n' := by
  obtain ⟨⟨g, agenda⟩, s⟩ := m
  obtain ⟨⟨g', agenda'⟩, s'⟩ := m'
  obtain rfl : s' = s := h.state
  have hfronts' := h.fronts.step (L := L) hhook
  have hmade' : t < (L.step { world := g, agenda := agenda, state := s' }).world.trees.size := by
    obtain ⟨x, hx, -⟩ := (L.step_lasts _).trees t _ (Array.getElem?_eq_getElem h.made)
    exact (Array.getElem?_eq_some_iff.mp hx).1
  cases agenda with
  | nil =>
    obtain ⟨ms, hpasses, hevents, hrests⟩ := h.rests (L := L) rfl
    refine ⟨ms, _, hpasses, hevents, hrests.world, hrests.fronts, hrests.made, hrests.state, ?_⟩
    obtain ⟨n, hn, hattaches⟩ := hrests.phase.at_rest.1
    exact .after ⟨n, List.mem_cons_of_mem _ hn, hattaches⟩ .nil
  | cons u tail =>
    have hattaches : ∀ context, u = .request (.attach t context) →
        Machine.attaches t { world := g, agenda := u :: tail, state := s' } = true := fun context hu => by
      simp [Machine.attaches, hu]
    have hphase := h.phase
    generalize hagenda : u :: tail = agenda at hphase
    cases hphase with
    | @before ahead ahead' hahead =>
      cases ahead with
      | nil =>
        -- the tree is attached, and its copy
        obtain ⟨rfl, rfl⟩ := List.cons.inj hagenda
        obtain ⟨ms, g'', tasks', hpasses, hevents, hworld, htasks⟩ := h.answers hL hd rfl hahead.all_other .attach
          (.refl (.refl t d b) _) fun context hu => ⟨((Request.attach.inj (Task.request.inj hu)).2).symm, rfl⟩
        exact ⟨ms, _, hpasses, hevents, hworld, hfronts', hmade', rfl,
          .after ⟨_, List.mem_cons_self, hattaches _ rfl⟩ (htasks.append (.refl (.refl t d b) _))⟩
      | cons u₁ ahead =>
        obtain ⟨rfl, rfl⟩ := List.cons.inj hagenda
        obtain ⟨others, u', ahead', rfl, hothers, hu, hahead⟩ := hahead.front
        obtain ⟨ms, g'', tasks', hpasses, hevents, hworld, htasks⟩ := h.answers hL hd (List.append_assoc ..) hothers hu
          (hahead.append (.cons .attach (.refl (.refl t d b) rest))) fun context hu => by
            have hlast : (ahead ++ .request (.attach t b) :: rest).length = rest.length :=
              congrArg List.length (hattach.last _ List.mem_cons_self (hattaches context hu))
            rw [List.length_append, List.length_cons] at hlast
            omega
        refine ⟨ms, _, hpasses, hevents, hworld, hfronts', hmade', rfl, ?_⟩
        have hnext : Phase t d b rest
            ({ world := g, agenda := u :: (ahead ++ .request (.attach t b) :: rest), state := s' } :: later)
            (((L.carry g s' u (ahead ++ .request (.attach t b) :: rest)).tasks ++ ahead) ++
              .request (.attach t b) :: rest)
            ((tasks' ++ ahead') ++ .request (.attach t d) :: rest) := .before (htasks.append hahead)
        rw [List.append_assoc, List.append_assoc] at hnext
        exact hnext
    | after hattached hwoven =>
      subst hagenda
      obtain ⟨others, u', tail', heq, hothers, hu, htail⟩ := hwoven.front
      obtain ⟨n, hn, hn'⟩ := hattached
      obtain ⟨ms, g'', tasks', hpasses, hevents, hworld, htasks⟩ :=
        h.answers hL hd heq hothers hu htail fun context hu =>
        absurd ⟨hattaches context hu, hn'⟩ ((List.pairwise_cons.mp hattach.once).1 n hn)
      exact ⟨ms, _, hpasses, hevents, hworld, hfronts', hmade', rfl,
        .after ⟨n, List.mem_cons_of_mem _ hn, hn'⟩ (htasks.append htail)⟩

/-- Once the copy is done with what it does on the side, **nothing tells the machines
apart**. -/
theorem alike (h : Shadow t d b rest later m m') (hd : m.alive d = true) :
    ∃ ms n', L.Passes m' ms n' ∧ ms.filterMap Machine.event? = [] ∧ m.Alike n' := by
  obtain ⟨⟨g, agenda⟩, s⟩ := m
  cases agenda with
  | nil =>
    obtain ⟨ms, hpasses, hquiet, hrests⟩ := h.rests (L := L) rfl
    exact ⟨ms, _, hpasses, hquiet, hrests.world.alike hrests.fronts hrests.phase.woven.held hd, hrests.state, Iff.rfl⟩
  | cons u tail =>
    obtain ⟨⟨g', agenda'⟩, s'⟩ := m'
    obtain ⟨others, u', tail', heq, hothers, hu, htail⟩ := h.phase.woven.front
    obtain rfl : agenda' = _ := heq
    obtain ⟨ms, hpasses, hquiet⟩ := Language.Passes.spare L g' s' (u' :: tail') hothers
    have hwhole : Woven (Task.Twin t d b) (Task.Spare b) (u :: tail) (u' :: tail') := .cons hu htail
    exact ⟨ms, _, hpasses, hquiet, h.world.alike h.fronts hwhole.held hd, h.state, by simp [machine]⟩

end Shadow

/-- What steps show, the last one first. -/
theorem filterMap_passed {ms later later' : List (Machine κ σ)} {m : Machine κ σ}
    (hshows : ms.filterMap Machine.event? = m.event?.toList)
    (hevents : later'.filterMap Machine.event? = later.filterMap Machine.event?) :
    (ms.reverse ++ later').filterMap Machine.event? = (m :: later).filterMap Machine.event? := by
  rw [List.filterMap_append, List.filterMap_reverse, hshows, hevents, List.filterMap_cons]
  cases m.event? <;> rfl

/-- Before anything is done, nothing tells the machines apart. -/
theorem alike_of_requests {g : World κ} {s : σ} {d b : ObjectId} (hfronts : g.Fronts d b) (B : Binder κ)
    (t : TreeId) (rest : List (Task κ)) (hd : (machine g ((B.attach t b).map .request ++ rest) s).alive d = true) :
    Machine.Alike (machine g ((B.attach t b).map .request ++ rest) s)
      (machine g ((B.derive.attach t d).map .request ++ rest) s) where
  scene := by
    have hheld : ∀ (B : Binder κ) (c : ObjectId), ((B.attach t c).map Task.request ++ rest).flatMap Task.held =
        rest.flatMap Task.held := by
      intro B c
      have hnone : ((B.attach t c).map Task.request).flatMap Task.held = [] := by
        rw [List.flatMap_eq_nil_iff]
        simp only [Binder.attach, List.mem_map, List.mem_append, List.mem_cons]
        rintro _ ⟨r, (rfl | ⟨e, -, rfl⟩) | rfl | hr, rfl⟩
        · rfl
        · rfl
        · rfl
        · cases hr
      rw [List.flatMap_append, hnone, List.nil_append]
    have hsame : HeldAlike d b (Scene.held { world := g, agenda := (B.attach t b).map .request ++ rest })
        (Scene.held { world := g, agenda := (B.derive.attach t d).map .request ++ rest }) := by
      have heq : Scene.held { world := g, agenda := (B.derive.attach t d).map .request ++ rest } =
          Scene.held { world := g, agenda := (B.attach t b).map .request ++ rest } :=
        (hheld B.derive d).trans (hheld B b).symm
      exact heq ▸ .refl d b _
    exact (World.Twin.refl (t := g.trees.size) le_rfl).alike hfronts hsame hd
  state := rfl
  rest := by simp [machine, Binder.attach]

/-- The first step makes the tree, and its copy. -/
theorem shadow_of_newTree {g : World κ} {s : σ} {d b : ObjectId} (hfronts : g.Fronts d b) (B : Binder κ)
    (rest : List (Task κ)) (later : List (Machine κ σ)) : Shadow g.trees.size d b rest later
      (L.step (machine g ((B.attach g.trees.size b).map .request ++ rest) s))
      (L.step (machine g ((B.derive.attach g.trees.size d).map .request ++ rest) s)) := by
  rw [B.derive_attach]
  refine ⟨(World.Twin.refl le_rfl).newCopy rfl B.plan, ?_, ?_, rfl, ?_⟩
  · exact hfronts.of_watching rfl (hfronts.forwards.congr rfl)
  · show g.trees.size < (g.trees.push { plan := B.plan }).size
    simp
  · have hahead : Woven (Task.Twin g.trees.size d b) (Task.Spare b)
        (B.registry.attachRuns.map fun e => Task.request (.perform e.2 b))
        (B.registry.attachRuns.map fun e => Task.request (.perform (.onBase e.2) d)) :=
      .of_map fun e _ => .ask e.2
    have hphase : Phase g.trees.size d b rest later _ _ := .before hahead
    simpa [Language.step, machine, Binder.attach, Language.carry, World.grant, Function.comp_def] using hphase

/-- **Derived binders simulate their base.** The rules under some keys are removed from a
binder and from its derived copy, then the one is attached to the context `b` and the other
to an object `d` that forwards to `b`. Whatever goes on from there, as long as `d` is
alive, no code is hooked on it and nobody else attaches the tree: asked for the same at
rest, the machine with the copy shows the same, the same actions in the same order on the
same contexts, and the same code. Then the worlds are the same but for watchers and plans:
what properties and collections hold, commands with their contexts and cached states, and
who is subscribed under which id to what. -/
theorem derived_binder_simulates (hL : L.Discreet) (B : Binder κ) (keys : List String) {past later : List (Machine κ σ)}
    {g : World κ} {s : σ} {rest : List (Task κ)} {d b : ObjectId} {m : Machine κ σ}
    (h : Run L past (machine g (((B.removeAll keys).attach g.trees.size b).map .request ++ rest) s))
    (hforwards : g.Forwards d b)
    (h' : Resumes L (machine g (((B.removeAll keys).attach g.trees.size b).map .request ++ rest) s) later m)
    (halive : ∀ n ∈ m :: later, n.alive d = true) (hhooks : ∀ n ∈ later, n.hooksOn d = false)
    (hattach : AttachedOnce g.trees.size rest later) :
    ∃ later' m', Abreast L (machine g (((B.removeAll keys).attach g.trees.size b).map .request ++ rest) s)
        (machine g (((B.derive.removeAll keys).attach g.trees.size d).map .request ++ rest) s) later m later' m' ∧
      later'.filterMap Machine.event? = later.filterMap Machine.event? ∧ m.Alike m' := by
  have hfronts : g.Fronts d b := hforwards.fronts h.unheard h.sane
  rw [B.derive_removeAll]
  generalize hm₀ : machine g (((B.removeAll keys).attach g.trees.size b).map .request ++ rest) s = m₀ at h'
  generalize hm₀' : machine g (((B.removeAll keys).derive.attach g.trees.size d).map .request ++ rest) s = m₀'
  -- the machines are where they started, or the one shadows the other
  have hfollows : ∃ later' m', Abreast L m₀ m₀' later m later' m' ∧
      later'.filterMap Machine.event? = later.filterMap Machine.event? ∧
      (m = m₀ ∧ m' = m₀' ∨ Shadow g.trees.size d b rest later m m') := by
    have hlater : ∀ n ∈ later, n.alive d = true := fun n hn => halive n (List.mem_cons_of_mem _ hn)
    clear halive
    induction h' with
    | here => exact ⟨[], m₀', .here, rfl, Or.inl ⟨rfl, rfl⟩⟩
    | @ask later g₁ s₁ _ requests s₂ ih =>
      obtain ⟨later', m', habreast, hevents, ⟨heq, -⟩ | hshadow⟩ := ih hhooks hattach hlater
      · have hagenda := congrArg Scene.agenda (congrArg Machine.toScene (heq.trans hm₀.symm))
        simp [machine, Binder.attach] at hagenda
      · obtain ⟨ms, hpasses, hquiet, hrests⟩ := hshadow.rests (L := L) rfl
        refine ⟨_, _, (habreast.passes hpasses).ask requests s₂, ?_, Or.inr ?_⟩
        · rw [List.filterMap_append, List.filterMap_reverse, hquiet, hevents]
          rfl
        · exact ⟨hrests.world, hrests.fronts, hrests.made, rfl, .after hrests.phase.at_rest.1 (.refl (.refl _ _ _) _)⟩
    | @step later m h' ih =>
      obtain ⟨later', m', habreast, hevents, hphase⟩ := ih (fun n hn => hhooks n (List.mem_cons_of_mem _ hn))
        ⟨hattach.once.of_cons, fun n hn => hattach.last n (List.mem_cons_of_mem _ hn)⟩
        fun n hn => hlater n (List.mem_cons_of_mem _ hn)
      rcases hphase with ⟨rfl, rfl⟩ | hshadow
      · have hquiet : m.event? = none ∧ m'.event? = none := by
          rw [← hm₀, ← hm₀']
          exact ⟨rfl, rfl⟩
        refine ⟨_, _, habreast.left.right, ?_, Or.inr ?_⟩
        · rw [List.filterMap_cons_none hquiet.1, List.filterMap_cons_none hquiet.2, hevents]
        · subst hm₀ hm₀'
          exact shadow_of_newTree hfronts _ rest _
      · obtain ⟨ms, n', hpasses, hshows, hshadow'⟩ := hshadow.step hL (hlater m List.mem_cons_self)
          (hhooks m List.mem_cons_self) hattach
        exact ⟨_, n', (habreast.passes hpasses).left, filterMap_passed hshows hevents, Or.inr hshadow'⟩
  obtain ⟨later', m', habreast, hevents, ⟨rfl, rfl⟩ | hshadow⟩ := hfollows
  · subst hm₀ hm₀'
    exact ⟨later', _, habreast, hevents, alike_of_requests hfronts _ _ rest (halive _ List.mem_cons_self)⟩
  · obtain ⟨ms, n', hpasses, hquiet, halike⟩ := hshadow.alike (L := L) (halive m List.mem_cons_self)
    refine ⟨_, n', habreast.passes hpasses, ?_, halike⟩
    rw [List.filterMap_append, List.filterMap_reverse, hquiet, hevents]
    rfl

/-! ### A binder on an embedded context -/

/-- Code that reads properties cannot tell scenes apart that look alike. -/
theorem fields_discreet : fields.Discreet where
  run _ _ _ _ := rfl
  value h k o _ := World.read_congr h.outline o k
  test h k o _ s := congrArg (fun v : Value => (v.isTrue, s)) (World.read_congr h.outline o k)

/-- Two copies in a row, and a command. -/
def embeddedBinder : Binder String :=
  (history (copies.map .bind ++ [.command waiting])).1

/-- There is a context, and an object that embeds it. -/
def embedded : List (Machine String Unit) × Machine String Unit :=
  fields.trail 2 [] (machine {} ([.newObject "context" [("first", .int 7)] none [],
    .newObject "outer" [] (some 0) []].map .request) ())

/-- The second copy is removed, and the binder is attached. -/
def attachingEmbedded : Machine String Unit :=
  machine embedded.2.world
    (((embeddedBinder.removeAll ["third"]).attach embedded.2.world.trees.size 0).map .request ++ []) ()

theorem attachingEmbedded_run : Run fields embedded.1 attachingEmbedded := by
  have hrun : Run fields embedded.1 (machine embedded.2.world [] ()) := ((Run.start ()).ask _ ()).trail 2
  have hasked := hrun.ask ((embeddedBinder.removeAll ["third"]).attach embedded.2.world.trees.size 0) ()
  rwa [← List.append_nil (List.map _ _)] at hasked

/-- The attach returns. -/
def attachedEmbedded : List (Machine String Unit) × Machine String Unit :=
  fields.trail 21 [] attachingEmbedded

/-- Then the first property is written, and the context gets ready. -/
def usedEmbedded : List (Machine String Unit) × Machine String Unit :=
  fields.trail 14 attachedEmbedded.1 (machine attachedEmbedded.2.world
    ([.write 0 "first" (.int 8), .write 0 "ready" (.bool true)].map .request) ())

theorem Machine.eq_of_rest {m : Machine κ Unit} (h : m.agenda.isEmpty = true) : m = machine m.world [] () := by
  obtain ⟨⟨g, agenda⟩, s⟩ := m
  obtain rfl : agenda = [] := List.isEmpty_iff.mp h
  rfl

theorem usedEmbedded_resumes :
    Resumes fields attachingEmbedded usedEmbedded.1 (machine usedEmbedded.2.world [] ()) := by
  have hattached : Resumes fields attachingEmbedded attachedEmbedded.1 attachedEmbedded.2 := Resumes.here.trail 21
  rw [Machine.eq_of_rest (m := attachedEmbedded.2) (by decide +kernel)] at hattached
  have hused : Resumes fields attachingEmbedded usedEmbedded.1 usedEmbedded.2 := (hattached.ask _ ()).trail 14
  rwa [Machine.eq_of_rest (m := usedEmbedded.2) (by decide +kernel)] at hused

theorem usedEmbedded_quiet : ∀ n ∈ usedEmbedded.1, n.hooksOn 1 = false := by
  have hall : usedEmbedded.1.all (fun n => !n.hooksOn 1) = true := by decide +kernel
  intro n hn
  simpa using List.all_eq_true.mp hall n hn

theorem usedEmbedded_attachedOnce : AttachedOnce embedded.2.world.trees.size [] usedEmbedded.1 := by
  have hall : usedEmbedded.1.all (fun n => !n.attaches 0 || n.agenda.tail.isEmpty) = true := by decide +kernel
  refine ⟨by decide +kernel, fun n hn hattaches => ?_⟩
  have hlast := List.all_eq_true.mp hall n hn
  have h₀ : n.attaches 0 = true := hattaches
  simpa [h₀] using hlast

/-- The object that embeds the context forwards to it, and what was written has arrived in
the machine with the copy as well. -/
theorem derived_binder_simulates_embedded : embedded.2.world.Forwards 1 0 ∧
    ∃ later' m', Abreast fields attachingEmbedded
        (machine embedded.2.world (((embeddedBinder.derive.removeAll ["third"]).attach
          embedded.2.world.trees.size 1).map .request ++ []) ())
        usedEmbedded.1 (machine usedEmbedded.2.world [] ()) later' m' ∧
      later'.filterMap Machine.event? = usedEmbedded.1.filterMap Machine.event? ∧
      Machine.Alike (machine usedEmbedded.2.world [] ()) m' ∧ m'.world.read 0 "second" = .int 8 := by
  have hforwards : embedded.2.world.Forwards 1 0 := ⟨_, rfl, rfl, rfl, rfl⟩
  have hall : (usedEmbedded.2 :: usedEmbedded.1).all (fun n => n.alive 1) = true := by decide +kernel
  rw [Machine.eq_of_rest (m := usedEmbedded.2) (by decide +kernel)] at hall
  obtain ⟨later', m', habreast, hevents, halike⟩ := derived_binder_simulates fields_discreet embeddedBinder ["third"]
    attachingEmbedded_run hforwards usedEmbedded_resumes (List.all_eq_true.mp hall) usedEmbedded_quiet
    usedEmbedded_attachedOnce
  have hsame : ∀ {g : World String}, g.read 0 "second" = .int 8 → (machine g [] ()).world.read 0 "second" = .int 8 := id
  have hread : (machine usedEmbedded.2.world [] ()).world.read 0 "second" = .int 8 := hsame (by decide +kernel)
  exact ⟨hforwards, later', m', habreast, hevents, halike,
    (World.read_congr halike.scene.outline 0 "second").trans hread⟩

end LiveRules
