/-
# Attaching a context with commands

Attaching a context first makes the tree, then carries out what runs on attach, and
attaches the tree last. What runs on attach makes the command of a command binding, and
evaluates it once everything else has run. From then until the tree is attached nothing
comes but evaluations of commands, which nobody is told of, so the command is evaluated
when its dependencies begin to be watched. From then on they keep it so.

Key definitions: `Action.Settles`, `Settling`, `CommandRules.Attaching`.
Key theorems: `Strides.attaches`, `CommandRules.Attaching.stride`.
-/
import LiveRules.Proofs.Coherence.Evaluated
import LiveRules.Proofs.Machine.Notices

namespace LiveRules

variable {κ σ : Type} {L : Language κ σ}

/-! ### Single tasks -/

section

variable {g g' : World κ} {rest tasks : List (Task κ)} {st s' : σ}

theorem Strides.asked {a : Action κ} {o : ObjectId} (hs : Strides L g st (.request (.perform a o)) rest g' tasks s')
    (ho : g.hasObject o = true) : g' = g ∧ tasks = [.perform a o, .release (.value (.object o))] := by
  have hcarry := hs.carried rfl (by simp)
  simp only [Language.carry, World.grant, ho, if_true, Effect.mk.injEq] at hcarry
  exact ⟨hcarry.1.symm, hcarry.2.2.symm⟩

theorem Strides.released {v : Value} (hs : Strides L g st (.release (.value v)) rest g' tasks s') :
    g' = g ∧ tasks = [] := by
  have hcarry := hs.carried rfl (by simp)
  simp only [Language.carry, Effect.mk.injEq] at hcarry
  exact ⟨hcarry.1.symm, hcarry.2.2.symm⟩

end

/-- What a call holds is alive. -/
theorem Scene.alive_of_release {scene : Scene κ} {o : ObjectId}
    (h : (.release (.value (.object o)) : Task κ) ∈ scene.agenda) : scene.alive o = true := by
  have hheld : Held.value (.object o) ∈ scene.held := List.mem_flatMap.mpr ⟨_, h, by simp [Task.held]⟩
  simp [Scene.alive, World.isHeld, hheld]

/-- The tree is there, with its plan. -/
def World.Plans (g : World κ) (t : TreeId) (plan : WatchPlan κ) : Prop :=
  ∃ tree, g.trees[t]? = some tree ∧ tree.plan = plan

theorem World.Plans.lasts {judged : CommandId → Bool → Prop} {g g' : World κ} {t : TreeId} {plan : WatchPlan κ}
    (h : g.Plans t plan) (hlasts : g.Lasts judged g') : g'.Plans t plan := by
  obtain ⟨tree, htree, hplan⟩ := h
  obtain ⟨tree', htree', hsame⟩ := hlasts.trees t tree htree
  exact ⟨tree', htree', Eq.trans hsame hplan⟩

/-- A tree that is planted has its attachment in place. -/
theorem Stable.stands_plant {g : World κ} {agenda : List (Task κ)} {missed : SubscriptionId → List ObjectId}
    (h : Stable g agenda missed) {t : TreeId} (plan : WatchPlan κ) {context : ObjectId}
    (hcontext : g.hasObject context = true) (htree : g.trees[t]?.isSome = true) :
    (g.plantTree t plan context).Stands { tree := t, top := g.watchers.size, context } plan := by
  set top : Watcher κ := .object plan { tree := t, top := g.watchers.size, context } none with htop
  obtain ⟨-, hreb⟩ := h.rebound_top (x := top) rfl hcontext
  have hnew : (g.addWatcher top).watchers[g.watchers.size]? = some top := by simp [World.addWatcher]
  refine ⟨?_, ?_⟩
  · rw [(h.treeRoot_plant plan hcontext).2, if_pos ⟨rfl, htree⟩]
  · obtain ⟨y, hy, hdormant, htarget⟩ := hreb.self top hnew
    cases y with
    | collection => cases hdormant
    | object plan' site bound =>
      cases hdormant
      cases bound with
      | none => cases htarget
      | some b =>
        refine ⟨b, hy, ?_⟩
        have hvalue : b.subject.value = Value.object context := Option.some.inj htarget
        cases hsubject : b.subject <;> rw [hsubject] at hvalue <;> cases hvalue
        rfl

/-- **Attaching a tree** that is there puts an attachment in place. -/
theorem Strides.attaches {g g' : World κ} {rest tasks : List (Task κ)} {st s' : σ}
    {missed missed' : SubscriptionId → List ObjectId} {t : TreeId} {context : ObjectId} {plan : WatchPlan κ}
    (h : Stable g (.request (.attach t context) :: rest) missed)
    (hs : Strides L g st (.request (.attach t context)) rest g' tasks s') (h' : Stable g' (tasks ++ rest) missed')
    (hcontext : g.hasObject context = true) (hplans : g.Plans t plan) :
    g.Watches g' ∧ ∃ top, g'.Stands { tree := t, top, context } plan := by
  have hdisposes : g.Outlives (g.dispose t) := (g.dispose_watches t).lasts
  obtain ⟨tree, htree, rfl⟩ := hplans.lasts hdisposes
  have hcontext' : (g.dispose t).hasObject context = true :=
    (World.hasValue_congr (g.dispose_outline t) (.object context)).trans hcontext
  have hgrant : g.grant rest (.attach t context) = ((g.dispose t).addWatcher
      (.object tree.plan { tree := t, top := (g.dispose t).watchers.size, context } none),
        [.bind (g.dispose t).watchers.size (.object context), .plant t (g.dispose t).watchers.size,
          .release (.tree t)]) := by
    simp only [World.grant, hcontext, if_true, World.attach, htree]
  -- the step only begins to bind the top
  have hbinds : ∀ {g₁ : World κ} {tasks : List (Task κ)}, L.carry g st (.request (.attach t context)) rest =
      { world := g₁, state := s', tasks } → .bind (g.dispose t).watchers.size (.object context) ∈ tasks := by
    intro g₁ tasks hcarry
    simp only [Language.carry, hgrant, Effect.mk.injEq] at hcarry
    rw [← hcarry.2.2]
    exact List.mem_cons_self
  cases hs with
  | pass hcarry => exact absurd (h'.calm _ (List.mem_append_left _ (hbinds hcarry))) (by simp [Task.isBinding])
  | uproot _ hcarry => cases hbinds hcarry
  | follow hu => cases hu
  | take hu => cases hu
  | @plant v tree' context' hu htree' =>
    cases hu
    obtain rfl : tree = tree' := Option.some.inj (htree.symm.trans htree')
    have hdisposed := h.dispose t
    exact ⟨(g.dispose_watches t).trans (hdisposed.plant_watches t tree.plan hcontext'), (g.dispose t).watchers.size,
      hdisposed.stands_plant tree.plan hcontext' (by rw [htree]; rfl)⟩

/-! ### Evaluations -/

/-- The action evaluates a command, of the object or of one it is based on. -/
inductive Action.Settles : Action κ → Prop
  | settle (takesArgument : Bool) (target : String) : Settles (.settle takesArgument target)
  | onBase {inner : Action κ} (h : inner.Settles) : Settles (.onBase inner)

/-- **An evaluation** changes commands only, and causes no more than an evaluation. -/
theorem Action.Settles.performed {a : Action κ} (ha : a.Settles) (L : Language κ σ) (scene : Scene κ) (s : σ)
    (o : ObjectId) :
    (∃ commands, (L.perform scene s a o).world = { scene.world with commands }) ∧ ((L.perform scene s a o).tasks = [] ∨
      ∃ inner base, inner.Settles ∧
        (L.perform scene s a o).tasks = [.perform inner base, .release (.value (.object base))]) := by
  cases ha with
  | settle takesArgument target =>
    simp only [Language.perform]
    split
    · exact ⟨L.settle_commands scene s _, Or.inl rfl⟩
    · exact ⟨⟨_, rfl⟩, Or.inl rfl⟩
  | @onBase inner h => exact ⟨⟨_, rfl⟩, Or.inr ⟨inner, _, h, rfl⟩⟩

/-- Nothing comes but evaluations until the tree `t` is attached to the context, which is
held meanwhile. -/
inductive Settling (t : TreeId) (context : ObjectId) : List (Task κ) → Prop
  | attach (rest : List (Task κ)) : Settling t context (.request (.attach t context) :: rest)
  | ask {a : Action κ} {rest : List (Task κ)} (ha : a.Settles) (h : Settling t context rest) :
      Settling t context (.request (.perform a context) :: rest)
  | perform {a : Action κ} {o : ObjectId} {rest : List (Task κ)} (ha : a.Settles)
      (hheld : .release (.value (.object context)) ∈ rest) (h : Settling t context rest) :
      Settling t context (.perform a o :: rest)
  | release {v : Value} {rest : List (Task κ)} (h : Settling t context rest) :
      Settling t context (.release (.value v) :: rest)

/-- An evaluation leads on to what comes next. -/
theorem Settling.performed {t : TreeId} {context o : ObjectId} {a : Action κ} (ha : a.Settles)
    {rest tasks : List (Task κ)}
    (hheld : .release (.value (.object context)) ∈ rest) (h : Settling t context rest) {g g' : World κ} {st s' : σ}
    (hs : Strides L g st (.perform a o) rest g' tasks s') :
    (∃ commands, g' = { g with commands }) ∧ Settling t context (tasks ++ rest) := by
  have hperformed := ha.performed L { world := g, agenda := .perform a o :: rest } st o
  rw [hs.performed] at hperformed
  obtain ⟨hcommands, rfl | ⟨inner, base, hinner, rfl⟩⟩ := hperformed
  · exact ⟨hcommands, h⟩
  · exact ⟨hcommands, .perform hinner (List.mem_cons_of_mem _ hheld) (.release h)⟩

/-! ### The phases of attaching -/

namespace CommandRules

variable (c : CommandRules κ)

/-- Where attaching the context has got to. -/
inductive Attaching (L : Language κ σ) (t : TreeId) (context : ObjectId) (plan : WatchPlan κ) (id : ActionId) :
    Machine κ σ → Prop
  /-- The tree is to be made. -/
  | start {m : Machine κ σ} {front back : List (Task κ)}
      (hagenda : m.agenda =
        .request (.newTree plan) :: (front ++ .request (.perform (.settle false c.property) context) :: back))
      (hsize : m.world.trees.size = t) (hcreation : .request (.perform (.create c.binding c.property) context) ∈ front)
      (hback : Settling t context back) : Attaching L t context plan id m
  /-- The command is there or is to be made before it is evaluated. -/
  | before {m : Machine κ σ} {front back : List (Task κ)}
      (hagenda : m.agenda = front ++ .request (.perform (.settle false c.property) context) :: back)
      (hplans : m.world.Plans t plan) (howned : (∃ x y, c.Owns m.world context x y) ∨ c.creation context ∈ front ∨
        .request (.perform (.create c.binding c.property) context) ∈ front)
      (hback : Settling t context back) : Attaching L t context plan id m
  /-- It is the turn of the command to be evaluated. -/
  | turn {m : Machine κ σ} {back : List (Task κ)}
      (hagenda : m.agenda = .perform (.settle false c.property) context :: .release (.value (.object context)) :: back)
      (hplans : m.world.Plans t plan) (howned : ∃ x y, c.Owns m.world context x y) (hback : Settling t context back) :
      Attaching L t context plan id m
  /-- The command is evaluated, and nothing comes but other evaluations. -/
  | settled {m : Machine κ σ} (hagenda : Settling t context m.agenda) (hplans : m.world.Plans t plan)
      (hevaluated : c.Evaluated L context m) : Attaching L t context plan id m
  /-- The tree is attached. -/
  | attached {m : Machine κ σ} {top : WatcherId} (htracks : c.Tracks L id { tree := t, top, context } plan m) :
      Attaching L t context plan id m

variable {c} {roster : Roster (Action κ)} {later : List (Machine κ σ)} {paths : List Path} {t : TreeId}
  {context : ObjectId} {plan : WatchPlan κ} {id : ActionId}

section

variable {g g' : World κ} {u : Task κ} {rest tasks : List (Task κ)} {s s' : σ}
  (h : Stable g (u :: rest) fun _ => []) (hs : Strides L g s u rest g' tasks s')

include h hs

/-- The tree is made first. -/
theorem Attaching.of_start {front back : List (Task κ)}
    (hagenda : u :: rest =
      .request (.newTree plan) :: (front ++ .request (.perform (.settle false c.property) context) :: back))
    (hsize : g.trees.size = t) (hcreation : .request (.perform (.create c.binding c.property) context) ∈ front)
    (hback : Settling t context back) : c.Attaching L t context plan id (machine g' (tasks ++ rest) s') := by
  cases hagenda
  have hcarry := hs.carried rfl (by simp)
  simp only [Language.carry, World.grant, Effect.mk.injEq] at hcarry
  obtain ⟨rfl, -, rfl⟩ := hcarry
  refine .before rfl ⟨{ plan }, ?_, rfl⟩ (Or.inr (Or.inr hcreation)) hback
  simp [machine, ← hsize]

/-- What comes before the evaluation either makes the command or leaves it to be made. -/
theorem Attaching.of_before (hforce : c.InForce L roster context later) (hmem : machine g (u :: rest) s ∈ later)
    (hcontext : g.hasObject context = true) {front back : List (Task κ)}
    (hagenda : u :: rest = front ++ .request (.perform (.settle false c.property) context) :: back)
    (hplans : g.Plans t plan) (howned : (∃ x y, c.Owns g context x y) ∨ c.creation context ∈ front ∨
      .request (.perform (.create c.binding c.property) context) ∈ front) (hback : Settling t context back) :
    c.Attaching L t context plan id (machine g' (tasks ++ rest) s') := by
  have hplans' : g'.Plans t plan := hplans.lasts (hs.lasts h)
  cases front with
  | nil =>
    cases hagenda
    obtain ⟨rfl, rfl⟩ := hs.asked hcontext
    refine .turn rfl hplans' (howned.resolve_right ?_) hback
    simp
  | cons v front =>
    cases hagenda
    have hagenda' : tasks ++ (front ++ .request (.perform (.settle false c.property) context) :: back) =
        (tasks ++ front) ++ .request (.perform (.settle false c.property) context) :: back :=
      (List.append_assoc _ _ _).symm
    refine .before hagenda' hplans' ?_ hback
    by_cases hmade : (∃ x y, c.Owns g context x y) ∨ u = c.creation context
    · exact Or.inl (hforce.owned_stride hmem h hs hcontext hmade)
    · refine Or.inr ?_
      rcases howned.resolve_left fun howned => hmade (Or.inl howned) with hcreation | hcreation
      · refine Or.inl (List.mem_append_right _ ((List.mem_cons.mp hcreation).resolve_left fun heq => ?_))
        exact hmade (Or.inr heq.symm)
      · rcases List.mem_cons.mp hcreation with heq | hcreation
        · subst heq
          obtain ⟨-, rfl⟩ := hs.asked hcontext
          exact Or.inl (List.mem_append_left _ List.mem_cons_self)
        · exact Or.inr (List.mem_append_right _ hcreation)

variable (hreads : L.TestReads c.binding.condition paths context)

include hreads

/-- At its turn the command is evaluated. -/
theorem Attaching.of_turn {back : List (Task κ)}
    (hagenda : u :: rest = .perform (.settle false c.property) context :: .release (.value (.object context)) :: back)
    (hplans : g.Plans t plan) (howned : ∃ x y, c.Owns g context x y) (hback : Settling t context back) :
    c.Attaching L t context plan id (machine g' (tasks ++ rest) s') := by
  cases hagenda
  obtain ⟨x, y, howns⟩ := howned
  have hsettles : (Action.settle false c.property : Action κ).Settles := .settle false c.property
  obtain ⟨⟨commands, rfl⟩, hsettling⟩ := Settling.performed hsettles List.mem_cons_self (.release hback) hs
  refine .settled hsettling (hplans.lasts (hs.lasts h)) ?_
  exact howns.evaluated_turn (Or.inr rfl) h hs
    (Scene.alive_of_release (List.mem_cons_of_mem _ List.mem_cons_self)) hreads
    (fun p _ => g.agrees_commands commands p.word _) (g.read_commands commands _ _)

/-- From then on it stays evaluated until the tree is attached. -/
theorem Attaching.of_settled (hcontext : g.hasObject context = true) {missed : SubscriptionId → List ObjectId}
    (h' : Stable g' (tasks ++ rest) missed) (hsettling : Settling t context (u :: rest)) (hplans : g.Plans t plan)
    (hevaluated : c.Evaluated L context (machine g (u :: rest) s)) :
    c.Attaching L t context plan id (machine g' (tasks ++ rest) s') := by
  cases hsettling with
  | attach =>
    obtain ⟨hwatches, top, hstands⟩ := hs.attaches h h' hcontext hplans
    have hevaluated' : c.Evaluated L context (machine g' (tasks ++ rest) s') := hevaluated.congr hreads hwatches
    have howned := hevaluated'
    obtain ⟨x, y, howns, -⟩ := howned
    exact .attached ⟨hstands, ⟨x, y, howns⟩, Or.inr hevaluated'⟩
  | ask ha hback =>
    obtain ⟨rfl, rfl⟩ := hs.asked hcontext
    exact .settled (.perform ha List.mem_cons_self (.release hback)) hplans (hevaluated.congr hreads (.refl _))
  | release hback =>
    obtain ⟨rfl, rfl⟩ := hs.released
    exact .settled hback hplans (hevaluated.congr hreads (.refl _))
  | @perform a o _ ha hheld hback =>
    have hlasts := hs.lasts h
    obtain ⟨⟨commands, rfl⟩, hsettling⟩ := Settling.performed ha hheld hback hs
    have halive : (machine g (.perform a o :: rest) s).alive context = true :=
      Scene.alive_of_release (List.mem_cons_of_mem _ hheld)
    refine .settled hsettling (hplans.lasts hlasts) ?_
    refine hevaluated.keep hreads (fun p _ => g.agrees_commands commands p.word _) (g.read_commands commands _ _) hlasts
      fun howns hjudged => hjudged.trans ?_
    exact congrArg Prod.fst (howns.canRun_eq halive s)

end

/-- At rest the tree is attached and the command evaluated. -/
theorem Attaching.at_rest {g : World κ} {s : σ} (h : c.Attaching L t context plan id (machine g [] s)) :
    (∃ top, g.Stands { tree := t, top, context } plan) ∧ c.Evaluated L context (machine g [] s) := by
  cases h with
  | start hagenda => cases hagenda
  | before hagenda => cases List.append_eq_nil_iff.mp hagenda.symm |>.2
  | turn hagenda => cases hagenda
  | settled hagenda => cases hagenda
  | @attached top htracks =>
    refine ⟨⟨top, htracks.stands⟩, htracks.evaluated.resolve_left ?_⟩
    rintro ⟨u, hu, -⟩
    cases hu

theorem Attaching.ask {g : World κ} {s : σ} (h : c.Attaching L t context plan id (machine g [] s))
    (hreads : L.TestReads c.binding.condition paths context) (requests : List (Request κ)) (s' : σ) :
    c.Attaching L t context plan id (machine g (requests.map .request) s') := by
  obtain ⟨⟨top, hstands⟩, hevaluated⟩ := h.at_rest
  have hevaluated' : c.Evaluated L context (machine g (requests.map .request) s') := hevaluated.congr hreads (.refl _)
  obtain ⟨x, y, howns, -⟩ := hevaluated
  exact .attached ⟨hstands, ⟨x, y, howns⟩, Or.inr hevaluated'⟩

/-- **Every stride** leads on, as long as it leaves the tree attached if it was. -/
theorem Attaching.stride {g g' : World κ} {u : Task κ} {rest tasks : List (Task κ)} {s s' : σ}
    (hattaching : c.Attaching L t context plan id (machine g (u :: rest) s)) (h : Stable g (u :: rest) fun _ => [])
    (hs : Strides L g s u rest g' tasks s') (h' : Stable g' (tasks ++ rest) fun _ => [])
    (hforce : c.InForce L roster context later) (hmem : machine g (u :: rest) s ∈ later)
    (hcontext : g.hasObject context = true) (hpaths : pathsOf c.dependencies = .ok paths)
    (hserves : ∀ site, ∀ p ∈ paths, (Watcher.object plan site none).Serves (id, .refresh false c.property) p.word)
    (hplan : plan.Cumulative) (hfree : ∀ x ∈ g.collections, x.free = false)
    (hstays : g.isAttached t = true → (L.step (machine g (u :: rest) s)).world.isAttached t = true) :
    c.Attaching L t context plan id (machine g' (tasks ++ rest) s') := by
  have hreads := hforce.reads paths hpaths
  cases hattaching with
  | start hagenda hsize hcreation hback => exact .of_start h hs hagenda hsize hcreation hback
  | before hagenda hplans howned hback => exact .of_before h hs hforce hmem hcontext hagenda hplans howned hback
  | turn hagenda hplans howned hback => exact .of_turn h hs hreads hagenda hplans howned hback
  | settled hagenda hplans hevaluated => exact .of_settled h hs hreads hcontext h' hagenda hplans hevaluated
  | @attached top htracks =>
    have hroot : g.treeRoot t = some top := htracks.stands.root
    have hattached : g.isAttached t = true := by
      unfold World.isAttached
      rw [hroot]
      rfl
    have hroot' : g'.treeRoot t = some top := (hs.stays h (hstays hattached)).trans hroot
    exact .attached (hforce.tracks_stride hmem h hs hpaths (hserves _) hplan hfree h' hroot' htracks)

end CommandRules

end LiveRules
