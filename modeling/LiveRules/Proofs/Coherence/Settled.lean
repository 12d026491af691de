/-
# Attaching settles commands

Attaching a context carries out what runs on attach, in two phases, and then attaches a new
tree. A command that is made in the first phase is evaluated at once, but what its condition
reads may still change while the phase goes on, and anything may come of that. In the second
phase commands are evaluated and nothing else happens, and nothing else happens when the tree
is attached. So when the call returns, all that were evaluated are right, in whatever order
they were registered.

The tree has no subscription before both phases are over: nobody else attaches it meanwhile.

Key definitions: `Performs`.
Key theorems: `Courses.performs`, `Stable.passes_attach`, `attach_settles`.
-/
import LiveRules.Proofs.Coherence.Caching
import LiveRules.Proofs.Coherence.Commands
import LiveRules.Proofs.Coherence.Unplanted

namespace LiveRules

variable {κ σ : Type} {L : Language κ σ}

/-! ### Actions have their turns -/

/-- The course performs the action on the object, and holds the object meanwhile. -/
def Performs (a : Action κ) (o : ObjectId) : List (Machine κ σ) → Prop
  | m :: n :: _ => ∃ rest, m.agenda = .request (.perform a o) :: rest ∧
      n.agenda = .perform a o :: .release (.value (.object o)) :: rest
  | _ => False

/-- **Actions that are asked for** on an object that is there are performed. -/
theorem Courses.performs {rest : List (Task κ)} {o : ObjectId} {actions : List (Action κ)} {m n : Machine κ σ}
    {runs : List (List (Machine κ σ))} (h : Courses L rest m (actions.map fun a => .request (.perform a o)) runs n)
    (ho : ∀ q ∈ runs.flatten, q.world.hasObject o = true) :
    List.Forall₂ (fun a run => Performs a o run) actions runs := by
  induction actions generalizing m runs with
  | nil =>
    cases h
    exact .nil
  | cons a actions ih =>
    cases h with
    | @next _ k _ _ _ course runs hturn hpasses _ h =>
      refine .cons ?_ (ih h fun q hq => ho q (by simp [hq]))
      have hm : m.world.hasObject o = true := ho m (by simp)
      have hstep : (L.step m).agenda = .perform a o :: .release (.value (.object o)) ::
          (actions.map (fun a => .request (.perform a o)) ++ rest) := by
        simp [Language.step, hturn, Language.carry, World.grant, hm]
      cases hpasses with
      | step hpasses =>
        cases hpasses with
        | done =>
          have hlength := congrArg List.length (hstep.symm.trans h.agenda.1)
          simp at hlength
          omega
        | step => exact ⟨_, hturn, hstep⟩

/-! ### Attaching the tree -/

/-- A tree that nothing belongs to has no subscription. -/
theorem Scene.Without.subscriptionsOf {t : TreeId} {scene : Scene κ} (h : scene.Without t) :
    scene.world.subscriptionsOf t = [] := by
  refine List.append_eq_nil_iff.mpr ⟨List.flatMap_eq_nil_iff.mpr fun s _ => List.flatMap_eq_nil_iff.mpr fun p _ =>
    List.filterMap_eq_nil_iff.mpr fun e _ => ?_, List.flatMap_eq_nil_iff.mpr fun c _ =>
      List.filterMap_eq_nil_iff.mpr fun e _ => ?_⟩
  · unfold World.asProperty
    split
    · simp [h.parts]
    · rfl
  · unfold World.asChanges
    split
    · simp [h.parts]
    · rfl

section

variable {g : World κ} {t : TreeId} {context : ObjectId} {rest : List (Task κ)}
    {missed : SubscriptionId → List ObjectId}
  (h : Stable g (.request (.attach t context) :: rest) missed)
  (hwithout : Scene.Without t { world := g, agenda := .request (.attach t context) :: rest })

include h hwithout

theorem Stable.root_without {tree : Tree κ} (htree : g.trees[t]? = some tree) : tree.root = none := by
  cases hroot : tree.root with
  | none => rfl
  | some r =>
    obtain ⟨o, b, hw, -⟩ := h.rooted t tree r htree hroot
    have hpart : g.isPart t r = true := World.isPart_iff.mpr ⟨_, hw, rfl⟩
    exact absurd ((hwithout.parts r).symm.trans hpart) Bool.false_ne_true

/-- **Attaching a tree** that nothing belongs to makes its watchers, and then the call is over. -/
theorem Stable.passes_attach (hcontext : g.hasObject context = true) {tree : Tree κ} (htree : g.trees[t]? = some tree)
    (s : σ) : ∃ ms, L.Passes (machine g (.request (.attach t context) :: rest) s) ms
      (machine (g.plantTree t tree.plan context) rest s) ∧ ∀ q ∈ ms, q.agenda ≠ rest := by
  have hdispose : g.dispose t = g :=
    World.dispose_of_off (by simp [World.treeRoot, htree, h.root_without hwithout htree])
  have htail := h.tail rfl
  have hlonger : ∀ (u : Task κ), u :: rest ≠ rest := fun u heq => by simpa using congrArg List.length heq
  have hstart : L.step (machine g (.request (.attach t context) :: rest) s) =
      machine (g.addWatcher (.object tree.plan { tree := t, top := g.watchers.size, context } none))
        ([.bind g.watchers.size (.object context), .plant t g.watchers.size, .release (.tree t)] ++ rest) s := by
    simp [Language.step, machine, Language.carry, World.grant, hcontext, World.attach, hdispose, htree]
  have hend : L.step (machine (g.plantTree t tree.plan context) ([.release (.tree t)] ++ rest) s) =
      machine (g.plantTree t tree.plan context) rest s := by
    obtain ⟨-, hreb⟩ :=
      h.rebound_top (x := .object tree.plan { tree := t, top := g.watchers.size, context } none) rfl hcontext
    have htree' : (g.plantTree t tree.plan context).trees[t]? = some { tree with root := some g.watchers.size } := by
      unfold World.plantTree World.modifyTree
      rw [hreb.trees]
      simp [World.addWatcher, Array.getElem?_modify, htree]
    simp [Language.step, machine, Language.carry, Scene.bury, htree', hwithout.kept tree htree]
  obtain ⟨ms, hpasses, hbinding⟩ := (htail.works_plant (L := L) t tree.plan context s).binding
  refine ⟨_ :: (ms ++ [_]), .step ((hstart ▸ hpasses).trans (.step (hend ▸ .done _))), ?_⟩
  intro q hq
  simp only [List.mem_cons, List.mem_append, List.not_mem_nil, or_false] at hq
  rcases hq with rfl | hq | rfl
  · exact hlonger _
  · obtain ⟨u, hu, hbinds⟩ := hbinding q hq
    intro heq
    exact absurd ((htail.calm u (heq ▸ hu)).symm.trans hbinds) Bool.false_ne_true
  · exact hlonger _

/-- **What was right before the tree was attached** is right when the call is over. -/
theorem Stable.right_plant (hcontext : g.hasObject context = true) {tree : Tree κ} (htree : g.trees[t]? = some tree)
    {x : CommandId} (htests : L.TestsPlainly g x) {s : σ}
    (hright : g.Right L (.release (.value (.object context)) :: rest) s x) :
    (g.plantTree t tree.plan context).Right L rest s x := by
  have houtline : (g.plantTree t tree.plan context).outline = g.outline := (h.plant_watches t tree.plan hcontext).1
  have halive := h.alive_plant htree (h.root_without hwithout htree) hcontext rest
  intro y hy hplain
  have hcommands := congrArg (fun g => g.commands[x]?) houtline
  simp only [World.outline, Array.getElem?_map, hy, Option.map_some] at hcommands
  obtain ⟨z, hz, heq⟩ := Option.map_eq_some_iff.mp hcommands.symm
  simp only [Command.mk.injEq] at heq
  have henabled : z.enabled = y.enabled := heq.2.2.1
  rw [← henabled, hright z hz (heq.1.trans hplain)]
  exact congrArg Prod.fst (L.canRun_recached (.of_outline houtline) htests halive s).symm

end

/-! ### The phases -/

/-- Attaching a binder makes the tree, performs what runs on attach and attaches the tree. -/
theorem Kept.attach_eq {b : Binder κ} {roster : Roster (Action κ)} (h : Kept b roster) (t : TreeId)
    (context : ObjectId) :
    (b.attach t context).map Task.request = .request (.newTree b.plan) ::
      (((roster.live.filter (·.rule.runsIn .initial) ++ roster.live.filter (·.rule.runsIn .settle)).map
        (·.rule.action)).map (fun a => .request (.perform a context)) ++ [.request (.attach t context)]) := by
  simp [Binder.attach, h.attachRuns, Function.comp_def]

/-- What runs in the second phase evaluates commands. -/
theorem Roster.Settles.second {roster : Roster (Action κ)} (h : roster.Settles) :
    ∀ a ∈ (roster.live.filter (·.rule.runsIn .settle)).map (·.rule.action), a.Settles := by
  intro a ha
  obtain ⟨e, he, rfl⟩ := List.mem_map.mp ha
  obtain ⟨hlive, hphase⟩ := List.mem_filter.mp he
  simp only [Rule.runsIn, Bool.and_eq_true, decide_eq_true_eq] at hphase
  exact h e hlive hphase.2

/-- Where requests come next, no watcher is being bound. -/
theorem isBinding_head? (actions : List (Action κ)) (o : ObjectId) (r : Request κ) (rest : List (Task κ)) :
    ∀ u ∈ (actions.map (fun a => Task.request (.perform a o)) ++ .request r :: rest).head?, u.isBinding = false := by
  cases actions <;> simp [Task.isBinding]

section

variable {m₀ m : Machine κ σ} {ms : List (Machine κ σ)} (h : L.Passes m₀ ms m)

include h

/-- **A call that attaches** makes the tree; then the actions have their turns, and then the
tree is attached. -/
theorem Language.Passes.phases {plan : WatchPlan κ} {actions : List (Action κ)} {context : ObjectId}
    {rest : List (Task κ)}
    (hagenda : m₀.agenda = .request (.newTree plan) :: (actions.map (fun a => .request (.perform a context)) ++
      [.request (.attach m₀.world.trees.size context)] ++ rest))
    (hreturns : m.agenda = rest) (hfirst : ∀ q ∈ ms, q.agenda ≠ rest) :
    ∃ runs planting n, ms = m₀ :: (runs.flatten ++ planting) ∧
      Courses L (.request (.attach m₀.world.trees.size context) :: rest) (L.step m₀)
        (actions.map fun a => .request (.perform a context)) runs n ∧
      Courses L rest n [.request (.attach m₀.world.trees.size context)] [planting] m ∧
      n.world.Plans m₀.world.trees.size plan := by
  obtain ⟨later, rfl, hlater⟩ : ∃ later, ms = m₀ :: later ∧ L.Passes (L.step m₀) later m := by
    cases h with
    | done =>
      have hlength := congrArg List.length (hagenda.symm.trans hreturns)
      simp at hlength
      omega
    | step h => exact ⟨_, rfl, h⟩
  have hmade : (L.step m₀).agenda = actions.map (fun a => .request (.perform a context)) ++
        [.request (.attach m₀.world.trees.size context)] ++ rest ∧
      (L.step m₀).world.Plans m₀.world.trees.size plan := by
    simp only [Language.step, hagenda, Language.carry, World.grant]
    exact ⟨rfl, { plan }, by simp, rfl⟩
  obtain ⟨cs, hcourses, hcs⟩ := hlater.courses hmade.1 (fun q hq => hfirst q (List.mem_cons_of_mem _ hq)) hreturns
  obtain ⟨runs, last, n, rfl, hruns, hlast⟩ := hcourses.split
  obtain ⟨planting, rfl⟩ : ∃ planting, last = [planting] := by
    cases hlast with
    | next _ _ _ h =>
      cases h
      exact ⟨_, rfl⟩
  exact ⟨runs, planting, n, by simp [← hcs], hruns, hlast, hmade.2.lasts hruns.passes.resumes.outlives.1⟩

/-- Unless a watcher is being bound next, the machine that is come to is stable. -/
theorem Language.Passes.stable {past : List (Machine κ σ)} (hrun : Run L past m₀)
    (hhooks : ∀ n ∈ ms ++ past, n.hooks = false)
    (hfront : ∀ u ∈ m.agenda.head?, u.isBinding = false) : ∃ missed, Stable m.world m.agenda missed := by
  have hleads := (hrun.resume h.resumes).leads fun n hn => hhooks n (by simpa using hn)
  obtain ⟨⟨g, agenda⟩, s⟩ := m
  cases agenda with
  | nil => exact ⟨_, Leads.stable (s := s) hleads⟩
  | cons u rest => exact ⟨_, hleads.front rfl (hfront u rfl)⟩

/-- As long as nobody attaches the tree or gives it up, nothing belongs to it. -/
theorem Language.Passes.without {t : TreeId} (hwithout : m₀.toScene.Without t)
    (hclaims : ∀ q ∈ ms, q.claims t = false) : (∀ q ∈ ms, q.toScene.Without t) ∧ m.toScene.Without t :=
  h.keeps hwithout fun q hq hwithout => L.without_step hwithout fun hclaim => by
    rw [hclaims q hq] at hclaim
    cases hclaim

end

/-- **The second phase** evaluates commands, one after the other. -/
theorem Courses.evaluations {k n : Machine κ σ} {context : ObjectId} {rest : List (Task κ)} {u : Task κ}
    {actions : List (Action κ)} {runs : List (List (Machine κ σ))}
    (h : Courses L (u :: rest) k (actions.map fun a => .request (.perform a context)) runs n) (hg : k.world.Sane)
    (hcontext : k.world.hasObject context = true) (hactions : ∀ a ∈ actions, a.Settles)
    (htests : ∀ a ∈ actions, ∀ x, a.evaluates k.world context = some x → L.TestsPlainly k.world x) (hu : u.held = []) :
    n = machine (L.evaluateAll (.release (.value (.object context)) :: rest) k.state k.world
      (actions.filterMap fun a => a.evaluates k.world context)) (u :: rest) k.state := by
  have hfront : ∀ v ∈ [u], v.held = [] := by simpa using hu
  obtain ⟨ms, hpasses, hbusy⟩ := L.passes_evaluations hg hcontext hactions htests hfront rest k.state
  have hk : k = machine k.world (actions.map (fun a => .request (.perform a context)) ++ ([u] ++ rest)) k.state := by
    conv_lhs => rw [show k = machine k.world k.agenda k.state from rfl, h.agenda.1]
    rfl
  rw [← hk] at hpasses
  exact (h.passes.unique (P := fun q => q.agenda = u :: rest) hpasses (fun q hq => (h.busy q hq).ne)
    (fun q hq => (hbusy q hq).ne) h.agenda.2 rfl).2.symm

/-- **The second phase and the tree**: what one of the actions evaluates is right once the
tree is attached. -/
theorem Courses.right {k n m : Machine κ σ} {t : TreeId} {plan : WatchPlan κ} {context : ObjectId}
    {rest : List (Task κ)}
    {actions : List (Action κ)} {runs : List (List (Machine κ σ))} {planting : List (Machine κ σ)}
    (hruns : Courses L (.request (.attach t context) :: rest) k
      (actions.map fun a => .request (.perform a context)) runs n)
    (hlast : Courses L rest n [.request (.attach t context)] [planting] m) (hg : k.world.Sane) (hshut : k.world.Shut)
    (hcontext : k.world.hasObject context = true) (hactions : ∀ a ∈ actions, a.Settles)
    (htests : ∀ a ∈ actions, ∀ x, a.evaluates k.world context = some x → L.TestsPlainly k.world x)
    {missed : SubscriptionId → List ObjectId} (hstable : Stable n.world n.agenda missed)
    (hwithout : n.toScene.Without t) (hplans : n.world.Plans t plan) :
    m.world.isAttached t = true ∧
      ∀ a ∈ actions, ∀ x, a.evaluates m.world context = some x → m.world.Right L rest m.state x := by
  have hn := hruns.evaluations hg hcontext hactions htests rfl
  set ref : List (Task κ) := .release (.value (.object context)) :: rest with href
  set xs := actions.filterMap fun a => a.evaluates k.world context with hxs
  have hevaluated : k.world.Recached (L.evaluateAll ref k.state k.world xs) := L.recached_evaluateAll _ _ _ _
  have hright : ∀ a ∈ actions, ∀ x, a.evaluates k.world context = some x →
      (L.evaluateAll ref k.state k.world xs).Right L ref k.state x := fun a ha x hx =>
    L.right_evaluateAll (htests a ha x hx) hshut (Or.inl (List.mem_filterMap.mpr ⟨a, ha, hx⟩))
  have hcontext' : (L.evaluateAll ref k.state k.world xs).hasObject context = true :=
    (L.hasObject_evaluateAll _ _ _ _ _).trans hcontext
  set g := L.evaluateAll ref k.state k.world xs with hg'
  subst hn
  obtain ⟨tree, htree, rfl⟩ := hplans
  obtain ⟨ms, hpasses, hms⟩ := hstable.passes_attach (L := L) hwithout hcontext' htree k.state
  obtain rfl := (hlast.passes.unique (P := fun q => q.agenda = rest) hpasses (fun q hq => (hlast.busy q hq).ne)
    hms hlast.agenda.2 rfl).2
  have hplanted : g.Watches (g.plantTree t tree.plan context) := hstable.plant_watches t tree.plan hcontext'
  refine ⟨?_, fun a ha x hx => ?_⟩
  · have hstands := hstable.stands_plant tree.plan hcontext' (by rw [htree]; rfl)
    exact Option.isSome_iff_exists.mpr ⟨_, hstands.root⟩
  · have hx' : a.evaluates k.world context = some x := by
      rw [← hx]
      exact ((hevaluated.trans (.of_outline hplanted.1)).evaluates a context).symm
    exact hstable.right_plant hwithout hcontext' htree ((htests a ha x hx').recached hevaluated) (hright a ha x hx')

/-! ### The whole call -/

/-- **Attaching settles commands.** A binder is attached to a context, in the course of any
run, by a call that returns: the machine goes on until nothing but what was behind the call
is left. Plain rules run in the first phase of an attach, as those that are added through a
builder do. No code is hooked on subscriptions, nobody else attaches the new tree or gives it
up before the call returns. The conditions of the commands that the rules may evaluate have
no side effects and read nothing but properties and members of collections.

Then each rule of the first phase is performed once, in the order of the ids, and then each
of the second phase, and so far the tree has no subscription; and then the tree is attached.
When the call returns, every command that takes no argument and that one of the rules
evaluates, where it is now, has cached whether it can execute now. -/
theorem attach_settles {past ms : List (Machine κ σ)} {m₀ m : Machine κ σ} (h : Run L past m₀)
    (hpasses : L.Passes m₀ ms m)
    (hhooks : ∀ n ∈ ms ++ past, n.hooks = false) (ops : List (Operation κ)) (hops : ∀ op ∈ ops, op.Public)
    {context : ObjectId}
    (htests : ∀ n ∈ ms, ∀ e ∈ (history ops).2.live, ∀ x, e.rule.action.evaluates n.world context = some x →
      L.TestsPlainly n.world x) (hcontext : m₀.world.hasObject context = true)
    {rest : List (Task κ)}
    (hagenda : m₀.agenda = ((history ops).1.attach m₀.world.trees.size context).map .request ++ rest)
    (hreturns : m.agenda = rest) (hfirst : ∀ n ∈ ms, n.agenda ≠ rest)
    (hown : ∀ n ∈ ms, n.claims m₀.world.trees.size = true →
      n.agenda = .request (.attach m₀.world.trees.size context) :: rest) :
    let t := m₀.world.trees.size
    let initial := (history ops).2.live.filter (·.rule.runsIn .initial)
    let settle := (history ops).2.live.filter (·.rule.runsIn .settle)
    let actions := (initial ++ settle).map (·.rule.action)
    (∃ runs planting n, ms = m₀ :: (runs.flatten ++ planting) ∧
      Courses L (.request (.attach t context) :: rest) (L.step m₀)
        (actions.map fun a => .request (.perform a context)) runs n ∧
      Courses L rest n [.request (.attach t context)] [planting] m ∧
      List.Forall₂ (fun a run => Performs a context run) actions runs ∧
      ∀ q ∈ m₀ :: runs.flatten, q.world.subscriptionsOf t = []) ∧
    (initial.map (·.id)).Pairwise (· < ·) ∧ (settle.map (·.id)).Pairwise (· < ·) ∧
    m.world.isAttached t = true ∧
    ∀ e ∈ settle, ∀ x y, e.rule.action.evaluates m.world context = some x → m.world.commands[x]? = some y →
      y.takesArgument = false → y.enabled = (L.canRun m.toScene m.state x 0).1 := by
  intro t initial settle actions
  have hkept := history_kept ops
  obtain ⟨runs, planting, n, rfl, hruns, hlast, hplans⟩ := hpasses.phases
    (by rw [hagenda, hkept.attach_eq, List.cons_append]) hreturns hfirst
  have hupto : L.Passes m₀ (m₀ :: runs.flatten) n := .step hruns.passes
  -- nobody attaches the tree or gives it up before its turn
  have hclaims : ∀ q ∈ m₀ :: runs.flatten, q.claims t = false := by
    refine List.forall_mem_cons.mpr ⟨?_, fun q hq => ?_⟩
    · simp [Machine.claims, hagenda, hkept.attach_eq]
    · rw [Bool.eq_false_iff]
      exact fun hclaim => (hruns.busy q hq).ne (hown q (by simp [hq]) hclaim)
  obtain ⟨hwithout, hwithout'⟩ := hupto.without (h.without le_rfl) hclaims
  have hexists : ∀ q ∈ runs.flatten, q.world.hasObject context = true := fun q hq =>
    (hupto.resumes.outlives.2 q (by simp [hq])).1.hasObject hcontext
  -- what the second phase evaluates stays right
  have hphases := hruns
  simp only [List.map_append] at hphases
  obtain ⟨runs₁, runs₂, k, rfl, hfirst, hsecond⟩ := hphases.split
  have hupto' : L.Passes m₀ (m₀ :: runs₁.flatten) k := .step hfirst.passes
  have hhooks' : ∀ q ∈ m₀ :: (runs₁ ++ runs₂).flatten ++ past, q.hooks = false := fun q hq => hhooks q (by
    simp only [List.cons_append, List.mem_cons, List.mem_append] at hq ⊢
    tauto)
  obtain ⟨missed, hstable⟩ := hupto'.stable h (fun q hq => hhooks' q (by
    simp only [List.flatten_append, List.cons_append, List.mem_cons, List.mem_append] at hq ⊢
    tauto)) (hfirst.agenda.2 ▸ isBinding_head? _ context _ rest)
  obtain ⟨missed', hstable'⟩ := hupto.stable h hhooks' (hruns.agenda.2 ▸ isBinding_head? [] context _ rest)
  have hne : k ≠ m := fun heq => by
    have hlength := congrArg List.length (hfirst.agenda.2.symm.trans ((heq ▸ rfl : k.agenda = m.agenda).trans hreturns))
    simp at hlength
    omega
  have hmem : k ∈ runs₂.flatten ++ planting := by simpa using (hsecond.passes.trans hlast.passes).mem hne
  have hk : k ∈ m₀ :: ((runs₁ ++ runs₂).flatten ++ planting) := by
    simp only [List.flatten_append, List.mem_cons, List.mem_append] at hmem ⊢
    tauto
  obtain ⟨hattached, hright⟩ := hsecond.right hlast hstable.grown.sane (h.resume hupto'.resumes).shut
    (hupto'.resumes.outlives.1.hasObject hcontext) (history_settles ops hops).second (fun a ha x hx => by
      obtain ⟨e, he, rfl⟩ := List.mem_map.mp ha
      exact htests k hk e (List.mem_filter.mp he).1 x hx) hstable' hwithout' hplans
  have hascending : ∀ p : Entry (Action κ) → Bool, (((history ops).2.live.filter p).map (·.id)).Pairwise (· < ·) :=
    fun p =>
    hkept.ascending.sublist (List.filter_sublist.map _)
  refine ⟨⟨_, planting, n, rfl, hruns, hlast, hruns.performs hexists, fun q hq => (hwithout q hq).subscriptionsOf⟩,
    hascending _, hascending _, hattached, fun e he x y hx hy hplain => ?_⟩
  have hcan := hright e.rule.action (List.mem_map_of_mem he) x hx y hy hplain
  rwa [← hreturns] at hcan

/-! ### A command that is registered too early -/

/-- The command reads what a property binding sets that is registered after it. -/
def early : Binder String × Roster (Action String) :=
  history [.command waiting, .bind (copy "flag" "ready")]

/-- There is a context with a flag. -/
def flagged : List (Machine String Unit) × Machine String Unit :=
  fields.trail 1 [] (machine {} ([.newObject "context" [("flag", .bool true)] none []].map .request) ())

/-- The context is attached. -/
def attachingEarly : Machine String Unit :=
  machine flagged.2.world ((early.1.attach 0 0).map .request) ()

theorem attachingEarly_run : Run fields flagged.1 attachingEarly :=
  Run.ask (((Run.start ()).ask _ ()).trail 1) _ ()

def attachedEarly : List (Machine String Unit) × Machine String Unit :=
  fields.trail 21 [] attachingEarly

theorem fields_plain (condition : String) : fields.Plain condition :=
  ⟨fun _ _ _ => rfl, fun hread _ o _ => congrArg Value.isTrue (hread o condition)⟩

/-- Nothing but the first tree's attachment is left to do. -/
def isPlanting : List (Task String) → Bool
  | [.request (.attach t o)] => t = 0 && o = 0
  | _ => false

theorem eq_of_isPlanting {agenda : List (Task String)} (h : isPlanting agenda = true) :
    agenda = [.request (.attach 0 0)] := by
  unfold isPlanting at h
  split at h
  · simp only [Bool.and_eq_true, decide_eq_true_eq] at h
    obtain ⟨rfl, rfl⟩ := h
    rfl
  · cases h

/-- When the command is made, the context is not ready. When the call returns it is, and the
command has cached so. -/
theorem attach_settles_early : ∃ y, attachedEarly.2.world.commands[0]? = some y ∧ y.enabled = true ∧
    (fields.canRun attachedEarly.2.toScene () 0 0).1 = true ∧
      attachedEarly.1.any (fun n => n.world.commands[0]?.any fun y => !y.enabled) = true := by
  have hquiet : attachedEarly.1.all
      (fun n => !n.hooks && !n.agenda.isEmpty && (!n.claims 0 || isPlanting n.agenda)) = true := by
    decide +kernel
  have hall : ∀ n ∈ attachedEarly.1.reverse, n.hooks = false ∧ n.agenda ≠ [] ∧
      (n.claims 0 = true → n.agenda = [.request (.attach 0 0)]) := by
    intro n hn
    have hn := List.all_eq_true.mp hquiet n (List.mem_reverse.mp hn)
    simp only [Bool.and_eq_true, Bool.or_eq_true, Bool.not_eq_true'] at hn
    refine ⟨hn.1.1, fun hnil => ?_, fun hclaims => eq_of_isPlanting (hn.2.resolve_left (by simp [hclaims]))⟩
    simp [hnil] at hn
  have hpast : ∀ n ∈ flagged.1, n.hooks = false := by decide +kernel
  have hagenda : attachingEarly.agenda = (early.1.attach 0 0).map .request ++ [] := (List.append_nil _).symm
  obtain ⟨-, -, -, -, hright⟩ := attach_settles attachingEarly_run (fields.passes_trail 21 attachingEarly)
    (fun n hn => (List.mem_append.mp hn).elim (fun hn => (hall n hn).1) (hpast n))
    [.command waiting, .bind (copy "flag" "ready")] (by simp [Operation.Public])
    (fun _ _ _ _ _ _ _ b _ _ _ => fields_plain b.condition) (by decide +kernel) hagenda
    (List.isEmpty_iff.mp (by decide +kernel)) (fun n hn => (hall n hn).2.1) (fun n hn => (hall n hn).2.2)
  have hsettle : (⟨2, waiting.settleRule⟩ : Entry (Action String)) ∈
      (history [.command waiting, .bind (copy "flag" "ready")]).2.live.filter (·.rule.runsIn .settle) :=
    List.mem_filter.mpr ⟨List.mem_cons_of_mem _ (List.mem_cons_of_mem _ List.mem_cons_self), rfl⟩
  have hcan : (fields.canRun attachedEarly.2.toScene () 0 0).1 = true := by decide +kernel
  have hmade : attachedEarly.2.world.commands[0]?.map (·.takesArgument) = some false := by decide +kernel
  obtain ⟨y, hy, hplain⟩ := Option.map_eq_some_iff.mp hmade
  exact ⟨y, hy, (hright _ hsettle 0 y (by decide +kernel) hy hplain).trans hcan, hcan, by decide +kernel⟩

end LiveRules
