/-
# Commands that are evaluated one after the other

The condition of a command may have no side effects and read nothing but properties and the
members of collections. What it says is then the same whatever commands have cached, so
that commands can be evaluated one after the other: once the last one is evaluated, all of
them are.

A call that holds a context, and maybe what that is based on, keeps alive what one call that
holds the context does. So it does not matter how deep an evaluation is nested: each cached
result is what the condition says with nothing ahead but the end of one call.

Key definitions: `Language.Plain`, `World.Recached`, `World.Right`, `Language.evaluateAll`,
`Action.evaluates`.
Key theorems: `Run.shut`, `Language.right_evaluateAll`, `Action.Settles.passes`,
`Language.passes_evaluations`.
-/
import LiveRules.Proofs.Coherence.Planting
import LiveRules.Proofs.Derived.Alike
import LiveRules.Proofs.Machine.Alterations
import LiveRules.Proofs.Machine.Courses

namespace LiveRules

variable {κ σ : Type} {L : Language κ σ}

/-! ### Conditions -/

/-- The condition has no side effects, and reads properties and members of collections only. -/
structure Language.Plain (L : Language κ σ) (condition : κ) : Prop where
  state : ∀ o scene s, (L.test condition o 0 scene s).2 = s
  verdict : ∀ {scene scene' : Scene κ}, (∀ q p, scene'.world.read q p = scene.world.read q p) →
    (∀ c, scene'.world.itemsOf c = scene.world.itemsOf c) →
      ∀ o s, (L.test condition o 0 scene' s).1 = (L.test condition o 0 scene s).1

/-- The condition of the command is plain, if it has one. -/
def Language.TestsPlainly (L : Language κ σ) (g : World κ) (x : CommandId) : Prop :=
  ∀ y b o, g.commands[x]? = some y → y.bound = some (b, o) → L.Plain b.condition

namespace World

/-- Nothing that can be read differs, and commands differ in what they have cached only. -/
structure Recached (g g' : World κ) : Prop where
  read : ∀ o p, g'.read o p = g.read o p
  items : ∀ c, g'.itemsOf c = g.itemsOf c
  base : ∀ o, g'.baseOf o = g.baseOf o
  commands : ∀ x : CommandId, (g'.commands[x]?.map fun y => (y.takesArgument, y.bound)) =
    g.commands[x]?.map fun y => (y.takesArgument, y.bound)

namespace Recached

variable {g g' g'' : World κ}

theorem refl (g : World κ) : g.Recached g :=
  ⟨fun _ _ => rfl, fun _ => rfl, fun _ => rfl, fun _ => rfl⟩

theorem trans (h : g.Recached g') (h' : g'.Recached g'') : g.Recached g'' :=
  ⟨fun o p => (h'.read o p).trans (h.read o p), fun c => (h'.items c).trans (h.items c),
    fun o => (h'.base o).trans (h.base o), fun x => (h'.commands x).trans (h.commands x)⟩

theorem of_outline (h : g'.outline = g.outline) : g.Recached g' := by
  refine ⟨read_congr h, itemsOf_congr h, baseOf_congr h, fun x => ?_⟩
  have hcommands := congrArg (fun g => g.commands[x]?.map fun y => (y.takesArgument, y.bound)) h
  simpa [outline, Option.map_map, Function.comp_def] using hcommands

theorem bound (h : g.Recached g') (x : CommandId) :
    g'.commands[x]?.bind (·.bound) = g.commands[x]?.bind (·.bound) := by
  have hx := congrArg (Option.bind · Prod.snd) (h.commands x)
  simpa only [Option.bind_map, Function.comp_def] using hx

theorem takesArgument (h : g.Recached g') (x : CommandId) :
    g'.commands[x]?.map (·.takesArgument) = g.commands[x]?.map (·.takesArgument) := by
  have hx := congrArg (Option.map Prod.fst) (h.commands x)
  simpa only [Option.map_map, Function.comp_def] using hx

theorem commandIn (h : g.Recached g') (o : ObjectId) (p : String) (takesArgument : Bool) :
    g'.commandIn o p takesArgument = g.commandIn o p takesArgument := by
  unfold World.commandIn
  simp only [h.read, h.takesArgument]

end Recached

end World

/-- Whether a command can execute does not depend on what is cached. -/
theorem Language.canRun_recached {g g' : World κ} (h : g.Recached g') {x : CommandId} (htests : L.TestsPlainly g x)
    {agenda agenda' : List (Task κ)}
    (halive : ∀ o, Scene.alive { world := g', agenda := agenda' } o = Scene.alive { world := g, agenda } o) (s : σ) :
    L.canRun { world := g', agenda := agenda' } s x 0 = L.canRun { world := g, agenda } s x 0 := by
  unfold Language.canRun
  rw [h.bound x]
  cases hbound : g.commands[x]?.bind (·.bound) with
  | none => rfl
  | some bound =>
    obtain ⟨b, o⟩ := bound
    obtain ⟨y, hy, hb⟩ := Option.bind_eq_some_iff.mp hbound
    have hplain : L.Plain b.condition := htests y b o hy hb
    simp only [halive]
    split
    · refine Prod.ext (hplain.verdict h.read h.items o s) ?_
      rw [hplain.state, hplain.state]
    · rfl

/-- Evaluating a command leaves the client's state. -/
theorem Language.canRun_state {g : World κ} {x : CommandId} (htests : L.TestsPlainly g x) (agenda : List (Task κ))
    (s : σ) : (L.canRun { world := g, agenda } s x 0).2 = s := by
  unfold Language.canRun
  split
  · rfl
  · rename_i b o hbound
    obtain ⟨y, hy, hb⟩ := Option.bind_eq_some_iff.mp hbound
    split
    · exact (htests y b o hy hb).state o _ s
    · rfl

theorem Language.TestsPlainly.recached {g g' : World κ} {x : CommandId} (htests : L.TestsPlainly g x)
    (h : g.Recached g') : L.TestsPlainly g' x := by
  intro y b o hy hb
  have hbound : g.commands[x]?.bind (·.bound) = some (b, o) := by
    rw [← h.bound, hy]
    exact hb
  obtain ⟨z, hz, hb'⟩ := Option.bind_eq_some_iff.mp hbound
  exact htests z b o hz hb'

/-! ### Commands that are bound to nothing -/

/-- What is bound to nothing is not enabled. -/
def World.Shut (g : World κ) : Prop :=
  ∀ (x : CommandId) y, g.commands[x]? = some y → y.bound = none → y.enabled = false

namespace World.Shut

variable {g g' : World κ} (h : g.Shut)

include h

theorem of_commands (hcommands : g'.commands = g.commands) : g'.Shut := by
  unfold World.Shut
  rwa [hcommands]

theorem of_watches (hwatches : g.Watches g') : g'.Shut := by
  intro x y hy hbound
  have hcommands := congrArg (fun g => g.commands[x]?) hwatches.1
  simp only [World.outline, Array.getElem?_map, hy, Option.map_some] at hcommands
  obtain ⟨z, hz, heq⟩ := Option.map_eq_some_iff.mp hcommands.symm
  simp only [Command.mk.injEq] at heq
  exact heq.2.2.1 ▸ h x z hz (heq.2.1.trans hbound)

theorem push {x : Command κ} (hx : x.bound = none → x.enabled = false) :
    World.Shut { g with commands := g.commands.push x } := by
  intro i y hy
  rw [Array.getElem?_push] at hy
  split at hy
  · cases hy
    exact hx
  · exact h i y hy

theorem settle (L : Language κ σ) (agenda : List (Task κ)) (s : σ) (x : CommandId) :
    (L.settle { world := g, agenda } s x).1.Shut := by
  unfold Language.settle
  simp only
  split
  · rename_i y hy
    split
    · rename_i hself
      intro i z hz hbound
      simp only [World.modifyCommand, Array.getElem?_modify] at hz
      split at hz
      · rename_i hxi
        subst hxi
        rw [hy] at hz
        cases hz
        simp only at hbound
        simp [Command.selfEvaluating, hbound] at hself
      · exact h i z hz hbound
    · exact h
  · exact h

theorem refresh (L : Language κ σ) (agenda : List (Task κ)) (s : σ) (x : CommandId) :
    (L.refresh { world := g, agenda } s x).world.Shut := by
  have hsettle := h.settle L agenda s x
  unfold Language.settle at hsettle
  unfold Language.refresh
  simp only at hsettle ⊢
  split
  · split
    · rename_i hy hself
      simpa only [hy, hself, if_true] using hsettle
    · exact h
  · exact h

theorem set (o : ObjectId) (p : String) (v : Value) : (g.set o p v).1.Shut := by
  unfold World.set
  split
  · exact h
  · exact h.of_commands rfl

theorem perform (L : Language κ σ) (agenda : List (Task κ)) (s : σ) (a : Action κ) (o : ObjectId) :
    (L.perform { world := g, agenda } s a o).world.Shut := by
  cases a <;> simp only [Language.perform]
  case assign =>
    split
    · exact h.set _ _ _
    · exact h
  case create binding target =>
    exact ((h.push (by simp)).settle L agenda s g.commands.size).set _ _ _
  case refresh =>
    split
    · exact h.refresh L agenda s _
    · exact h
  case settle =>
    split
    · exact h.settle L agenda s _
    · exact h
  all_goals exact h

theorem grant (rest : List (Task κ)) (r : Request κ) : (g.grant rest r).1.Shut := by
  cases r
  case attach | dispose | drop => exact h.of_watches (g.grant_watches rest rfl)
  all_goals simp only [World.grant]
  case newCommand => exact (h.push fun _ => rfl).of_commands rfl
  case unsubscribe s id =>
    split
    · exact h.of_watches (g.unsubscribe_watches s id)
    · exact h
  case unsubscribeChanges c id =>
    split
    · exact h.of_watches (g.unsubscribeChanges_watches c id)
    · exact h
  all_goals
    repeat' split
    all_goals exact h.of_commands rfl

theorem carry (L : Language κ σ) (s : σ) (u : Task κ) (rest : List (Task κ)) : (L.carry g s u rest).world.Shut := by
  cases u with
  | request r =>
    cases r with
    | call k signal => exact h
    | _ => exact h.grant rest _
  | perform a o => exact h.perform L (.perform a o :: rest) s a o
  | subscribe subject p l r =>
    simp only [Language.carry, World.subscribe]
    split
    · split
      · rename_i hhook
        obtain ⟨i, rfl⟩ := World.takeHook_eq hhook
        exact h.of_commands rfl
      · exact h
    · exact h
  | _ => exact h.of_watches (L.carry_watches g s rfl rest)

end World.Shut

/-- **In every run** what is bound to nothing is not enabled. -/
theorem Run.shut {past : List (Machine κ σ)} {m : Machine κ σ} (h : Run L past m) : m.world.Shut := by
  induction h with
  | start s => intro x y hy; simp [machine] at hy
  | ask _ requests s' ih => exact ih
  | @step past m _ ih =>
    obtain ⟨⟨g, agenda⟩, s⟩ := m
    cases agenda with
    | nil => exact ih
    | cons u rest => exact ih.carry L s u rest

/-! ### Evaluations -/

/-- If the command takes no argument, it has cached whether it can execute, with `agenda` ahead. -/
def World.Right (L : Language κ σ) (agenda : List (Task κ)) (s : σ) (g : World κ) (x : CommandId) : Prop :=
  ∀ y, g.commands[x]? = some y → y.takesArgument = false → y.enabled = (L.canRun { world := g, agenda } s x 0).1

/-- The commands are evaluated one after the other, with `agenda` ahead. -/
def Language.evaluateAll (L : Language κ σ) (agenda : List (Task κ)) (s : σ) (g : World κ) (xs : List CommandId) :
    World κ :=
  xs.foldl (fun g x => (L.settle { world := g, agenda } s x).1) g

section

variable {agenda : List (Task κ)} {s : σ} {g : World κ}

theorem Language.getElem?_settle (L : Language κ σ) (agenda : List (Task κ)) (s : σ) (g : World κ) (x i : CommandId) :
    (L.settle { world := g, agenda } s x).1.commands[i]? =
      if x = i then g.commands[i]?.map fun y =>
        if y.selfEvaluating then { y with enabled := (L.canRun { world := g, agenda } s x 0).1 } else y
      else g.commands[i]? := by
  unfold Language.settle
  simp only
  split
  · rename_i y hy
    split
    · rename_i hself
      simp only [World.modifyCommand, Array.getElem?_modify]
      split
      · rename_i hxi
        subst hxi
        simp [hy, hself]
      · rfl
    · rename_i hself
      split
      · rename_i hxi
        subst hxi
        simp [hy, hself]
      · rfl
  · rename_i hx
    split
    · rename_i hxi
      subst hxi
      simp [hx]
    · rfl

theorem Language.recached_settle (L : Language κ σ) (agenda : List (Task κ)) (s : σ) (g : World κ) (x : CommandId) :
    g.Recached (L.settle { world := g, agenda } s x).1 := by
  have hsame := L.getElem?_settle agenda s g x
  obtain ⟨commands, hsettle⟩ := L.settle_commands { world := g, agenda } s x
  rw [hsettle] at hsame ⊢
  refine ⟨g.read_commands commands, fun _ => rfl, fun _ => rfl, fun i => ?_⟩
  rw [hsame]
  split
  · rw [Option.map_map]
    refine Option.map_congr fun y _ => ?_
    simp only [Function.comp_apply]
    split <;> rfl
  · rfl

theorem Language.alive_settle (L : Language κ σ) (agenda : List (Task κ)) (s : σ) (g : World κ) (x : CommandId)
    (agenda' : List (Task κ)) (o : ObjectId) :
    Scene.alive { world := (L.settle { world := g, agenda } s x).1, agenda := agenda' } o =
      Scene.alive { world := g, agenda := agenda' } o := by
  obtain ⟨commands, hsettle⟩ := L.settle_commands { world := g, agenda } s x
  rw [hsettle]
  exact g.alive_commands commands agenda' o

variable {z : CommandId} (htests : L.TestsPlainly g z)

include htests

theorem Language.canRun_settle (x : CommandId) :
    L.canRun { world := (L.settle { world := g, agenda } s x).1, agenda } s z 0 =
      L.canRun { world := g, agenda } s z 0 :=
  L.canRun_recached (L.recached_settle agenda s g x) htests (L.alive_settle agenda s g x agenda) s

/-- A command that is evaluated is right. -/
theorem Language.right_settle (hshut : g.Shut) : (L.settle { world := g, agenda } s z).1.Right L agenda s z := by
  intro y hy hplain
  rw [L.canRun_settle htests]
  rw [L.getElem?_settle, if_pos rfl] at hy
  obtain ⟨w, hw, rfl⟩ := Option.map_eq_some_iff.mp hy
  cases hself : w.selfEvaluating with
  | true => simp
  | false =>
    simp only [hself, Bool.false_eq_true, if_false] at hplain ⊢
    have hbound : w.bound = none := by simpa [Command.selfEvaluating, hplain] using hself
    simp [hshut z w hw hbound, Language.canRun, hw, hbound]

/-- And it stays right whatever else is evaluated. -/
theorem World.Right.settle (h : g.Right L agenda s z) (hshut : g.Shut) (x : CommandId) :
    (L.settle { world := g, agenda } s x).1.Right L agenda s z := by
  by_cases hxz : x = z
  · subst hxz
    exact L.right_settle htests hshut
  · intro y hy hplain
    rw [L.getElem?_settle, if_neg hxz] at hy
    rw [L.canRun_settle htests]
    exact h y hy hplain

end

/-- What evaluations leave. -/
theorem Language.recached_evaluateAll (L : Language κ σ) (agenda : List (Task κ)) (s : σ) (g : World κ)
    (xs : List CommandId) : g.Recached (L.evaluateAll agenda s g xs) := by
  induction xs generalizing g with
  | nil => exact .refl g
  | cons x xs ih => exact (L.recached_settle agenda s g x).trans (ih _)

/-- **Commands that are evaluated one after the other** are all right in the end. -/
theorem Language.right_evaluateAll {agenda : List (Task κ)} {s : σ} {g : World κ} {z : CommandId}
    (htests : L.TestsPlainly g z)
    (hshut : g.Shut) {xs : List CommandId} (hz : z ∈ xs ∨ g.Right L agenda s z) :
    (L.evaluateAll agenda s g xs).Right L agenda s z := by
  induction xs generalizing g with
  | nil => exact hz.resolve_left (by simp)
  | cons x xs ih =>
    refine ih (htests.recached (L.recached_settle agenda s g x)) (hshut.settle L agenda s x) ?_
    rcases hz with hz | hright
    · rcases List.mem_cons.mp hz with rfl | hz
      · exact Or.inr (L.right_settle htests hshut)
      · exact Or.inl hz
    · exact Or.inr (hright.settle htests hshut x)

/-! ### Actions that evaluate -/

/-- The command that an action evaluates for an object. -/
def Action.evaluates (g : World κ) : Action κ → ObjectId → Option CommandId
  | .settle takesArgument target, o => g.commandIn o target takesArgument
  | .onBase inner, o => inner.evaluates g ((g.baseOf o).getD o)
  | _, _ => none

theorem World.Recached.evaluates {g g' : World κ} (h : g.Recached g') (a : Action κ) (o : ObjectId) :
    a.evaluates g' o = a.evaluates g o := by
  induction a generalizing o with
  | settle takesArgument target => exact h.commandIn o target takesArgument
  | onBase inner ih =>
    unfold Action.evaluates
    rw [h.base, ih]
  | _ => rfl

theorem World.Sane.base_mem_lineage {g : World κ} (hg : g.Sane) {o q : ObjectId} (hq : q ∈ g.lineage o) :
    (g.baseOf q).getD q ∈ g.lineage o := by
  cases hbase : g.baseOf q with
  | none => simpa using hq
  | some b =>
    induction o using Nat.strong_induction_on with
    | _ o ih =>
      rw [hg.lineage_eq o, List.mem_cons] at hq ⊢
      rcases hq with rfl | hq
      · refine Or.inr ?_
        rw [hbase]
        show b ∈ g.lineage b
        rw [hg.lineage_eq b]
        exact List.mem_cons_self
      · cases hobase : g.baseOf o with
        | none => simp [hobase] at hq
        | some d =>
          rw [hobase] at hq
          exact Or.inr (ih d (hg.older o d hobase) hq)

section

variable {g : World κ} {context : ObjectId} (s : σ) (rest : List (Task κ)) (hg : g.Sane)
  (hcontext : g.hasObject context = true)

include hg hcontext

/-- Nested in calls on the context, a command is evaluated as at the end of one. -/
theorem Language.settle_ahead {x : CommandId} (htests : L.TestsPlainly g x) {front : List (Task κ)}
    (hmem : .release (.value (.object context)) ∈ front)
    (hfront : ∀ u ∈ front, ∀ x ∈ u.held, ∃ o ∈ g.lineage context, x = .value (.object o)) :
    L.settle { world := g, agenda := front ++ rest } s x =
      ((L.settle { world := g, agenda := .release (.value (.object context)) :: rest } s x).1, s) := by
  have hsame : L.canRun { world := g, agenda := front ++ rest } s x 0 =
      L.canRun { world := g, agenda := .release (.value (.object context)) :: rest } s x 0 :=
    L.canRun_recached (.refl g) htests (g.alive_ahead hg hcontext hmem hfront) s
  have hstate := L.canRun_state htests (.release (.value (.object context)) :: rest) s
  unfold Language.settle
  simp only [hsame]
  split
  · split
    · exact Prod.ext rfl hstate
    · rfl
  · rfl

/-- **An action that evaluates** does so, and then what was behind it goes on. -/
theorem Action.Settles.passes {a : Action κ} (ha : a.Settles) {o : ObjectId} (ho : o ∈ g.lineage context)
    (htests : ∀ x, a.evaluates g o = some x → L.TestsPlainly g x) {front : List (Task κ)}
    (hmem : .release (.value (.object context)) ∈ front)
    (hfront : ∀ u ∈ front, ∀ x ∈ u.held, ∃ o ∈ g.lineage context, x = .value (.object o)) :
    ∃ ms, L.Passes (machine g (.perform a o :: (front ++ rest)) s) ms
        (machine (L.evaluateAll (.release (.value (.object context)) :: rest) s g (a.evaluates g o).toList)
          (front ++ rest) s) ∧
      ∀ q ∈ ms, q.Busy (front ++ rest) := by
  induction ha generalizing o front with
  | settle takesArgument target =>
    refine ⟨[_], .step ?_, ?_⟩
    · have hstep : L.step (machine g (.perform (.settle takesArgument target) o :: (front ++ rest)) s) =
          machine (L.evaluateAll (.release (.value (.object context)) :: rest) s g
            ((Action.settle takesArgument target).evaluates g o).toList) (front ++ rest) s := by
        have hfront' : ∀ u ∈ .perform (.settle takesArgument target) o :: front, ∀ x ∈ u.held,
            ∃ o ∈ g.lineage context, x = .value (.object o) := List.forall_mem_cons.mpr ⟨by simp [Task.held], hfront⟩
        unfold Language.step
        simp only [machine, Language.carry, Language.perform, Action.evaluates]
        cases hx : g.commandIn o target takesArgument with
        | none => rfl
        | some x =>
          have hahead := L.settle_ahead s rest hg hcontext (htests x hx) (List.mem_cons_of_mem _ hmem) hfront'
          rw [List.cons_append] at hahead
          simp only [hahead]
          rfl
      rw [hstep]
      exact .done _
    · exact List.forall_mem_singleton.mpr (Machine.busy_of_cons [] rfl)
  | @onBase inner _ ih =>
    set base := (g.baseOf o).getD o with hbase
    have hbmem : base ∈ g.lineage context := hg.base_mem_lineage ho
    obtain ⟨ms, hpasses, hbusy⟩ := ih hbmem htests (List.mem_cons_of_mem (.release (.value (.object base))) hmem)
      (List.forall_mem_cons.mpr ⟨fun x hx => ⟨base, hbmem, by simpa [Task.held] using hx⟩, hfront⟩)
    have hstart : L.step (machine g (.perform (.onBase inner) o :: (front ++ rest)) s) =
        machine g (.perform inner base :: (.release (.value (.object base)) :: front ++ rest)) s := rfl
    refine ⟨machine g (.perform (.onBase inner) o :: (front ++ rest)) s :: ms ++ [_],
      (Language.Passes.step (hstart ▸ hpasses)).trans (.step (.done _)), ?_⟩
    intro q hq
    simp only [List.cons_append, List.mem_cons, List.mem_append, List.not_mem_nil, or_false] at hq
    rcases hq with rfl | hq | rfl
    · exact Machine.busy_of_cons [] rfl
    · exact (hbusy q hq).before [.release (.value (.object base))]
    · exact Machine.busy_of_cons [] rfl

/-- **A call that evaluates** holds the object, evaluates and is over. -/
theorem Action.Settles.passes_call {a : Action κ} (ha : a.Settles)
    (htests : ∀ x, a.evaluates g context = some x → L.TestsPlainly g x) {front : List (Task κ)}
    (hfront : ∀ u ∈ front, u.held = []) :
    ∃ ms, L.Passes (machine g (.request (.perform a context) :: (front ++ rest)) s) ms
        (machine (L.evaluateAll (.release (.value (.object context)) :: rest) s g (a.evaluates g context).toList)
          (front ++ rest) s) ∧
      ∀ q ∈ ms, q.Busy (front ++ rest) := by
  set g' := L.evaluateAll (.release (.value (.object context)) :: rest) s g (a.evaluates g context).toList with hg'
  have hself : context ∈ g.lineage context := by
    rw [hg.lineage_eq context]
    exact List.mem_cons_self
  have hheld : ∀ u ∈ .release (.value (.object context)) :: front, ∀ x ∈ u.held,
      ∃ o ∈ g.lineage context, x = .value (.object o) := by
    refine List.forall_mem_cons.mpr ⟨fun x hx => ⟨context, hself, by simpa [Task.held] using hx⟩, fun u hu x hx => ?_⟩
    rw [hfront u hu] at hx
    cases hx
  obtain ⟨ms, hpasses, hbusy⟩ := ha.passes s rest hg hcontext hself htests List.mem_cons_self hheld
  have hasked : L.step (machine g (.request (.perform a context) :: (front ++ rest)) s) =
      machine g (.perform a context :: (.release (.value (.object context)) :: front ++ rest)) s := by
    simp [Language.step, machine, Language.carry, World.grant, hcontext]
  have hended : L.step (machine g' (.release (.value (.object context)) :: front ++ rest) s) =
      machine g' (front ++ rest) s := rfl
  refine ⟨_ :: (ms ++ [_]), .step ((hasked ▸ hpasses).trans (.step (hended ▸ .done _))), ?_⟩
  intro q hq
  simp only [List.mem_cons, List.mem_append, List.not_mem_nil, or_false] at hq
  rcases hq with rfl | hq | rfl
  · exact Machine.busy_of_cons [] rfl
  · exact (hbusy q hq).before [.release (.value (.object context))]
  · exact Machine.busy_of_cons [] rfl

end

theorem Language.evaluateAll_objects (L : Language κ σ) (agenda : List (Task κ)) (s : σ) (g : World κ)
    (xs : List CommandId) : ∃ commands, L.evaluateAll agenda s g xs = { g with commands } := by
  induction xs generalizing g with
  | nil => exact ⟨g.commands, rfl⟩
  | cons x xs ih =>
    obtain ⟨commands, hsettle⟩ := L.settle_commands { world := g, agenda } s x
    obtain ⟨commands', hxs⟩ := ih (L.settle { world := g, agenda } s x).1
    refine ⟨commands', ?_⟩
    show L.evaluateAll agenda s (L.settle { world := g, agenda } s x).1 xs = _
    rw [hxs, hsettle]

theorem Language.hasObject_evaluateAll (L : Language κ σ) (agenda : List (Task κ)) (s : σ) (g : World κ)
    (xs : List CommandId) (o : ObjectId) : (L.evaluateAll agenda s g xs).hasObject o = g.hasObject o := by
  obtain ⟨commands, hcommands⟩ := L.evaluateAll_objects agenda s g xs
  rw [hcommands]
  rfl

theorem Language.sane_evaluateAll (L : Language κ σ) {g : World κ} (hg : g.Sane) (agenda : List (Task κ)) (s : σ)
    (xs : List CommandId) : (L.evaluateAll agenda s g xs).Sane := by
  induction xs generalizing g with
  | nil => exact hg
  | cons x xs ih => exact ih ((L.altered_settle { world := g, agenda } s x).sane hg)

/-- **Evaluations that are asked for** on an object are carried out one after the other. -/
theorem Language.passes_evaluations {g : World κ} (hg : g.Sane) {context : ObjectId}
    (hcontext : g.hasObject context = true) {actions : List (Action κ)} (hactions : ∀ a ∈ actions, a.Settles)
    (htests : ∀ a ∈ actions, ∀ x, a.evaluates g context = some x → L.TestsPlainly g x) {front : List (Task κ)}
    (hfront : ∀ u ∈ front, u.held = []) (rest : List (Task κ)) (s : σ) :
    ∃ ms, L.Passes (machine g (actions.map (fun a => .request (.perform a context)) ++ (front ++ rest)) s) ms
        (machine (L.evaluateAll (.release (.value (.object context)) :: rest) s g
          (actions.filterMap fun a => a.evaluates g context)) (front ++ rest) s) ∧
      ∀ q ∈ ms, q.Busy (front ++ rest) := by
  induction actions generalizing g with
  | nil => exact ⟨[], .done _, by simp⟩
  | cons a actions ih =>
    set ref : List (Task κ) := .release (.value (.object context)) :: rest with href
    set behind : List (Task κ) := actions.map fun a => .request (.perform a context) with hbehind
    set g' := L.evaluateAll ref s g (a.evaluates g context).toList with hg'
    have hrecached : g.Recached g' := L.recached_evaluateAll ref s g _
    have hnone : ∀ u ∈ behind ++ front, u.held = [] := by
      refine List.forall_mem_append.mpr ⟨fun u hu => ?_, hfront⟩
      obtain ⟨b, -, rfl⟩ := List.mem_map.mp hu
      rfl
    obtain ⟨course, hpasses, hbusy⟩ := (hactions a List.mem_cons_self).passes_call s rest hg hcontext
      (htests a List.mem_cons_self) hnone
    rw [List.append_assoc] at hpasses hbusy
    obtain ⟨ms, hms, hbusy'⟩ :=
      ih (g := g') (L.sane_evaluateAll hg ref s _) ((L.hasObject_evaluateAll _ _ _ _ _).trans hcontext)
      (fun b hb => hactions b (List.mem_cons_of_mem _ hb)) fun b hb x hx =>
        (htests b (List.mem_cons_of_mem _ hb) x ((hrecached.evaluates b context).symm.trans hx)).recached hrecached
    have hxs : L.evaluateAll ref s g' (actions.filterMap fun a => a.evaluates g' context) =
        L.evaluateAll ref s g ((a :: actions).filterMap fun a => a.evaluates g context) := by
      have hsame : (fun a : Action κ => a.evaluates g' context) = fun a => a.evaluates g context :=
        funext fun a => hrecached.evaluates a context
      rw [hsame, hg']
      unfold Language.evaluateAll
      rw [← List.foldl_append, List.filterMap_cons]
      cases a.evaluates g context <;> rfl
    rw [hxs] at hms
    exact ⟨course ++ ms, hpasses.trans hms, List.forall_mem_append.mpr ⟨fun q hq => (hbusy q hq).before behind, hbusy'⟩⟩

end LiveRules
