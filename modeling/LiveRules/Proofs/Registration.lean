/-
# Registering a rule: all or nothing

A registration changes five tables: the graph, the ids handed out, the list of the
rule's key, the actions, and what runs on attach. They change one after another, and
the rules that are replaced have to be gone before the new paths go in, since these
may only be allowed without them. `Registry.register` makes the changes in place, in
that order, on a registry and a graph that keep what was done when it fails. It never
fails halfway: the graph is tried out on a copy first, and once the copy holds all
paths nothing can go wrong any more. So it is `Registry.add`, which answers with new
tables or an error.

A rule is refused for the error it carries, or for the first of its paths that clashes
with the rules that stay or with a path before it. A refusal leaves no trace in
anything a binder is asked or told later.

Key definitions: `Registry.register`, `Roster.UsesWithout`.
Key theorems: `Registry.register_eq`, `Kept.add_eq_error`, `registration_all_or_nothing`.
-/
import LiveRules.Proofs.Graph.Clash

namespace LiveRules

/-! ### In place -/

namespace Registry

variable {α β γ : Type}

/-- Changes to a registry and a graph that stay when an error ends them. -/
abbrev InPlace (α : Type) := ExceptT Error (StateM (Registry α × Graph))

/-- The outcome, and the registry and the graph as they are left. -/
def InPlace.outcome (x : InPlace α β) (s : Registry α × Graph) : Except Error β × Registry α × Graph :=
  x.run.run s

/-- A registration, one change after another. -/
def register (rule : Rule α) : InPlace α ActionId := do
  let paths ← rule.triggers
  let (r, g) ← get
  let a := r.nextId
  let superseded := r.superseded rule
  let mut staged := g
  for old in superseded do
    staged := staged.erase old
  staged ← staged.insert paths a
  modify fun s => (s.1, staged)
  modify fun s => ({ s.1 with nextId := s.1.nextId + 1 }, s.2)
  for old in superseded do
    modify fun s => (s.1.forget old, s.2)
  modify fun s => (s.1.enterKey rule superseded a, s.2)
  modify fun s => (s.1.enterAction rule a, s.2)
  return a

namespace InPlace

variable (s : Registry α × Graph)

theorem outcome_bind (x : InPlace α β) (f : β → InPlace α γ) :
    (x >>= f).outcome s =
      match x.outcome s with
      | (.ok b, s') => (f b).outcome s'
      | (.error e, s') => (.error e, s') := by
  unfold outcome
  rw [ExceptT.run_bind, StateT.run_bind]
  rcases h : x.run.run s with ⟨_ | b, s'⟩ <;> rfl

theorem outcome_pure (b : β) : (pure b : InPlace α β).outcome s = (.ok b, s) := rfl

theorem outcome_lift (x : Except Error β) : (liftM x : InPlace α β).outcome s = (x, s) := rfl

theorem outcome_get : (get : InPlace α (Registry α × Graph)).outcome s = (.ok s, s) := rfl

theorem outcome_modify (f : Registry α × Graph → Registry α × Graph) :
    (modify f : InPlace α PUnit).outcome s = (.ok PUnit.unit, f s) := rfl

theorem outcome_forget (old : List ActionId) (r : Registry α) (g : Graph) :
    (forIn old PUnit.unit fun b _ => do
        modify fun s => (s.1.forget b, s.2)
        pure (ForInStep.yield PUnit.unit) : InPlace α PUnit).outcome (r, g) =
      (.ok PUnit.unit, old.foldl forget r, g) := by
  induction old generalizing r with
  | nil => rfl
  | cons b old ih =>
    rw [List.forIn_cons]
    exact ih (r.forget b)

end InPlace

/-- **In place** a registration does what `add` says, and nothing if that fails. -/
theorem register_eq (rule : Rule α) (r : Registry α) (g : Graph) :
    (register rule).outcome (r, g) =
      match r.add g rule with
      | .ok (a, r', g') => (.ok a, r', g')
      | .error e => (.error e, r, g) := by
  unfold register add
  cases ht : rule.triggers with
  | error e => rfl
  | ok paths =>
    have hstaged : (r.superseded rule).foldl (fun g a => g.erase a) g = g.eraseAll (r.superseded rule) := rfl
    simp only [InPlace.outcome_bind, InPlace.outcome_lift, InPlace.outcome_get, List.forIn_pure_yield_eq_foldl,
      pure_bind, hstaged]
    cases hg : (g.eraseAll (r.superseded rule)).insert paths r.nextId with
    | error e =>
      simp only [bind, Except.bind, hg]
    | ok g' =>
      simp only [InPlace.outcome_modify, InPlace.outcome_forget, InPlace.outcome_pure]
      simp only [bind, Except.bind, hg, pure, Except.pure]

end Registry

/-! ### What is refused -/

/-- A live rule that stays when `rule` is registered has a path that begins with `v`. -/
def Roster.UsesWithout {α : Type} (L : Roster α) (rule : Rule α) (v : List Label) : Prop :=
  ∃ e ∈ L.live, rule.replaces e.rule = false ∧ e.rule.passes v = true

variable {κ : Type} {b : Binder κ} {L : Roster (Action κ)}

/-- What stays in use without the rules that are replaced. -/
theorem Kept.uses_without (h : Kept b L) (rule : Rule (Action κ)) :
    (b.graph.eraseAll (L.idsOf fun r => rule.replaces r)).Uses = L.UsesWithout rule := by
  funext v
  apply propext
  unfold Graph.Uses Roster.UsesWithout
  simp only [Graph.actionsAt_eraseAll h.sound, h.graph, h.idsOf_filter _ L.issued, Rule.passes_iff]
  constructor
  · rintro ⟨q, hq, hpre⟩
    obtain ⟨a, ha⟩ := List.exists_mem_of_ne_nil _ hq
    obtain ⟨e, he, hw, -⟩ := Roster.mem_idsOf.mp ha
    obtain ⟨hlive, hstays⟩ := List.mem_filter.mp he
    exact ⟨e, hlive, by simpa using hstays, q, hw, hpre⟩
  · rintro ⟨e, hlive, hstays, q, hw, hpre⟩
    have he : e ∈ L.live.filter fun e => !rule.replaces e.rule := List.mem_filter.mpr ⟨hlive, by simp [hstays]⟩
    exact ⟨q, List.ne_nil_of_mem (Roster.mem_idsOf.mpr ⟨e, he, hw, rfl⟩), hpre⟩

/-- A rule is refused for its own error, or because its paths do not go into what is
left of the graph without the rules it replaces. -/
theorem Kept.add_eq_error (h : Kept b L) {rule : Rule (Action κ)} {e : Error} :
    b.add rule = .error e ↔
      rule.triggers = .error e ∨
        ∃ paths, rule.triggers = .ok paths ∧
          (b.graph.eraseAll (L.idsOf fun r => rule.replaces r)).insert paths L.fresh = .error e := by
  unfold Binder.add Registry.add
  rw [h.superseded, h.next]
  cases ht : rule.triggers with
  | error e' => simp [bind, Except.bind]
  | ok paths =>
    cases hg : (b.graph.eraseAll (L.idsOf fun r => rule.replaces r)).insert paths L.fresh with
    | error e' => simp [hg, bind, Except.bind]
    | ok g => simp [hg, bind, Except.bind, pure, Except.pure]

section

variable {rule : Rule (Action κ)} {key : String}

theorem after_add_of_error {e : Error} (h : b.add (rule.withKey key) = .error e) :
    b.after (.add rule key) = b ∧ L.after b (.add rule key) = L := by
  simp [Binder.after, Roster.after, h, Except.isOk, Except.toBool]

theorem after_add_of_ok {a : ActionId} {b' : Binder κ} (h : b.add (rule.withKey key) = .ok (a, b')) :
    b.after (.add rule key) = b' ∧ L.after b (.add rule key) = L.add (rule.withKey key) := by
  simp [Binder.after, Roster.after, h, Except.isOk, Except.toBool]

theorem history_append_cons (ops later : List (Operation κ)) (op : Operation κ) :
    history (ops ++ op :: later) =
      later.foldl (fun s op => (s.1.after op, s.2.after s.1 op))
        ((history ops).1.after op, (history ops).2.after (history ops).1 op) := by
  unfold history
  rw [List.foldl_append]
  rfl

end

/-- **All or nothing.** Whatever operations have been made, a rule is refused exactly
if its triggers carry an error, which is the one returned, or its paths, in order, do
not go into the graph that is left without the actions it replaces. The latter happens
exactly if one of them, the first, leaves a property by another kind of step than a
path before it or a path of a rule that stays, and that property is reported: what
only the replaced rules used can be reshaped. After a refusal the registry and the
graph are what they were, and every later history is what it would be without the
attempt. Otherwise the rule has the next id, and is on the roster in place of those it
replaces. -/
theorem registration_all_or_nothing (ops : List (Operation κ)) (rule : Rule (Action κ)) (key : String) :
    let b := (history ops).1
    let L := (history ops).2
    let new := rule.withKey key
    let left := b.graph.eraseAll (L.idsOf fun r => new.replaces r)
    let out := (Registry.register new).outcome (b.registry, b.graph)
    (∀ e, out.1 = .error e ↔
      new.triggers = .error e ∨ ∃ paths, new.triggers = .ok paths ∧ left.insert paths L.fresh = .error e) ∧
    (∀ paths e, left.insert paths L.fresh = .error e ↔
      ∃ n, e = .shapeConflict n ∧ FirstClash n (L.UsesWithout new) paths) ∧
    (∀ e, out.1 = .error e → out.2 = (b.registry, b.graph) ∧
      ∀ later, history (ops ++ .add rule key :: later) = history (ops ++ later)) ∧
    ∀ a, out.1 = .ok a →
      a = L.fresh ∧ history (ops ++ [.add rule key]) = ({ registry := out.2.1, graph := out.2.2 }, L.add new) := by
  intro b L new left out
  have hk : Kept b L := history_kept ops
  have hout : (∀ e, b.add new = .error e → out = (.error e, b.registry, b.graph)) ∧
      ∀ r, b.add new = .ok r → out = (.ok r.1, r.2.registry, r.2.graph) := by
    show (∀ e, b.add new = .error e → (Registry.register new).outcome (b.registry, b.graph) = _) ∧
      ∀ r, b.add new = .ok r → (Registry.register new).outcome (b.registry, b.graph) = _
    rw [Registry.register_eq, Binder.add]
    cases b.registry.add b.graph new <;> refine ⟨fun e he => ?_, fun r hr => ?_⟩
    · cases he
      rfl
    · cases hr
    · cases he
    · cases hr
      rfl
  obtain ⟨hrefused, hadded⟩ := hout
  refine ⟨fun e => ?_, fun paths e => ?_, fun e he => ?_, fun a ha => ?_⟩
  · have hsame : out.1 = .error e ↔ b.add new = .error e := by
      cases hadd : b.add new with
      | error e' => simp [hrefused e' hadd]
      | ok r => simp [hadded r hadd]
    exact hsame.trans hk.add_eq_error
  · rw [((history_built ops).eraseAll _).insert_eq_error, hk.uses_without]
  · cases hadd : b.add new with
    | ok r => simp [hadded r hadd] at he
    | error e' =>
      refine ⟨by rw [hrefused e' hadd], fun later => ?_⟩
      obtain ⟨hb, hL⟩ := after_add_of_error (L := L) hadd
      rw [history_append_cons, hb, hL, history, List.foldl_append]
      rfl
  · cases hadd : b.add new with
    | error e => simp [hrefused e hadd] at ha
    | ok r =>
      obtain ⟨i, b'⟩ := r
      have hi : i = a := by simpa [hadded _ hadd] using ha
      refine ⟨hi ▸ (add_kept hk (withKey_key_ne rule key) hadd).1, ?_⟩
      obtain ⟨hb, hL⟩ := after_add_of_ok (L := L) hadd
      rw [history_append_cons, hb, hL, hadded _ hadd]
      rfl

/-- `items[].int`, and then `items.int` in one rule together with a path that goes in. -/
def itemsThen (key : String) (canOverride : Bool) : Except Error (Binder String) := do
  let member : Path := ⟨[.collection "items", .property "int"], by decide⟩
  let nested : Path := ⟨[.property "items", .property "int"], by decide⟩
  let flag : Path := ⟨[.property "flag"], by decide⟩
  let rule (paths : List Path) : Rule (Action String) :=
    { action := .assign "flag" "seen", canOverride, triggers := .ok paths }
  let (_, b) ← ({} : Binder String).add ((rule [member]).withKey "k")
  return (← b.add ((rule [flag, nested]).withKey key)).2

example : (itemsThen "other" true).map (·.text) = .error (.shapeConflict "items") := by rfl

example : (itemsThen "k" true).map (·.graph.size) = .ok 4 := by rfl

end LiveRules
