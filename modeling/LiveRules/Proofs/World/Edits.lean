/-
# Requests for other members

Client code gives a collection other members by four requests. What one of them comes to
depends on the members there are: either it has no effect, or there are other members and
a change is made known, and the two fit.

Key definitions: `Request.edits`, `Request.change`, `Request.members`, `World.edit`.
Key theorems: `World.grant_edit_cases`, `Request.change_cases`, `Request.change_first`.
-/
import LiveRules.Machine.Grant
import Mathlib.Data.List.Perm.Basic

namespace LiveRules

variable {κ : Type}

/-- The collection that the request gives other members. -/
def Request.edits : Request κ → Option CollectionId
  | .push c _ => some c
  | .insert c _ _ => some c
  | .remove c _ => some c
  | .clear c => some c
  | _ => none

/-- What changes if these are the members; none if nothing does. -/
def Request.change (g : World κ) (items : List ObjectId) : Request κ → Option Change
  | .push _ o => if g.hasObject o then some { added := [o] } else none
  | .insert _ _ o => if g.hasObject o then some { added := [o] } else none
  | .remove _ index => items[index]?.map fun o => { removed := [o] }
  | .clear _ => if items.isEmpty then none else some { removed := items }
  | _ => none

/-- The members there are then. -/
def Request.members (items : List ObjectId) : Request κ → List ObjectId
  | .push _ o => items ++ [o]
  | .insert _ index o => items.take index ++ o :: items.drop index
  | .remove _ index => items.eraseIdx index
  | .clear _ => []
  | _ => items

/-- What a request changes in a collection that keeps its own account. -/
def World.edit (g : World κ) (c : CollectionId) (r : Request κ) : Option Change :=
  if r.edits = some c then (g.listOf c).bind fun items => r.change g items else none

/-- **What such a request comes to.** -/
theorem World.grant_edit (g : World κ) {c : CollectionId} {items : List ObjectId} (hitems : g.listOf c = some items)
    {r : Request κ} (hr : r.edits = some c) (rest : List (Task κ)) :
    g.grant rest r = match r.change g items with
      | some change => g.changeItems c (r.members items) change
      | none => (g, []) := by
  cases r <;> cases hr <;> simp only [grant, hitems, Request.change, Request.members]
  case push | insert | clear => split <;> rfl
  case remove index => cases items[index]? <;> rfl

/-- Such a request has no effect, or the members are others and a change is made known. -/
theorem World.grant_edit_cases (g : World κ) {c : CollectionId} {r : Request κ} (hr : r.edits = some c)
    (rest : List (Task κ)) : g.grant rest r = (g, []) ∨ ∃ items change, g.listOf c = some items ∧
      r.change g items = some change ∧ g.grant rest r = g.changeItems c (r.members items) change := by
  cases hitems : g.listOf c with
  | none => cases r <;> cases hr <;> exact Or.inl (by simp only [grant, hitems])
  | some items =>
    rw [g.grant_edit hitems hr rest]
    cases hchange : r.change g items with
    | none => exact Or.inl rfl
    | some change => exact Or.inr ⟨items, change, rfl, hchange, rfl⟩

namespace Request

variable {g : World κ} {items : List ObjectId} {r : Request κ} {change : Change}

/-- **What changes**: an object that exists joins, or some of the members leave. -/
theorem change_cases (h : r.change g items = some change) :
    (∃ o, g.hasObject o = true ∧ change = { added := [o] } ∧ (r.members items).Perm (o :: items)) ∨
      ∃ removed, removed ≠ [] ∧ change = { removed } ∧ items.Perm (removed ++ r.members items) := by
  cases r <;> simp only [Request.change] at h <;> simp only [members]
  case push o =>
    split at h
    · rename_i ho
      exact Or.inl ⟨o, ho, (Option.some.inj h).symm, List.perm_append_singleton o items⟩
    · cases h
  case insert index o =>
    split at h
    · rename_i ho
      refine Or.inl ⟨o, ho, (Option.some.inj h).symm, List.perm_middle.trans ?_⟩
      rw [List.take_append_drop]
    · cases h
  case remove index =>
    obtain ⟨o, ho, rfl⟩ := Option.map_eq_some_iff.mp h
    obtain ⟨hlt, rfl⟩ := List.getElem?_eq_some_iff.mp ho
    exact Or.inr ⟨_, List.cons_ne_nil _ _, rfl, (List.getElem_cons_eraseIdx_perm hlt).symm⟩
  case clear =>
    split at h
    · cases h
    · rename_i hne
      refine Or.inr ⟨items, fun heq => hne (List.isEmpty_iff.mpr heq), (Option.some.inj h).symm, ?_⟩
      rw [List.append_nil]
  all_goals cases h

/-- Whoever joins is there once more, and whoever leaves once less. -/
theorem count_members (h : r.change g items = some change) (o : ObjectId) :
    (r.members items).count o + change.removed.count o = items.count o + change.added.count o := by
  rcases change_cases h with ⟨n, -, rfl, hperm⟩ | ⟨removed, -, rfl, hperm⟩
  · simp only [hperm.count_eq, List.count_cons, List.count_nil]
    omega
  · simp only [hperm.count_eq, List.count_append, List.count_nil]
    omega

/-- A change says that somebody has joined or left. -/
theorem change_nonempty (h : r.change g items = some change) : change.isEmpty = false := by
  rcases change_cases h with ⟨n, -, rfl, -⟩ | ⟨removed, hne, rfl, -⟩
  · rfl
  · simpa [Change.isEmpty] using hne

/-- There are other members then. -/
theorem members_ne (h : r.change g items = some change) : r.members items ≠ items := by
  intro heq
  rcases change_cases h with ⟨n, -, -, hperm⟩ | ⟨removed, hne, -, hperm⟩
  · have hlength := hperm.length_eq
    rw [heq, List.length_cons] at hlength
    omega
  · have hlength := hperm.length_eq
    rw [heq, List.length_append] at hlength
    exact hne (List.eq_nil_of_length_eq_zero (by omega))

/-- Whoever joins is a member. -/
theorem count_added_le (h : r.change g items = some change) (o : ObjectId) :
    change.added.count o ≤ (r.members items).count o := by
  rcases change_cases h with ⟨n, -, rfl, hperm⟩ | ⟨removed, -, rfl, -⟩
  · simp only [hperm.count_eq, List.count_cons, List.count_nil]
    omega
  · exact Nat.zero_le _

/-- Only who exists can join. -/
theorem hasObject_of_added (h : r.change g items = some change) {o : ObjectId} (ho : o ∈ change.added) :
    g.hasObject o = true := by
  rcases change_cases h with ⟨n, hexists, rfl, -⟩ | ⟨removed, -, rfl, -⟩
  · exact List.mem_singleton.mp ho ▸ hexists
  · cases ho

theorem hasObject_of_members (h : r.change g items = some change) (hitems : ∀ o ∈ items, g.hasObject o = true)
    {o : ObjectId} (ho : o ∈ r.members items) : g.hasObject o = true := by
  rcases change_cases h with ⟨n, hexists, -, hperm⟩ | ⟨removed, -, -, hperm⟩
  · rcases List.mem_cons.mp (hperm.mem_iff.mp ho) with rfl | hold
    · exact hexists
    · exact hitems o hold
  · exact hitems o (hperm.mem_iff.mpr (List.mem_append_right _ ho))

/-- To take an object out where it first stands is to take it out once. -/
theorem change_first (g : World κ) {o : ObjectId} {index : Nat} (h : items.findIdx? (· = o) = some index)
    (c : CollectionId) :
    (Request.remove c index : Request κ).change g items = some { removed := [o] } ∧
      (Request.remove c index : Request κ).members items = items.erase o := by
  have hidx : items.idxOf o = index := (List.findIdx?_eq_some_iff_findIdx_eq.mp h).2
  obtain ⟨hlt, heq, -⟩ := List.findIdx?_eq_some_iff_getElem.mp h
  refine ⟨?_, (List.erase_eq_eraseIdx_of_idxOf hidx).symm⟩
  simp only [Request.change, List.getElem?_eq_getElem hlt, of_decide_eq_true heq, Option.map_some]

end Request
end LiveRules
