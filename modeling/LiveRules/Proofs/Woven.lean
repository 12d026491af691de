/-
# Lists with others woven in

What is done twice, the second time with more, shows up as two lists: the entries of
the first are in the second, each replaced by its match and in the same order, with
further entries between them.

Key definitions: `Woven`.
Key theorems: `Woven.append`, `Woven.front`, `Woven.filterMap_eq`.
-/
import Mathlib.Tactic

namespace LiveRules

variable {α β : Type}

/-- Each entry of the first list has its match in the second, in the same order; what
is between them is of the other kind. -/
inductive Woven (R : α → β → Prop) (P : β → Prop) : List α → List β → Prop
  | nil : Woven R P [] []
  | cons {x : α} {y : β} {xs : List α} {ys : List β} (h : R x y) (hs : Woven R P xs ys) : Woven R P (x :: xs) (y :: ys)
  | other {y : β} {xs : List α} {ys : List β} (h : P y) (hs : Woven R P xs ys) : Woven R P xs (y :: ys)

namespace Woven

variable {R : α → β → Prop} {P : β → Prop} {xs xs' : List α} {ys ys' : List β}

theorem append (h : Woven R P xs ys) (h' : Woven R P xs' ys') : Woven R P (xs ++ xs') (ys ++ ys') := by
  induction h with
  | nil => exact h'
  | cons h _ ih => exact .cons h ih
  | other h _ ih => exact .other h ih

theorem mono {S : α → β → Prop} {Q : β → Prop} (h : Woven R P xs ys) (hR : ∀ x y, R x y → S x y)
    (hP : ∀ y, P y → Q y) : Woven S Q xs ys := by
  induction h with
  | nil => exact .nil
  | cons h _ ih => exact .cons (hR _ _ h) ih
  | other h _ ih => exact .other (hP _ h) ih

theorem of_map {γ : Type} {f : γ → α} {f' : γ → β} {l : List γ} (h : ∀ z ∈ l, R (f z) (f' z)) :
    Woven R P (l.map f) (l.map f') := by
  induction l with
  | nil => exact .nil
  | cons z l ih => exact .cons (h z List.mem_cons_self) (ih fun z hz => h z (List.mem_cons_of_mem _ hz))

theorem refl {R : α → α → Prop} {P : α → Prop} (h : ∀ x, R x x) (l : List α) : Woven R P l l := by
  induction l with
  | nil => exact .nil
  | cons x l ih => exact .cons (h x) ih

theorem of_forall₂ (h : List.Forall₂ R xs ys) : Woven R P xs ys := by
  induction h with
  | nil => exact .nil
  | cons h _ ih => exact .cons h ih

theorem of_others (h : ∀ y ∈ ys, P y) : Woven R P [] ys := by
  induction ys with
  | nil => exact .nil
  | cons y ys ih => exact .other (h y List.mem_cons_self) (ih fun z hz => h z (List.mem_cons_of_mem _ hz))

theorem one {x : α} {y : β} (h : R x y) : Woven R P [x] [y] :=
  .cons h .nil

theorem mem (h : Woven R P xs ys) {y : β} (hy : y ∈ ys) : P y ∨ ∃ x ∈ xs, R x y := by
  induction h with
  | nil => cases hy
  | cons h _ ih =>
    rcases List.mem_cons.mp hy with rfl | hy
    · exact Or.inr ⟨_, List.mem_cons_self, h⟩
    · exact (ih hy).imp_right fun ⟨x, hx, hR⟩ => ⟨x, List.mem_cons_of_mem _ hx, hR⟩
  | other h _ ih =>
    rcases List.mem_cons.mp hy with rfl | hy
    · exact Or.inl h
    · exact ih hy

theorem exists_match (h : Woven R P xs ys) {x : α} (hx : x ∈ xs) : ∃ y ∈ ys, R x y := by
  induction h with
  | nil => cases hx
  | cons h _ ih =>
    rcases List.mem_cons.mp hx with rfl | hx
    · exact ⟨_, List.mem_cons_self, h⟩
    · obtain ⟨y, hy, hR⟩ := ih hx
      exact ⟨y, List.mem_cons_of_mem _ hy, hR⟩
  | other _ _ ih =>
    obtain ⟨y, hy, hR⟩ := ih hx
    exact ⟨y, List.mem_cons_of_mem _ hy, hR⟩

/-- Before the match of the first entry there are only others. -/
theorem front {x : α} (h : Woven R P (x :: xs) ys) :
    ∃ others y ys', ys = others ++ y :: ys' ∧ (∀ z ∈ others, P z) ∧ R x y ∧ Woven R P xs ys' := by
  generalize hl : x :: xs = l at h
  induction h with
  | nil => cases hl
  | @cons _ y _ ys h hs _ =>
    cases hl
    exact ⟨[], y, ys, rfl, by simp, h, hs⟩
  | @other z _ _ h _ ih =>
    obtain ⟨others, y, ys', rfl, hothers, hR, hs⟩ := ih hl
    exact ⟨z :: others, y, ys', rfl, List.forall_mem_cons.mpr ⟨h, hothers⟩, hR, hs⟩

theorem map {γ δ : Type} {S : γ → δ → Prop} {Q : δ → Prop} {f : α → γ} {f' : β → δ} (h : Woven R P xs ys)
    (hR : ∀ x y, R x y → S (f x) (f' y)) (hP : ∀ y, P y → Q (f' y)) : Woven S Q (xs.map f) (ys.map f') := by
  induction h with
  | nil => exact .nil
  | cons h _ ih => exact .cons (hR _ _ h) ih
  | other h _ ih => exact .other (hP _ h) ih

theorem flatMap {γ δ : Type} {S : γ → δ → Prop} {Q : δ → Prop} {f : α → List γ} {f' : β → List δ} (h : Woven R P xs ys)
    (hR : ∀ x y, R x y → Woven S Q (f x) (f' y)) (hP : ∀ y, P y → ∀ z ∈ f' y, Q z) :
    Woven S Q (xs.flatMap f) (ys.flatMap f') := by
  induction h with
  | nil => exact .nil
  | cons h _ ih => exact (hR _ _ h).append ih
  | other h _ ih => exact (of_others (hP _ h)).append ih

theorem filterMap {γ δ : Type} {S : γ → δ → Prop} {Q : δ → Prop} {f : α → Option γ} {f' : β → Option δ}
    (h : Woven R P xs ys)
    (hR : ∀ x y, R x y → Option.Rel S (f x) (f' y)) (hP : ∀ y, P y → ∀ z, f' y = some z → Q z) :
    Woven S Q (xs.filterMap f) (ys.filterMap f') := by
  induction h with
  | nil => exact .nil
  | @cons x y xs ys h _ ih =>
    have hrel := hR x y h
    rw [List.filterMap_cons, List.filterMap_cons]
    generalize f x = z at hrel ⊢
    generalize f' y = z' at hrel ⊢
    cases hrel with
    | none => exact ih
    | some hz => exact .cons hz ih
  | @other y xs ys h _ ih =>
    rw [List.filterMap_cons]
    cases hz : f' y with
    | none => exact ih
    | some z => exact .other (hP y h z hz) ih

/-- Of the others any can go, and of the rest those that go on both sides. -/
theorem filter {p : α → Bool} {q : β → Bool} (h : Woven R P xs ys) (hR : ∀ x y, R x y → q y = p x) :
    Woven R P (xs.filter p) (ys.filter q) := by
  induction h with
  | nil => exact .nil
  | @cons x y xs ys h _ ih =>
    rw [List.filter_cons, List.filter_cons, hR x y h]
    split
    · exact .cons h ih
    · exact ih
  | @other y xs ys h _ ih =>
    rw [List.filter_cons]
    split
    · exact .other h ih
    · exact ih

theorem all_other (h : Woven R P [] ys) : ∀ y ∈ ys, P y := by
  intro y hy
  rcases h.mem hy with hP | ⟨x, hx, -⟩
  · exact hP
  · cases hx

/-- What is read off the matches alike, and not off the others, is the same. -/
theorem filterMap_eq {γ : Type} {f : α → Option γ} {f' : β → Option γ} (h : Woven R P xs ys)
    (hR : ∀ x y, R x y → f' y = f x) (hP : ∀ y, P y → f' y = none) : ys.filterMap f' = xs.filterMap f := by
  induction h with
  | nil => rfl
  | cons h _ ih => rw [List.filterMap_cons, List.filterMap_cons, hR _ _ h, ih]
  | other h _ ih => rw [List.filterMap_cons_none (hP _ h), ih]

end Woven
end LiveRules
