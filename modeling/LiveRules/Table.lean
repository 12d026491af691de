/-
# Tables

A finite map as a list of entries with distinct keys, in the order in which
the keys were first set.

Key definitions: `Table.get?`, `Table.set`, `Table.erase`.
-/

namespace LiveRules

abbrev Table (κ ν : Type) := List (κ × ν)

namespace Table

variable {κ ν : Type} [DecidableEq κ]

def get? : Table κ ν → κ → Option ν
  | [], _ => none
  | (j, v) :: t, k => if j = k then some v else get? t k

/-- `k` stands for `v`, in the place it had before or else at the end. -/
def set : Table κ ν → κ → ν → Table κ ν
  | [], k, v => [(k, v)]
  | (j, u) :: t, k, v => if j = k then (k, v) :: t else (j, u) :: set t k v

def erase (t : Table κ ν) (k : κ) : Table κ ν :=
  t.filter fun e => e.1 ≠ k

def has (t : Table κ ν) (k : κ) : Bool :=
  (get? t k).isSome

def keys (t : Table κ ν) : List κ :=
  t.map (·.1)

theorem get?_set (t : Table κ ν) (k j : κ) (v : ν) :
    get? (set t k v) j = if k = j then some v else get? t j := by
  induction t with
  | nil => simp [set, get?]
  | cons e t ih => by_cases h : e.1 = k <;> by_cases h' : e.1 = j <;> simp_all [set, get?, eq_comm]

theorem get?_erase (t : Table κ ν) (k j : κ) :
    get? (erase t k) j = if k = j then none else get? t j := by
  induction t with
  | nil => simp [erase, get?]
  | cons e t ih =>
    by_cases h : e.1 = k <;> by_cases h' : e.1 = j <;> simp_all [erase, get?]
    exact fun hk => h hk.symm

theorem isSome_get? {t : Table κ ν} {k : κ} : (t.get? k).isSome = true ↔ k ∈ t.map (·.1) := by
  induction t with
  | nil => simp [get?]
  | cons e t ih =>
    by_cases h : e.1 = k
    · simp [get?, h]
    · simp [get?, h, ih, Ne.symm h]

theorem get?_of_mem {t : Table κ ν} (h : (t.map (·.1)).Nodup) {e : κ × ν} (he : e ∈ t) :
    t.get? e.1 = some e.2 := by
  induction t with
  | nil => cases he
  | cons d t ih =>
    rw [List.map_cons, List.nodup_cons] at h
    rcases List.mem_cons.mp he with rfl | he
    · simp [get?]
    · have hne : d.1 ≠ e.1 := fun heq => h.1 (heq ▸ List.mem_map_of_mem he)
      simp [get?, hne, ih h.2 he]

theorem exists_of_get? {t : Table κ ν} {k : κ} {v : ν} (h : t.get? k = some v) : ∃ e ∈ t, e.2 = v := by
  induction t with
  | nil => simp [get?] at h
  | cons e t ih =>
    rw [get?] at h
    split at h
    · exact ⟨e, List.mem_cons_self, Option.some.inj h⟩
    · obtain ⟨d, hd, hv⟩ := ih h
      exact ⟨d, List.mem_cons_of_mem _ hd, hv⟩

theorem mem_set {t : Table κ ν} {k : κ} {v : ν} {e : κ × ν} (h : e ∈ t.set k v) : e ∈ t ∨ e.2 = v := by
  induction t with
  | nil => exact Or.inr (List.mem_singleton.mp h ▸ rfl)
  | cons d t ih =>
    rw [set] at h
    split at h
    · rcases List.mem_cons.mp h with rfl | h
      · exact Or.inr rfl
      · exact Or.inl (List.mem_cons_of_mem _ h)
    · rcases List.mem_cons.mp h with rfl | h
      · exact Or.inl List.mem_cons_self
      · exact (ih h).imp_left (List.mem_cons_of_mem _)

/-- A new key goes to the end. -/
theorem set_of_not_mem {t : Table κ ν} {k : κ} {v : ν} (h : k ∉ t.map (·.1)) :
    t.set k v = t ++ [(k, v)] := by
  induction t with
  | nil => rfl
  | cons e t ih =>
    simp only [List.map_cons, List.mem_cons, not_or] at h
    simp only [set, if_neg (Ne.symm h.1), ih h.2, List.cons_append]

end Table
end LiveRules
