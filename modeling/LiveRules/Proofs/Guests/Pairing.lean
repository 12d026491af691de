/-
# What an id stands for

Subscriptions and watchers are numbered as they are made. With guests in the world there
are more of them, so one and the same watcher has another number there. Each number of
the world without guests stands for one in the world with them, and those that none
stands for are the guests'.

Key definitions: `Pairing`, `Pairing.Pairs`, `Pairing.Stray`, `Matching`.
Key theorems: `Pairing.Pairs.eq_iff`, `Pairing.le_pair`, `Pairing.le_host`.
-/
import LiveRules.World.Value
import Mathlib.Data.List.Nodup
import Mathlib.Order.Basic
import Mathlib.Tactic

namespace LiveRules

/-- What each number given out so far stands for, and how many there are on the other
side. -/
structure Pairing where
  partners : List Nat
  bound : Nat
  below : ∀ b ∈ partners, b < bound
  nodup : partners.Nodup

namespace Pairing

/-- Nothing has been numbered. -/
def nothing : Pairing where
  partners := []
  bound := 0
  below b hb := by cases hb
  nodup := .nil

def size (P : Pairing) : Nat :=
  P.partners.length

/-- The number `a` stands for `b`. -/
def Pairs (P : Pairing) (a b : Nat) : Prop :=
  P.partners[a]? = some b

/-- The number `b` has been given out, and none stands for it. -/
def Stray (P : Pairing) (b : Nat) : Prop :=
  b < P.bound ∧ b ∉ P.partners

/-- The numbers are a pair, or neither has been given out. -/
def Meets (P : Pairing) (a b : Nat) : Prop :=
  P.Pairs a b ∨ P.size ≤ a ∧ P.bound ≤ b

/-- The next number stands for the next one. -/
def pair (P : Pairing) : Pairing where
  partners := P.partners ++ [P.bound]
  bound := P.bound + 1
  below b hb := by
    rcases List.mem_append.mp hb with hb | hb
    · exact Nat.lt_succ_of_lt (P.below b hb)
    · exact List.mem_singleton.mp hb ▸ Nat.lt_succ_self _
  nodup := by
    rw [List.nodup_append_comm, List.singleton_append, List.nodup_cons]
    exact ⟨fun hb => lt_irrefl _ (P.below _ hb), P.nodup⟩

/-- The next number is a guest's. -/
def host (P : Pairing) : Pairing where
  partners := P.partners
  bound := P.bound + 1
  below b hb := Nat.lt_succ_of_lt (P.below b hb)
  nodup := P.nodup

section

variable {P : Pairing} {a b c d : Nat}

theorem Pairs.lt_size (h : P.Pairs a b) : a < P.size :=
  (List.getElem?_eq_some_iff.mp h).1

theorem Pairs.mem (h : P.Pairs a b) : b ∈ P.partners :=
  List.mem_of_getElem? h

theorem Pairs.lt_bound (h : P.Pairs a b) : b < P.bound :=
  P.below b h.mem

/-- **Numbers stand for the same** only if they are the same. -/
theorem Pairs.eq_iff (h : P.Pairs a b) (h' : P.Pairs c d) : a = c ↔ b = d := by
  constructor
  · rintro rfl
    exact Option.some.inj (h.symm.trans h')
  · rintro rfl
    exact (List.getElem?_inj h.lt_size P.nodup).mp (h.trans h'.symm)

theorem Pairs.eq_iff_of_meets (h : P.Pairs a b) (h' : P.Meets c d) : a = c ↔ b = d := by
  rcases h' with h' | ⟨hc, hd⟩
  · exact h.eq_iff h'
  · exact iff_of_false (lt_of_lt_of_le h.lt_size hc).ne (lt_of_lt_of_le h.lt_bound hd).ne

theorem Stray.ne_of_pairs (h : P.Stray b) (h' : P.Pairs c d) : b ≠ d := by
  rintro rfl
  exact h.2 h'.mem

theorem Stray.ne_of_meets (h : P.Stray b) (h' : P.Meets c d) : b ≠ d := by
  rcases h' with h' | ⟨-, hd⟩
  · exact h.ne_of_pairs h'
  · exact (lt_of_lt_of_le h.1 hd).ne

end

/-! ### More numbers -/

/-- More numbers have been given out since. -/
structure Grows (P Q : Pairing) : Prop where
  pairs : ∀ {a b}, P.Pairs a b → Q.Pairs a b
  stray : ∀ {b}, P.Stray b → Q.Stray b
  meets : ∀ {a b}, Q.Meets a b → P.Meets a b

instance : Preorder Pairing where
  le := Grows
  le_refl P := ⟨id, id, id⟩
  le_trans P Q R h h' := ⟨h'.pairs ∘ h.pairs, h'.stray ∘ h.stray, h.meets ∘ h'.meets⟩

section

variable (P : Pairing) {a b : Nat}

theorem pairs_pair : P.pair.Pairs a b ↔ P.Pairs a b ∨ a = P.size ∧ b = P.bound := by
  unfold Pairs pair size
  simp only
  rcases lt_trichotomy a P.partners.length with ha | rfl | ha
  · simp [List.getElem?_append_left ha, ha.ne]
  · simp [eq_comm]
  · have hlong : (P.partners ++ [P.bound]).length ≤ a := by simpa using ha
    simp [List.getElem?_eq_none hlong, List.getElem?_eq_none ha.le, ha.ne']

theorem pairs_new : P.pair.Pairs P.size P.bound :=
  P.pairs_pair.mpr (Or.inr ⟨rfl, rfl⟩)

theorem stray_new : P.host.Stray P.bound :=
  ⟨Nat.lt_succ_self _, fun hb => lt_irrefl _ (P.below _ hb)⟩

theorem size_pair : P.pair.size = P.size + 1 := by
  simp [size, pair]

theorem le_pair : P ≤ P.pair where
  pairs h := P.pairs_pair.mpr (Or.inl h)
  stray h := by
    refine ⟨Nat.lt_succ_of_lt h.1, fun hb => ?_⟩
    rcases List.mem_append.mp hb with hb | hb
    · exact h.2 hb
    · exact h.1.ne (List.mem_singleton.mp hb)
  meets := by
    rintro a b (h | ⟨ha, hb⟩)
    · rcases P.pairs_pair.mp h with h | ⟨rfl, rfl⟩
      · exact Or.inl h
      · exact Or.inr ⟨le_rfl, le_rfl⟩
    · rw [size_pair] at ha
      exact Or.inr ⟨(Nat.le_succ _).trans ha, (Nat.le_succ _).trans hb⟩

theorem le_host : P ≤ P.host where
  pairs := id
  stray h := ⟨Nat.lt_succ_of_lt h.1, h.2⟩
  meets := by
    rintro a b (h | ⟨ha, hb⟩)
    · exact Or.inl h
    · exact Or.inr ⟨ha, (Nat.le_succ _).trans hb⟩

/-- Who is new on the one side is new on the other. -/
theorem new_iff_of_meets (h : P.pair.Meets a b) : P.size = a ↔ P.bound = b :=
  P.pairs_new.eq_iff_of_meets h

theorem bound_ne_of_meets (h : P.host.Meets a b) : P.bound ≠ b :=
  P.stray_new.ne_of_meets h

theorem stray_pair (h : P.pair.Stray b) : P.Stray b := by
  have hb : b ∉ P.partners ∧ b ≠ P.bound := by simpa [pair] using h.2
  exact ⟨lt_of_le_of_ne (Nat.le_of_lt_succ h.1) hb.2, hb.1⟩

theorem stray_host (h : P.host.Stray b) : P.Stray b ∨ b = P.bound := by
  rcases Nat.lt_or_eq_of_le (Nat.le_of_lt_succ h.1) with hb | hb
  · exact Or.inl ⟨hb, h.2⟩
  · exact Or.inr hb

end

end Pairing

/-! ### Subscriptions and watchers -/

/-- What subscriptions and watchers stand for, and the things that guests can know. -/
structure Matching where
  ids : Pairing
  watchers : Pairing
  known : Value → Prop

namespace Matching

structure Grows (M N : Matching) : Prop where
  ids : M.ids ≤ N.ids
  watchers : M.watchers ≤ N.watchers
  known : ∀ {v}, M.known v → N.known v

instance : Preorder Matching where
  le := Grows
  le_refl M := ⟨le_rfl, le_rfl, id⟩
  le_trans M N K h h' := ⟨h.ids.trans h'.ids, h.watchers.trans h'.watchers, h'.known ∘ h.known⟩

variable (M : Matching)

/-- A subscription is made in both worlds. -/
def pairId : Matching :=
  { M with ids := M.ids.pair }

/-- A guest makes a subscription. -/
def hostId : Matching :=
  { M with ids := M.ids.host }

def pairWatcher : Matching :=
  { M with watchers := M.watchers.pair }

def hostWatcher : Matching :=
  { M with watchers := M.watchers.host }

theorem le_pairId : M ≤ M.pairId :=
  ⟨M.ids.le_pair, le_rfl, id⟩

theorem le_hostId : M ≤ M.hostId :=
  ⟨M.ids.le_host, le_rfl, id⟩

theorem le_pairWatcher : M ≤ M.pairWatcher :=
  ⟨le_rfl, M.watchers.le_pair, id⟩

theorem le_hostWatcher : M ≤ M.hostWatcher :=
  ⟨le_rfl, M.watchers.le_host, id⟩

end Matching
end LiveRules
