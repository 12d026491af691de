/-
# Slot maps

A slot map gives out its keys itself: what is put in gets a key that nothing in the map
has, and keeps it until it is taken out. Nothing else is relied on, in particular not in
what order the entries are visited.

One way to do it is to keep the entries in slots, each with a version that grows when it is
filled and when it is emptied. A key is a slot's index and its version; empty slots are
filled again, the one that was emptied last first.

Key definitions: `SlotMap`, `Slots`, `slotMap`.
-/

namespace LiveRules

structure SlotMap (κ α : Type) [DecidableEq κ] where
  Map : Type
  empty : Map
  get? : Map → κ → Option α
  /-- The key that is given out, and the map with it. -/
  insert : Map → α → κ × Map
  /-- Puts something else in the place of what has the key. -/
  replace : Map → κ → α → Map
  remove : Map → κ → Map
  /-- In the order in which the entries are visited. -/
  keys : Map → List κ
  get?_empty : ∀ k, get? empty k = none
  get?_new : ∀ m a, get? m (insert m a).1 = none
  get?_insert : ∀ m a k, get? (insert m a).2 k = if (insert m a).1 = k then some a else get? m k
  get?_replace : ∀ {m k} a j, (get? m k).isSome = true →
    get? (replace m k a) j = if k = j then some a else get? m j
  get?_remove : ∀ m k j, get? (remove m k) j = if k = j then none else get? m j
  mem_keys : ∀ {m k}, k ∈ keys m ↔ (get? m k).isSome = true
  keys_nodup : ∀ m, (keys m).Nodup

/-! ### Slots that are filled again -/

structure SlotKey where
  index : Nat
  version : Nat
  deriving DecidableEq

structure Slot (α : Type) where
  version : Nat
  value : Option α

/-- Slots, and the indexes of those that are empty. -/
structure Slots (α : Type) where
  slots : List (Slot α) := []
  free : List Nat := []
  nodup : free.Nodup := by simp
  vacant : ∀ i ∈ free, ∃ v, slots[i]? = some ⟨v, none⟩ := by simp

namespace Slots

variable {α : Type}

def get? (m : Slots α) (k : SlotKey) : Option α :=
  m.slots[k.index]?.bind fun s => if s.version = k.version then s.value else none

theorem get?_eq_some {m : Slots α} {k : SlotKey} {a : α} :
    m.get? k = some a ↔ m.slots[k.index]? = some ⟨k.version, some a⟩ := by
  unfold get?
  cases hs : m.slots[k.index]? with
  | none => simp
  | some s =>
    obtain ⟨v, o⟩ := s
    by_cases hv : v = k.version <;> simp [hv]

theorem not_mem_free {m : Slots α} {k : SlotKey} (h : (m.get? k).isSome = true) : k.index ∉ m.free := by
  intro hfree
  obtain ⟨a, ha⟩ := Option.isSome_iff_exists.mp h
  obtain ⟨v, hv⟩ := m.vacant _ hfree
  rw [get?_eq_some, hv] at ha
  simp at ha

def insert (m : Slots α) (a : α) : SlotKey × Slots α :=
  match h : m.free with
  | [] => (⟨m.slots.length, 1⟩, { slots := m.slots ++ [⟨1, some a⟩] })
  | i :: free =>
    let v := (m.slots[i]?.map Slot.version).getD 0 + 1
    (⟨i, v⟩,
      { slots := m.slots.set i ⟨v, some a⟩
        free
        nodup := (List.nodup_cons.mp (h ▸ m.nodup)).2
        vacant := fun j hj => by
          have hij : i ≠ j := fun heq => (List.nodup_cons.mp (h ▸ m.nodup)).1 (heq ▸ hj)
          rw [List.getElem?_set_ne hij]
          exact m.vacant j (h ▸ List.mem_cons_of_mem i hj) })

def replace (m : Slots α) (k : SlotKey) (a : α) : Slots α :=
  if h : (m.get? k).isSome = true then
    { m with
      slots := m.slots.set k.index ⟨k.version, some a⟩
      vacant := fun j hj => by
        have hne : k.index ≠ j := fun heq => not_mem_free h (by rwa [heq])
        rw [List.getElem?_set_ne hne]
        exact m.vacant j hj }
  else m

def remove (m : Slots α) (k : SlotKey) : Slots α :=
  if h : (m.get? k).isSome = true then
    { slots := m.slots.set k.index ⟨k.version + 1, none⟩
      free := k.index :: m.free
      nodup := List.nodup_cons.mpr ⟨not_mem_free h, m.nodup⟩
      vacant := fun j hj => by
        obtain ⟨a, ha⟩ := Option.isSome_iff_exists.mp h
        have hlt : k.index < m.slots.length := (List.getElem?_eq_some_iff.mp (get?_eq_some.mp ha)).1
        by_cases heq : k.index = j
        · exact ⟨k.version + 1, by rw [← heq, List.getElem?_set_self hlt]⟩
        · rw [List.getElem?_set_ne heq]
          exact m.vacant j ((List.mem_cons.mp hj).resolve_left (Ne.symm heq)) }
  else m

def keys (m : Slots α) : List SlotKey :=
  m.slots.zipIdx.filterMap fun e => e.1.value.map fun _ => ⟨e.2, e.1.version⟩

/-- A slot that has been set has a new content, and the others have their own. -/
theorem get?_set {m m' : Slots α} {i : Nat} {s : Slot α} (h : m'.slots = m.slots.set i s) (hi : i < m.slots.length)
    (k : SlotKey) :
    m'.get? k = if i = k.index then (if s.version = k.version then s.value else none) else m.get? k := by
  unfold get?
  rw [h]
  by_cases heq : i = k.index
  · rw [if_pos heq, ← heq, List.getElem?_set_self hi, Option.bind_some]
  · rw [if_neg heq, List.getElem?_set_ne heq]

theorem get?_new (m : Slots α) (a : α) : m.get? (m.insert a).1 = none := by
  unfold insert
  split
  · simp [get?]
  · rename_i i free h
    obtain ⟨v, hv⟩ := m.vacant i (h ▸ List.mem_cons_self)
    simp [get?, hv]

theorem get?_insert (m : Slots α) (a : α) (k : SlotKey) :
    (m.insert a).2.get? k = if (m.insert a).1 = k then some a else m.get? k := by
  obtain ⟨i, v⟩ := k
  unfold insert
  split
  · simp only [get?, SlotKey.mk.injEq]
    by_cases hi : m.slots.length = i
    · subst hi
      by_cases hv : 1 = v
      · subst hv
        simp
      · simp [hv]
    · rcases Nat.lt_or_gt_of_ne hi with hlt | hlt
      · simp [hi, List.getElem?_append_right (Nat.le_of_lt hlt), Nat.le_of_lt hlt, Nat.sub_ne_zero_of_lt hlt]
      · simp [hi, List.getElem?_append_left hlt]
  · rename_i i' free h
    obtain ⟨v', hv'⟩ := m.vacant i' (h ▸ List.mem_cons_self)
    have hlt : i' < m.slots.length := (List.getElem?_eq_some_iff.mp hv').1
    simp only [hv', Option.map_some, Option.getD_some]
    rw [get?_set rfl hlt]
    by_cases hi : i' = i
    · subst hi
      by_cases hv : v' + 1 = v
      · simp [hv]
      · simp [hv, get?, hv']
    · simp [hi]

theorem get?_replace {m : Slots α} {k : SlotKey} (a : α) (j : SlotKey) (h : (m.get? k).isSome = true) :
    (m.replace k a).get? j = if k = j then some a else m.get? j := by
  obtain ⟨b, hb⟩ := Option.isSome_iff_exists.mp h
  have hslot := get?_eq_some.mp hb
  have hlt : k.index < m.slots.length := (List.getElem?_eq_some_iff.mp hslot).1
  unfold replace
  rw [dif_pos h, get?_set rfl hlt]
  obtain ⟨i, v⟩ := k
  obtain ⟨i', v'⟩ := j
  by_cases hi : i = i'
  · by_cases hv : v = v'
    · simp [hi, hv]
    · subst hi
      simp [hv, get?, show m.slots[i]? = some ⟨v, some b⟩ from hslot]
  · simp [hi]

theorem get?_remove (m : Slots α) (k j : SlotKey) : (m.remove k).get? j = if k = j then none else m.get? j := by
  unfold remove
  split
  · rename_i h
    obtain ⟨b, hb⟩ := Option.isSome_iff_exists.mp h
    have hslot := get?_eq_some.mp hb
    have hlt : k.index < m.slots.length := (List.getElem?_eq_some_iff.mp hslot).1
    rw [get?_set rfl hlt]
    obtain ⟨i, v⟩ := k
    obtain ⟨i', v'⟩ := j
    by_cases hi : i = i'
    · subst hi
      by_cases hv : v = v'
      · simp [hv]
      · simp [hv, get?, show m.slots[i]? = some ⟨v, some b⟩ from hslot]
    · simp [hi]
  · rename_i h
    split
    · rename_i heq
      rw [← heq]
      simpa using h
    · rfl

theorem mem_keys {m : Slots α} {k : SlotKey} : k ∈ m.keys ↔ (m.get? k).isSome = true := by
  rw [Option.isSome_iff_exists]
  simp only [get?_eq_some, keys, List.mem_filterMap, Option.map_eq_some_iff, Prod.exists, List.mem_zipIdx_iff_getElem?]
  constructor
  · rintro ⟨⟨v, o⟩, i, hslot, a, rfl, rfl⟩
    exact ⟨a, hslot⟩
  · rintro ⟨a, hslot⟩
    exact ⟨_, _, hslot, a, rfl, rfl⟩

theorem keys_nodup (m : Slots α) : m.keys.Nodup := by
  have hindexes : (m.slots.zipIdx.map (·.2)).Nodup := by
    rw [List.zipIdx_map_snd]
    exact List.nodup_range'
  refine List.Pairwise.filterMap _ ?_ (List.pairwise_map.mp hindexes)
  intro d e hne k hk j hj
  obtain ⟨a, -, rfl⟩ := Option.map_eq_some_iff.mp hk
  obtain ⟨b, -, rfl⟩ := Option.map_eq_some_iff.mp hj
  exact fun heq => hne (SlotKey.mk.inj heq).1

end Slots

/-- The slot map with slots that are filled again. -/
def slotMap (α : Type) : SlotMap SlotKey α where
  Map := Slots α
  empty := {}
  get? := Slots.get?
  insert := Slots.insert
  replace := Slots.replace
  remove := Slots.remove
  keys := Slots.keys
  get?_empty _ := by simp [Slots.get?]
  get?_new := Slots.get?_new
  get?_insert := Slots.get?_insert
  get?_replace := Slots.get?_replace
  get?_remove := Slots.get?_remove
  mem_keys := Slots.mem_keys
  keys_nodup := Slots.keys_nodup

end LiveRules
