/-
# Forests, node by node

What is at the end of a word in a forest is a *stem*: the actions that are recorded there, and
the trees below. Of a stem, its *cell* is what can be kept in one place: the actions, and the
labels of the trees below. Each change to a forest is one to the stem at a word. It changes
the cell there, and perhaps adds or takes a cell one label further down; all other cells are
what they were.

Key definitions: `Stem.find`, `Stem.cell`, `Stem.alter`, `Stem.grow`, `Stem.Kempt`.
Key theorems: `Stem.cell_grow`, `Stem.cell_mark`, `Stem.cell_cut`, `Stem.cell_strip`,
`Forest.insert_of_tree`, `Graph.Sound.kempt`.
-/
import LiveRules.Proofs.Graph.Pruning

namespace LiveRules

/-- Labels that can stand side by side. -/
structure Siblings (ls : List Label) : Prop where
  nodup : ls.Nodup
  alike : ∀ j ∈ ls, ∀ k ∈ ls, j.sameKind k = true

namespace Siblings

variable {k : Label} {ls ms : List Label} {n : String}

theorem sublist (h : Siblings ls) (hsub : ms.Sublist ls) : Siblings ms :=
  ⟨h.nodup.sublist hsub, fun j hj k hk => h.alike j (hsub.subset hj) k (hsub.subset hk)⟩

theorem snoc (h : Siblings ls) (hk : k ∉ ls) (halike : ∀ j ∈ ls, j.sameKind k = true) : Siblings (ls ++ [k]) where
  nodup := List.nodup_append.mpr ⟨h.nodup, List.nodup_singleton k, fun j hj i hi heq =>
    hk (List.mem_singleton.mp hi ▸ heq ▸ hj)⟩
  alike i hi j hj := by
    have hkk : k.sameKind k = true := by cases k <;> rfl
    rcases List.mem_append.mp hi with hi | hi <;> rcases List.mem_append.mp hj with hj | hj
    · exact h.alike i hi j hj
    · exact List.mem_singleton.mp hj ▸ halike i hi
    · rw [Forest.sameKind_comm]
      exact List.mem_singleton.mp hi ▸ halike j hj
    · exact List.mem_singleton.mp hi ▸ List.mem_singleton.mp hj ▸ hkk

theorem not_member (h : Siblings ls) (hn : .field n ∈ ls) : .member ∉ ls := fun hm => by
  simpa [Label.sameKind] using h.alike _ hn _ hm

/-- A collection has nothing but its member node. -/
theorem eq_singleton (h : Siblings ls) (hm : .member ∈ ls) : ls = [.member] := by
  have hall : ∀ j ∈ ls, j = .member := by
    intro j hj
    cases j with
    | field n => exact absurd hm (h.not_member hj)
    | member => rfl
  have hreplicate : ls = List.replicate ls.length .member := List.eq_replicate_iff.mpr ⟨rfl, hall⟩
  have hcount := List.nodup_iff_count_le_one.mp h.nodup .member
  rw [hreplicate, List.count_replicate_self] at hcount
  have hpos := List.length_pos_of_mem hm
  rw [hreplicate, show ls.length = 1 by omega]
  rfl

end Siblings

/-- What is recorded at a node, and what is below it. -/
abbrev Stem := List ActionId × Forest

namespace Forest

/-- Changes what is recorded at the label `k` and what is below it. -/
def mapTree (k : Label) (φ : Stem → Stem) : Forest → Forest
  | .nil => .nil
  | .node l as below next =>
    if l = k then .node l (φ (as, below)).1 (φ (as, below)).2 next else .node l as below (next.mapTree k φ)

/-- A further tree at the end, with nothing recorded and nothing below. -/
def snoc (k : Label) : Forest → Forest
  | .nil => .node k [] .nil .nil
  | .node l as below next => .node l as below (next.snoc k)

variable {f : Forest} {j k : Label}

@[simp] theorem labels_mapTree (φ : Stem → Stem) : (f.mapTree k φ).labels = f.labels := by
  induction f with
  | nil => rfl
  | node l as below next _ ihn =>
    rw [mapTree]
    split <;> simp [labels, ihn]

theorem tree?_mapTree (φ : Stem → Stem) : (f.mapTree k φ).tree? j = if j = k then (f.tree? k).map φ else f.tree? j := by
  induction f with
  | nil => simp [mapTree, tree?]
  | node l as below next _ ihn =>
    rw [mapTree]
    by_cases hlk : l = k
    · by_cases hjk : j = k
      · simp [hlk, hjk, tree?]
      · simp [hlk, hjk, tree?, Ne.symm hjk]
    · rw [if_neg hlk, tree?, ihn, tree?, tree?, if_neg hlk]
      by_cases hjk : j = k
      · simp [hjk, hlk]
      · simp [hjk]

theorem size_of_tree {t : Stem} (h : f.tree? k = some t) : t.2.size < f.size := by
  induction f with
  | nil => cases h
  | node l as below next _ ihn =>
    rw [tree?] at h
    rw [size]
    split at h
    · cases h
      show below.size < _
      omega
    · have := ihn h
      omega

theorem mapTree_congr {φ ψ : Stem → Stem} (h : ∀ s, f.tree? k = some s → φ s = ψ s) :
    f.mapTree k φ = f.mapTree k ψ := by
  induction f with
  | nil => rfl
  | node l as below next _ ihn =>
    rw [mapTree, mapTree]
    by_cases hlk : l = k
    · rw [if_pos hlk, if_pos hlk, h (as, below) (by rw [tree?, if_pos hlk])]
    · rw [if_neg hlk, if_neg hlk, ihn fun s hs => h s (by rwa [tree?, if_neg hlk])]

theorem mapTree_mapTree (φ ψ : Stem → Stem) : (f.mapTree k ψ).mapTree k φ = f.mapTree k (φ ∘ ψ) := by
  induction f with
  | nil => rfl
  | node l as below next _ ihn =>
    by_cases hlk : l = k
    · simp [mapTree, hlk]
    · simp [mapTree, hlk, ihn]

@[simp] theorem labels_snoc : (f.snoc k).labels = f.labels ++ [k] := by
  induction f with
  | nil => rfl
  | node l as below next _ ihn => rw [snoc, labels, labels, ihn, List.cons_append]

theorem tree?_snoc (hk : k ∉ f.labels) : (f.snoc k).tree? j = if j = k then some ([], .nil) else f.tree? j := by
  induction f with
  | nil => simp [snoc, tree?, eq_comm]
  | node l as below next _ ihn =>
    rw [labels, List.mem_cons, not_or] at hk
    rw [snoc, tree?, ihn hk.2, tree?]
    by_cases hlj : l = j
    · simp [hlj, show j ≠ k from hlj ▸ Ne.symm hk.1]
    · simp [hlj]

theorem labels_cut_singleton : (f.cut [k]).labels = f.labels.erase k := by
  induction f with
  | nil => rfl
  | node l as below next _ ihn =>
    rw [cut, labels]
    by_cases hlk : l = k
    · simp [hlk]
    · simp [hlk, labels, ihn]

theorem tree?_cut_singleton (hf : f.labels.Nodup) : (f.cut [k]).tree? j = if j = k then none else f.tree? j := by
  induction f with
  | nil => simp [cut, tree?]
  | node l as below next _ ihn =>
    rw [labels, List.nodup_cons] at hf
    rw [cut]
    by_cases hlk : l = k
    · rw [if_pos hlk]
      by_cases hjk : j = k
      · rw [if_pos hjk, tree?_eq_none, hjk, ← hlk]
        exact hf.1
      · rw [if_neg hjk, tree?, if_neg fun hlj => hjk (hlj.symm.trans hlk)]
    · rw [if_neg hlk, tree?, ihn hf.2, tree?]
      by_cases hjk : j = k
      · simp [hjk, hlk]
      · simp [hjk]

/-- Dropping a node further down is a change to the first one on the way. -/
theorem cut_cons (j i : Label) (v : List Label) :
    f.cut (j :: i :: v) = f.mapTree j fun t => (t.1, t.2.cut (i :: v)) := by
  induction f with
  | nil => rfl
  | node l as below next _ ihn => rw [cut, mapTree, ihn]

theorem tree?_strip (a : ActionId) :
    (f.strip a).tree? k = (f.tree? k).map fun s => (s.1.filter (· ≠ a), s.2.strip a) := by
  induction f with
  | nil => rfl
  | node l as below next _ ihn =>
    rw [strip, tree?, ihn, tree?]
    split <;> rfl

/-! ### Inserting, one label at a time -/

/-- Inserting a word makes the first node if it is missing, and this can be done before. -/
theorem insert_snoc (a : ActionId) (hk : k ∉ f.labels) (w : List Label) : (f.snoc k).insert a k w = f.insert a k w := by
  induction f with
  | nil => cases w <;> simp [snoc, insert, chain, insertId, admits, Except.map]
  | node l as below next _ ihn =>
    rw [labels, List.mem_cons, not_or] at hk
    cases w <;> simp [snoc, insert, Ne.symm hk.1, ihn hk.2]

/-- **Inserting goes on** below the first node. -/
theorem insert_of_tree (a : ActionId) {as : List ActionId} {below : Forest} (h : f.tree? k = some (as, below)) :
    f.insert a k [] = .ok (f.mapTree k fun _ => (insertId a as, below)) ∧
      ∀ j v, f.insert a k (j :: v) =
        if below.admits j then (below.insert a j v).map fun b => f.mapTree k fun _ => (as, b)
        else .error (.shapeConflict k.name) := by
  induction f with
  | nil => cases h
  | node l bs inside next _ ihn =>
    rw [tree?] at h
    by_cases hlk : l = k
    · rw [if_pos hlk] at h
      cases h
      refine ⟨by simp [insert, mapTree, hlk], fun j v => ?_⟩
      simp [insert, mapTree, hlk]
    · rw [if_neg hlk] at h
      obtain ⟨hnil, hcons⟩ := ihn h
      refine ⟨by simp [insert, mapTree, hlk, hnil, Except.map], fun j v => ?_⟩
      rw [insert, if_neg hlk, hcons]
      by_cases hadm : below.admits j = true
      · rw [if_pos hadm, if_pos hadm]
        cases below.insert a j v <;> simp [mapTree, hlk, Except.map]
      · rw [if_neg hadm, if_neg hadm]
        rfl

end Forest

namespace Stem

/-- The stem at the end of a word. -/
def find : List Label → Stem → Option Stem
  | [], s => some s
  | k :: w, s => (s.2.tree? k).bind (find w)

/-- What is recorded at the end of a word, and what it goes on with. -/
def cell (s : Stem) (w : List Label) : Option (List ActionId × List Label) :=
  (find w s).map fun t => (t.1, t.2.labels)

/-- What is recorded at the end of a word, if there is a node. -/
def read (w : List Label) (s : Stem) : List ActionId :=
  ((find w s).map Prod.fst).getD []

/-- Changes the stem at the end of a word. -/
def alter (φ : Stem → Stem) : List Label → Stem → Stem
  | [], s => φ s
  | k :: w, s => (s.1, s.2.mapTree k (alter φ w))

/-- Makes a node, one label behind the end of a word. -/
def grow (u : List Label) (k : Label) : Stem → Stem :=
  alter (fun t => (t.1, t.2.snoc k)) u

/-- Records an action at the end of a word. -/
def mark (a : ActionId) : List Label → Stem → Stem :=
  alter fun t => (insertId a t.1, t.2)

def strip (a : ActionId) (s : Stem) : Stem :=
  (s.1.filter (· ≠ a), s.2.strip a)

variable {s t : Stem} {u w : List Label} {k : Label} {as bs : List ActionId} {ls : List Label}

theorem find_append (u v : List Label) : find (u ++ v) s = (find u s).bind (find v) := by
  induction u generalizing s with
  | nil => rfl
  | cons k u ih =>
    rw [List.cons_append, find, find]
    cases s.2.tree? k with
    | none => rfl
    | some t => exact ih

theorem find_snoc (u : List Label) (k : Label) : find (u ++ [k]) s = (find u s).bind fun t => t.2.tree? k := by
  rw [find_append]
  congr 1
  funext t
  simp only [find]
  cases t.2.tree? k <;> rfl

theorem cell_of_find (h : find u s = some t) : s.cell u = some (t.1, t.2.labels) := by
  rw [cell, h, Option.map_some]

theorem cell_append (h : find u s = some t) (v : List Label) : s.cell (u ++ v) = cell t v := by
  rw [cell, find_append, h]
  rfl

theorem exists_find (h : s.cell u = some (as, ls)) : ∃ below, find u s = some (as, below) ∧ below.labels = ls := by
  obtain ⟨⟨bs, below⟩, hfind, heq⟩ := Option.map_eq_some_iff.mp h
  cases heq
  exact ⟨below, hfind, rfl⟩

theorem read_of_not_tree (h : s.2.tree? k = none) (w : List Label) : read (k :: w) s = [] := by
  rw [read, find, h]
  rfl

theorem read_of_tree (h : s.2.tree? k = some t) (w : List Label) : read (k :: w) s = read w t := by
  rw [read, find, h]
  rfl

/-- **There is a cell** one label behind a word if the cell of the word has the label. -/
theorem isSome_cell_snoc : (s.cell (u ++ [k])).isSome = true ↔ ∃ as ls, s.cell u = some (as, ls) ∧ k ∈ ls := by
  rw [cell, Option.isSome_map, find_snoc]
  cases hfind : find u s with
  | none => simp [cell, hfind]
  | some t =>
    rw [Option.bind_some, Forest.isSome_tree?, cell_of_find hfind]
    simp

theorem exists_cell_snoc (h : s.cell u = some (as, ls)) (hk : k ∈ ls) : ∃ c, s.cell (u ++ [k]) = some c :=
  Option.isSome_iff_exists.mp (isSome_cell_snoc.mpr ⟨as, ls, h, hk⟩)

/-- The cell from which a word goes on with its last label. -/
theorem exists_cell_of_snoc {c : List ActionId × List Label} (h : s.cell (u ++ [k]) = some c) :
    ∃ as ls, s.cell u = some (as, ls) ∧ k ∈ ls :=
  isSome_cell_snoc.mp (by rw [h, Option.isSome_some])

/-- What a word begins with has a cell if it has. -/
theorem isSome_cell_of_append {v : List Label} (h : (s.cell (u ++ v)).isSome = true) : (s.cell u).isSome = true := by
  rw [cell, Option.isSome_map, find_append] at h
  rw [cell, Option.isSome_map]
  cases hfind : find u s with
  | none => simp [hfind] at h
  | some t => rfl

/-- Nothing goes on with a label that the cell does not have. -/
theorem cell_beyond (h : s.cell u = some (as, ls)) (hk : k ∉ ls) (v : List Label) : s.cell (u ++ k :: v) = none := by
  by_contra hne
  have hsome : (s.cell ((u ++ [k]) ++ v)).isSome = true := by
    rw [List.append_assoc, List.singleton_append]
    exact Option.isSome_iff_ne_none.mpr hne
  obtain ⟨bs, ms, hcell, hmem⟩ := isSome_cell_snoc.mp (isSome_cell_of_append hsome)
  rw [h] at hcell
  cases hcell
  exact hk hmem

/-! ### A change at the end of a word -/

variable (φ ψ : Stem → Stem)

theorem find_alter_append (u v : List Label) : find (u ++ v) (alter φ u s) = (find u s).bind fun t => find v (φ t) := by
  induction u generalizing s with
  | nil => rfl
  | cons k u ih =>
    rw [List.cons_append, find, alter, Forest.tree?_mapTree, if_pos rfl, find]
    cases s.2.tree? k with
    | none => rfl
    | some t => exact ih

theorem find_alter : find u (alter φ u s) = (find u s).map φ := by
  have h := find_alter_append (s := s) φ u []
  rw [List.append_nil] at h
  rw [h]
  cases find u s <;> rfl

theorem cell_alter_append (h : find u s = some t) (v : List Label) : (alter φ u s).cell (u ++ v) = cell (φ t) v := by
  rw [cell, find_alter_append, h]
  rfl

/-- What does not begin with the word is as it was. -/
theorem cell_alter_of_other (h : ¬ u <+: w) : (alter φ u s).cell w = s.cell w := by
  induction u generalizing s w with
  | nil => exact absurd w.nil_prefix h
  | cons k u ih =>
    cases w with
    | nil => simp [cell, find, alter]
    | cons j w =>
      rw [alter, cell, find, Forest.tree?_mapTree, cell, find]
      by_cases hjk : j = k
      · subst hjk
        rw [if_pos rfl]
        have hrest : ¬ u <+: w := fun hpre => h (List.cons_prefix_cons.mpr ⟨rfl, hpre⟩)
        cases s.2.tree? j with
        | none => rfl
        | some t => exact ih hrest
      · rw [if_neg hjk]

theorem alter_append (u v : List Label) : alter φ (u ++ v) s = alter (alter φ v) u s := by
  induction u generalizing s with
  | nil => rfl
  | cons k u ih =>
    have hrest : alter φ (u ++ v) = alter (alter φ v) u := funext fun t => ih
    rw [List.cons_append, alter, alter, hrest]

theorem alter_alter : alter φ u (alter ψ u s) = alter (φ ∘ ψ) u s := by
  induction u generalizing s with
  | nil => rfl
  | cons k u ih =>
    rw [alter, alter, alter, Forest.mapTree_mapTree]
    congr 2
    funext t
    exact ih

variable {φ ψ}

theorem alter_congr (h : find u s = some t) (heq : φ t = ψ t) : alter φ u s = alter ψ u s := by
  induction u generalizing s with
  | nil =>
    cases h
    exact heq
  | cons k u ih =>
    rw [alter, alter, Forest.mapTree_congr fun r hr => ?_]
    rw [find, hr] at h
    exact ih h

/-! ### The cells after each change -/

theorem cell_grow (h : s.cell u = some (as, ls)) (hk : k ∉ ls) (w : List Label) :
    (grow u k s).cell w = if w = u then some (as, ls ++ [k]) else if w = u ++ [k] then some ([], []) else s.cell w := by
  obtain ⟨below, hfind, rfl⟩ := exists_find h
  by_cases hpre : u <+: w
  · obtain ⟨v, rfl⟩ := hpre
    rw [grow, cell_alter_append _ hfind]
    cases v with
    | nil => simp [cell, find]
    | cons j v =>
      rw [cell, find, Forest.tree?_snoc hk]
      by_cases hjk : j = k
      · subst hjk
        cases v with
        | nil => simp [find, Forest.labels]
        | cons i v => simp [find, Forest.tree?, cell_beyond h hk]
      · rw [if_neg hjk, if_neg (by simp), if_neg (by simp [hjk]), cell_append hfind]
        rfl
  · have hne : w ≠ u := fun heq => hpre (heq ▸ List.prefix_rfl)
    have hne' : w ≠ u ++ [k] := fun heq => hpre (heq ▸ List.prefix_append u [k])
    rw [grow, cell_alter_of_other _ hpre, if_neg hne, if_neg hne']

theorem cell_mark (a : ActionId) (h : s.cell u = some (as, ls)) (w : List Label) :
    (mark a u s).cell w = if w = u then some (insertId a as, ls) else s.cell w := by
  obtain ⟨below, hfind, rfl⟩ := exists_find h
  by_cases hpre : u <+: w
  · obtain ⟨v, rfl⟩ := hpre
    rw [mark, cell_alter_append _ hfind]
    cases v with
    | nil => simp [cell, find]
    | cons j v =>
      rw [if_neg (by simp), cell_append hfind]
      rfl
  · have hne : w ≠ u := fun heq => hpre (heq ▸ List.prefix_rfl)
    rw [mark, cell_alter_of_other _ hpre, if_neg hne]

theorem alter_cut (u : List Label) (k : Label) (as : List ActionId) (f : Forest) :
    alter (fun t => (t.1, t.2.cut [k])) u (as, f) = (as, f.cut (u ++ [k])) := by
  induction u generalizing as f with
  | nil => rfl
  | cons j u ih =>
    have hrest : alter (fun t => (t.1, t.2.cut [k])) u = fun t => (t.1, t.2.cut (u ++ [k])) :=
      funext fun t => ih t.1 t.2
    obtain ⟨i, v, hv⟩ := List.exists_cons_of_ne_nil (show u ++ [k] ≠ [] by simp)
    rw [alter, hrest, List.cons_append, hv, Forest.cut_cons]

/-- Dropping a node with nothing below it. -/
theorem cell_cut {f : Forest} (h : cell (as, f) u = some (bs, ls)) (hls : ls.Nodup)
    (hdead : cell (as, f) (u ++ [k]) = some ([], [])) (w : List Label) :
    cell (as, f.cut (u ++ [k])) w =
      if w = u then some (bs, ls.erase k) else if w = u ++ [k] then none else cell (as, f) w := by
  obtain ⟨below, hfind, rfl⟩ := exists_find h
  rw [← alter_cut]
  by_cases hpre : u <+: w
  · obtain ⟨v, rfl⟩ := hpre
    rw [cell_alter_append _ hfind]
    cases v with
    | nil => simp [cell, find, Forest.labels_cut_singleton]
    | cons j v =>
      rw [cell, find, Forest.tree?_cut_singleton hls]
      by_cases hjk : j = k
      · subst hjk
        cases v with
        | nil => simp
        | cons i v =>
          have hnone := cell_beyond hdead (k := i) (List.not_mem_nil) v
          rw [List.append_assoc, List.singleton_append] at hnone
          simp [hnone]
      · rw [if_neg hjk, if_neg (by simp), if_neg (by simp [hjk]), cell_append hfind]
        rfl
  · have hne : w ≠ u := fun heq => hpre (heq ▸ List.prefix_rfl)
    have hne' : w ≠ u ++ [k] := fun heq => hpre (heq ▸ List.prefix_append u [k])
    rw [cell_alter_of_other _ hpre, if_neg hne, if_neg hne']

theorem isSome_of_cut {f : Forest} (h : cell (as, f) u = some (bs, ls)) (hls : ls.Nodup)
    (hdead : cell (as, f) (u ++ [k]) = some ([], [])) (hw : (cell (as, f.cut (u ++ [k])) w).isSome = true) :
    (cell (as, f) w).isSome = true := by
  rw [cell_cut h hls hdead] at hw
  split at hw
  · rename_i hwu
    rw [hwu, h, Option.isSome_some]
  · split at hw
    · cases hw
    · exact hw

theorem cell_strip (a : ActionId) : (strip a s).cell w = (s.cell w).map fun c => (c.1.filter (· ≠ a), c.2) := by
  induction w generalizing s with
  | nil => simp [cell, find, strip, Forest.labels_strip]
  | cons k w ih =>
    rw [cell, find, strip, Forest.tree?_strip, cell, find]
    cases s.2.tree? k with
    | none => rfl
    | some t => exact ih

/-! ### What every cell is like -/

/-- Every cell is as it has to be for a forest of which each node is an object or a collection
or neither. Nothing is said about which nodes lead to actions. -/
structure Kempt (s : Stem) : Prop where
  ascending : ∀ {w as ls}, s.cell w = some (as, ls) → as.Pairwise (· < ·)
  siblings : ∀ {w as ls}, s.cell w = some (as, ls) → Siblings ls
  /-- Only what is at a property is a collection. -/
  member : ∀ {w as ls}, s.cell w = some (as, ls) → .member ∈ ls → ∃ u n, w = u ++ [.field n]

theorem Kempt.mono (h : s.Kempt)
    (hsub : ∀ {w bs ms}, t.cell w = some (bs, ms) → ∃ as ls, s.cell w = some (as, ls) ∧ bs.Sublist as ∧ ms.Sublist ls) :
    t.Kempt where
  ascending hcell := by
    obtain ⟨as, ls, hcell', has, -⟩ := hsub hcell
    exact (h.ascending hcell').sublist has
  siblings hcell := by
    obtain ⟨as, ls, hcell', -, hls⟩ := hsub hcell
    exact (h.siblings hcell').sublist hls
  member hcell hm := by
    obtain ⟨as, ls, hcell', -, hls⟩ := hsub hcell
    exact h.member hcell' (hls.subset hm)

theorem Kempt.grow (h : s.Kempt) (hu : s.cell u = some (as, ls)) (hk : k ∉ ls)
    (halike : ∀ j ∈ ls, j.sameKind k = true) (hmember : k = .member → ∃ v n, u = v ++ [.field n]) :
    (grow u k s).Kempt := by
  have hcases : ∀ {w bs ms}, (Stem.grow u k s).cell w = some (bs, ms) →
      (w = u ∧ bs = as ∧ ms = ls ++ [k]) ∨ (bs = [] ∧ ms = []) ∨ s.cell w = some (bs, ms) := by
    intro w bs ms hcell
    rw [cell_grow hu hk] at hcell
    split at hcell
    · rename_i hwu
      cases hcell
      exact Or.inl ⟨hwu, rfl, rfl⟩
    · split at hcell
      · cases hcell
        exact Or.inr (Or.inl ⟨rfl, rfl⟩)
      · exact Or.inr (Or.inr hcell)
  refine ⟨fun hcell => ?_, fun hcell => ?_, fun hcell hm => ?_⟩
  · rcases hcases hcell with ⟨-, rfl, -⟩ | ⟨rfl, -⟩ | hcell
    · exact h.ascending hu
    · exact .nil
    · exact h.ascending hcell
  · rcases hcases hcell with ⟨-, -, rfl⟩ | ⟨-, rfl⟩ | hcell
    · exact (h.siblings hu).snoc hk halike
    · exact ⟨List.nodup_nil, by simp⟩
    · exact h.siblings hcell
  · rcases hcases hcell with ⟨rfl, -, rfl⟩ | ⟨-, rfl⟩ | hcell
    · rcases List.mem_append.mp hm with hm | hm
      · exact h.member hu hm
      · exact hmember (List.mem_singleton.mp hm).symm
    · cases hm
    · exact h.member hcell hm

theorem Kempt.strip (h : s.Kempt) (a : ActionId) : (strip a s).Kempt := by
  refine h.mono fun {w bs ms} hcell => ?_
  rw [cell_strip] at hcell
  obtain ⟨⟨as, ls⟩, hcell', heq⟩ := Option.map_eq_some_iff.mp hcell
  cases heq
  exact ⟨as, ls, hcell', List.filter_sublist, List.Sublist.refl _⟩

theorem Kempt.cut {f : Forest} (h : Kempt (as, f)) (hu : cell (as, f) u = some (bs, ls))
    (hdead : cell (as, f) (u ++ [k]) = some ([], [])) : Kempt (as, f.cut (u ++ [k])) := by
  refine h.mono fun {w cs ms} hcell => ?_
  rw [cell_cut hu (h.siblings hu).nodup hdead] at hcell
  split at hcell
  · rename_i hwu
    cases hcell
    exact ⟨_, _, hwu ▸ hu, List.Sublist.refl _, List.erase_sublist⟩
  · split at hcell
    · cases hcell
    · exact ⟨_, _, hcell, List.Sublist.refl _, List.Sublist.refl _⟩

end Stem

/-! ### What a graph is made of -/

namespace Forest

theorem Tidy.siblings {f : Forest} (hf : f.Tidy) : Siblings f.labels := by
  refine ⟨?_, sameKind_labels hf⟩
  induction f with
  | nil => exact List.nodup_nil
  | node l as below next _ ihn => exact List.nodup_cons.mpr ⟨hf.1.1, ihn hf.2.2.2.2.2⟩

theorem descend_of_find {f : Forest} {as : List ActionId} {w : List Label} {t : Stem}
    (h : Stem.find w (as, f) = some t) : f.descend w = t.2 := by
  induction w generalizing f as with
  | nil =>
    cases h
    exact descend_nil f
  | cons k w ih =>
    obtain ⟨⟨bs, below⟩, htree, hrest⟩ := Option.bind_eq_some_iff.mp h
    rw [descend_of_tree htree, ih hrest]

theorem descend_of_not_find {f : Forest} {as : List ActionId} {w : List Label} (h : Stem.find w (as, f) = none) :
    f.descend w = nil := by
  induction w generalizing f as with
  | nil => cases h
  | cons k w ih =>
    rw [Stem.find] at h
    cases htree : f.tree? k with
    | none => exact descend_of_not_mem (tree?_eq_none.mp htree)
    | some t =>
      rw [htree, Option.bind_some] at h
      rw [descend_of_tree htree, ih h]

theorem actionsAt_eq_read (f : Forest) (as : List ActionId) (k : Label) (w : List Label) :
    f.actionsAt k w = Stem.read (k :: w) (as, f) := by
  induction w generalizing f as k with
  | nil =>
    cases htree : f.tree? k with
    | none => rw [Stem.read_of_not_tree htree, actionsAt_of_not_mem (tree?_eq_none.mp htree)]
    | some t =>
      rw [Stem.read_of_tree htree, (actionsAt_of_tree htree).1]
      rfl
  | cons j w ih =>
    cases htree : f.tree? k with
    | none => rw [Stem.read_of_not_tree htree, actionsAt_of_not_mem (tree?_eq_none.mp htree)]
    | some t => rw [Stem.read_of_tree htree, (actionsAt_of_tree htree).2, ih t.2 t.1]

end Forest

namespace Graph

/-- The root, which no action is recorded at. -/
def stem (g : Graph) : Stem :=
  ([], g.top)

theorem Sound.kempt {g : Graph} (hg : g.Sound) : g.stem.Kempt := by
  have hbelow : ∀ {w as ls}, g.stem.cell w = some (as, ls) → (g.top.descend w).labels = ls := by
    intro w as ls hcell
    obtain ⟨below, hfind, rfl⟩ := Stem.exists_find hcell
    rw [Forest.descend_of_find hfind]
  refine ⟨fun {w as ls} hcell => ?_, fun hcell => ?_, fun {w as ls} hcell hm => ?_⟩
  · obtain ⟨below, hfind, -⟩ := Stem.exists_find hcell
    cases w with
    | nil =>
      cases hfind
      exact .nil
    | cons k w =>
      have has : g.top.actionsAt k w = as := by
        rw [Forest.actionsAt_eq_read g.top [], Stem.read, show Stem.find (k :: w) ([], g.top) = _ from hfind]
        rfl
      rw [← has]
      exact Forest.actionsAt_ascending hg.1 k w
  · rw [← hbelow hcell]
    exact (Forest.descend_tidy _ hg.1).siblings
  · rw [← hbelow hcell] at hm
    rcases w.eq_nil_or_concat with rfl | ⟨u, k, rfl⟩
    · rw [Forest.descend_nil] at hm
      exact absurd hm hg.2
    · rw [List.concat_eq_append] at hm ⊢
      cases k with
      | field n => exact ⟨u, n, rfl⟩
      | member => exact absurd hm (Forest.not_member_below_member hg.1 u)

end Graph
end LiveRules
