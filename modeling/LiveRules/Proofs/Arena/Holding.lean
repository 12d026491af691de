/-
# What the nodes of an arena stand for

An arena *holds* a forest if its nodes are the cells of the forest, one for each word there
is, under keys that tell the words apart. A node then has the name of the last label of its
word, the key of the word without it as its parent, and the keys of the words that go one
label further as its children. A node without children is a leaf. Only the root is an object
without properties, and for a moment one that has just been gone on from.

Key definitions: `Arena.nodeAt`, `Arena.HoldsCells`, `Arena.Holds`.
Key theorems: `Arena.HoldsCells.insert`, `Arena.HoldsCells.replace`,
`Arena.HoldsCells.remove`, `Arena.Holds.grow`, `Arena.Holds.cut`, `Arena.Holds.strip`.
-/
import LiveRules.Graph.Arena
import LiveRules.Proofs.Arena.Stems
import Mathlib.Logic.Function.Basic

namespace LiveRules
namespace Arena

variable {κ : Type}

/-! ### Nodes for cells -/

/-- The last label's name; the root has none. -/
def nameAt (w : List Label) : String :=
  (w.getLast?.map Label.name).getD ""

section

variable (key : List Label → κ) (hollow w : List Label)

/-- The children of a word that goes on with these labels. The word `hollow` is an object
even if it does not go on. -/
def branchAt : List Label → Branch κ
  | [] => if w = [] ∨ w = hollow then .plain [] else .leaf
  | .member :: _ => .collection (key (w ++ [.member]))
  | ls => .plain (ls.map fun l => (l.name, key (w ++ [l])))

def nodeAt (c : List ActionId × List Label) : Node κ where
  name := nameAt w
  parent := if w = [] then none else some (key w.dropLast)
  actions := c.1
  branch := branchAt key hollow w c.2

end

variable {key key' : List Label → κ} {hollow hollow' u w : List Label} {k : Label}
  {as : List ActionId} {ls : List Label}

theorem branchAt_of_fields (hm : .member ∉ ls) :
    branchAt key hollow w ls =
      if ls = [] ∧ w ≠ [] ∧ w ≠ hollow then .leaf else .plain (ls.map fun l => (l.name, key (w ++ [l]))) := by
  cases ls with
  | nil =>
    rw [branchAt]
    by_cases hw : w = [] ∨ w = hollow
    · rw [if_pos hw, if_neg (by tauto)]
      rfl
    · rw [if_neg hw, if_pos (by tauto)]
  | cons l ls =>
    cases l with
    | field n => rfl
    | member => exact absurd List.mem_cons_self hm

/-- **The children** of a node are its words one label further. -/
theorem children_branchAt (hls : Siblings ls) :
    (branchAt key hollow w ls).children = ls.map fun l => (l.name, key (w ++ [l])) := by
  by_cases hm : .member ∈ ls
  · rw [hls.eq_singleton hm]
    rfl
  · rw [branchAt_of_fields hm]
    split
    · rename_i hnil
      rw [hnil.1]
      rfl
    · rfl

/-- What is not the root is one of three kinds. -/
theorem branchAt_cases (key : List Label → κ) (hw : w ≠ []) (hls : Siblings ls) :
    (ls = [] ∧ branchAt key [] w ls = .leaf) ∨ (.member ∈ ls ∧ ∃ i, branchAt key [] w ls = .collection i) ∨
      (ls ≠ [] ∧ .member ∉ ls ∧ ∃ children, branchAt key [] w ls = .plain children) := by
  by_cases hm : .member ∈ ls
  · refine Or.inr (Or.inl ⟨hm, ?_⟩)
    rw [hls.eq_singleton hm]
    exact ⟨_, rfl⟩
  · rw [branchAt_of_fields hm]
    by_cases hnil : ls = []
    · exact Or.inl ⟨hnil, if_pos ⟨hnil, hw, hw⟩⟩
    · exact Or.inr (Or.inr ⟨hnil, hm, _, if_neg fun hleaf => hnil hleaf.1⟩)

theorem nodeAt_congr {c : List ActionId × List Label} (hparent : w ≠ [] → key' w.dropLast = key w.dropLast)
    (hchildren : ∀ l ∈ c.2, key' (w ++ [l]) = key (w ++ [l]))
    (hhollow : c.2 = [] → w ≠ [] → (w = hollow' ↔ w = hollow)) : nodeAt key' hollow' w c = nodeAt key hollow w c := by
  obtain ⟨as, ls⟩ := c
  have hp : (if w = [] then none else some (key' w.dropLast)) = if w = [] then none else some (key w.dropLast) := by
    by_cases hw : w = []
    · rw [if_pos hw, if_pos hw]
    · rw [if_neg hw, if_neg hw, hparent hw]
  have hb : branchAt key' hollow' w ls = branchAt key hollow w ls := by
    match ls with
    | [] =>
      by_cases hw : w = []
      · simp [branchAt, hw]
      · simp [branchAt, hw, hhollow rfl hw]
    | .member :: ls => simp [branchAt, hchildren .member List.mem_cons_self]
    | .field n :: ls =>
      rw [branchAt, branchAt]
      · congr 1
        exact List.map_congr_left fun l hl => by rw [hchildren l hl]
      all_goals simp
  rw [nodeAt, nodeAt, hp, hb]

theorem isDead_nodeAt {c : List ActionId × List Label} : (nodeAt key hollow w c).isDead = true ↔ c = ([], []) := by
  obtain ⟨as, ls⟩ := c
  have hchildren : (branchAt key hollow w ls).children.isEmpty = true ↔ ls = [] := by
    match ls with
    | [] =>
      rw [branchAt]
      split <;> simp [Branch.children]
    | .member :: ls => simp [branchAt, Branch.children]
    | .field n :: ls => simp [branchAt, Branch.children]
  rw [Node.isDead, Bool.and_eq_true, nodeAt, hchildren]
  simp

theorem nameAt_snoc : nameAt (u ++ [k]) = k.name := by
  simp [nameAt]

/-! ### Holding cells -/

variable [DecidableEq κ] (M : SlotMap κ (Node κ))

/-- The nodes are the cells that some words have, each under its own key. -/
structure HoldsCells (nodes : M.Map) (cells : List Label → Option (List ActionId × List Label))
    (key : List Label → κ) (hollow : List Label) : Prop where
  node : ∀ {w c}, cells w = some c → M.get? nodes (key w) = some (nodeAt key hollow w c)
  live : ∀ {k}, (M.get? nodes k).isSome = true → ∃ w c, cells w = some c ∧ key w = k
  apart : ∀ {v w c d}, cells v = some c → cells w = some d → key v = key w → v = w

variable {M} {nodes nodes' : M.Map} {c c' : List ActionId × List Label}

section

variable {cells : List Label → Option (List ActionId × List Label)} (h : HoldsCells M nodes cells key hollow)

include h

/-- A new key is no cell's. -/
theorem HoldsCells.fresh (hw : cells w = some c) (n : Node κ) : (M.insert nodes n).1 ≠ key w := by
  intro heq
  have hnone := M.get?_new nodes n
  rw [heq, h.node hw] at hnone
  cases hnone

/-- **A node is put in** for a word that is neither listed nor gone on from. -/
theorem HoldsCells.insert (hu : cells u = none) (hbelow : ∀ {w d}, cells w = some d → w ≠ [] → w.dropLast ≠ u)
    (hlisted : ∀ {w d}, cells w = some d → ∀ l ∈ d.2, w ++ [l] ≠ u) :
    let r := M.insert nodes (nodeAt key hollow u c)
    HoldsCells M r.2 (Function.update cells u (some c)) (Function.update key u r.1) hollow := by
  intro r
  have hother : ∀ {w}, w ≠ u → Function.update key u r.1 w = key w := fun hwu => Function.update_of_ne hwu ..
  have hold : ∀ {w d}, cells w = some d → w ≠ u ∧ r.1 ≠ key w := by
    refine fun {w d} hw => ⟨?_, h.fresh hw _⟩
    rintro rfl
    rw [hu] at hw
    cases hw
  refine ⟨fun {w d} hw => ?_, fun {j} hj => ?_, fun {v w d e} hv hw heq => ?_⟩
  · by_cases hwu : w = u
    · subst hwu
      rw [Function.update_self] at hw
      cases hw
      rw [Function.update_self, M.get?_insert, if_pos rfl]
      refine congrArg some (nodeAt_congr (fun hne => hother fun heq => ?_) (fun l _ => hother ?_)
        fun _ _ => Iff.rfl).symm
      · have hlength := congrArg List.length heq
        rw [List.length_dropLast] at hlength
        have := List.length_pos_of_ne_nil hne
        omega
      · simp
    · rw [Function.update_of_ne hwu] at hw
      rw [hother hwu, M.get?_insert, if_neg (hold hw).2, h.node hw]
      exact congrArg some
        (nodeAt_congr (fun hne => hother (hbelow hw hne)) (fun l hl => hother (hlisted hw l hl))
          fun _ _ => Iff.rfl).symm
  · rw [M.get?_insert] at hj
    by_cases hjr : r.1 = j
    · exact ⟨u, c, Function.update_self .., (Function.update_self ..).trans hjr⟩
    · rw [if_neg hjr] at hj
      obtain ⟨w, d, hw, rfl⟩ := h.live hj
      exact ⟨w, d, by rw [Function.update_of_ne (hold hw).1, hw], hother (hold hw).1⟩
  · by_cases hvu : v = u <;> by_cases hwu : w = u
    · rw [hvu, hwu]
    · rw [Function.update_of_ne hwu] at hw
      rw [hvu, Function.update_self, hother hwu] at heq
      exact absurd heq (hold hw).2
    · rw [Function.update_of_ne hvu] at hv
      rw [hwu, Function.update_self, hother hvu] at heq
      exact absurd heq.symm (hold hv).2
    · rw [Function.update_of_ne hvu] at hv
      rw [Function.update_of_ne hwu] at hw
      rw [hother hvu, hother hwu] at heq
      exact h.apart hv hw heq

/-- **A node is changed.** Of the others, those without children stay as they are. -/
theorem HoldsCells.replace (hu : cells u = some c)
    (hhollow : ∀ {w as}, cells w = some (as, []) → w ≠ u → w ≠ [] → (w = hollow' ↔ w = hollow)) :
    HoldsCells M (M.replace nodes (key u) (nodeAt key hollow' u c')) (Function.update cells u (some c')) key
      hollow' := by
  have hsome : (M.get? nodes (key u)).isSome = true := by rw [h.node hu, Option.isSome_some]
  have hplace : ∀ {w d}, Function.update cells u (some c') w = some d → ∃ e, cells w = some e := by
    intro w d hw
    by_cases hwu : w = u
    · exact ⟨c, hwu ▸ hu⟩
    · exact ⟨d, by rwa [Function.update_of_ne hwu] at hw⟩
  refine ⟨fun {w d} hw => ?_, fun {j} hj => ?_, fun {v w d e} hv hw heq => ?_⟩
  · rw [M.get?_replace _ _ hsome]
    by_cases hwu : w = u
    · subst hwu
      rw [Function.update_self] at hw
      cases hw
      rw [if_pos rfl]
    · rw [Function.update_of_ne hwu] at hw
      rw [if_neg fun heq => hwu (h.apart hw hu heq.symm), h.node hw]
      obtain ⟨bs, ms⟩ := d
      refine congrArg some (nodeAt_congr (fun _ => rfl) (fun l _ => rfl) fun hnil hne => ?_).symm
      cases hnil
      exact hhollow hw hwu hne
  · rw [M.get?_replace _ _ hsome] at hj
    by_cases hju : key u = j
    · exact ⟨u, c', Function.update_self .., hju⟩
    · rw [if_neg hju] at hj
      obtain ⟨w, d, hw, rfl⟩ := h.live hj
      exact ⟨w, d, by rw [Function.update_of_ne fun heq => hju (by rw [heq]), hw], rfl⟩
  · obtain ⟨d', hv⟩ := hplace hv
    obtain ⟨e', hw⟩ := hplace hw
    exact h.apart hv hw heq

/-- **A node is taken out.** -/
theorem HoldsCells.remove (hu : cells u = some c) :
    HoldsCells M (M.remove nodes (key u)) (Function.update cells u none) key hollow := by
  have hplace : ∀ {w d}, Function.update cells u none w = some d → w ≠ u ∧ cells w = some d := by
    intro w d hw
    by_cases hwu : w = u
    · rw [hwu, Function.update_self] at hw
      cases hw
    · exact ⟨hwu, by rwa [Function.update_of_ne hwu] at hw⟩
  refine ⟨fun {w d} hw => ?_, fun {j} hj => ?_, fun {v w d e} hv hw heq => ?_⟩
  · obtain ⟨hwu, hw⟩ := hplace hw
    rw [M.get?_remove, if_neg fun heq => hwu (h.apart hw hu heq.symm), h.node hw]
  · rw [M.get?_remove] at hj
    by_cases hju : key u = j
    · simp [hju] at hj
    · rw [if_neg hju] at hj
      obtain ⟨w, d, hw, rfl⟩ := h.live hj
      exact ⟨w, d, by rw [Function.update_of_ne fun heq => hju (by rw [heq]), hw], rfl⟩
  · exact h.apart (hplace hv).2 (hplace hw).2 heq

end

/-! ### Holding a forest -/

variable (M) in
/-- See the head of this file. -/
structure Holds (nodes : M.Map) (s : Stem) (key : List Label → κ) (hollow : List Label) : Prop
    extends HoldsCells M nodes s.cell key hollow where
  there : (s.cell hollow).isSome = true

variable {s t : Stem}

section

variable (h : Holds M nodes s key hollow)

include h

theorem Holds.look (hw : s.cell w = some c) : look M nodes (key w) = .ok (nodeAt key hollow w c) :=
  look_eq_ok.mpr (h.node hw)

theorem Holds.isSome (hw : s.cell w = some c) : (M.get? nodes (key w)).isSome = true := by
  rw [h.node hw, Option.isSome_some]

/-- An object that has been given properties need not be pointed out. -/
theorem Holds.filled (hu : s.cell hollow = some (as, ls)) (hls : ls ≠ []) : Holds M nodes s key [] where
  node {w c} hw := by
    rw [h.node hw]
    refine congrArg some (nodeAt_congr (fun _ => rfl) (fun l _ => rfl) fun hnil hne => ?_)
    have hother : w ≠ hollow := by
      rintro rfl
      rw [hu] at hw
      cases hw
      exact hls hnil
    exact iff_of_false hother hne
  live := h.live
  apart := h.apart
  there := rfl

/-- **A new node** is put in, and on the list of its parent. -/
theorem Holds.grow (hu : s.cell u = some (as, ls)) (hk : k ∉ ls) :
    let r := M.insert nodes { name := k.name, parent := some (key u) }
    let key' := Function.update key (u ++ [k]) r.1
    Holds M (M.replace r.2 (key u) (nodeAt key' hollow u (as, ls ++ [k]))) (Stem.grow u k s) key' hollow := by
  intro r key'
  have hnone : s.cell (u ++ [k]) = none := Stem.cell_beyond hu hk []
  have hne : u ≠ u ++ [k] := by simp
  have hhollow : u ++ [k] ≠ hollow := by
    rintro rfl
    have hthere := h.there
    rw [hnone] at hthere
    cases hthere
  have hnode : nodeAt key hollow (u ++ [k]) ([], []) = { name := k.name, parent := some (key u) } := by
    simp [nodeAt, nameAt_snoc, branchAt, hhollow]
  have hinserted : HoldsCells M r.2 (Function.update s.cell (u ++ [k]) (some ([], []))) key' hollow := by
    have hinsert := h.insert (c := ([], [])) hnone (fun {w d} hw hne heq => ?_) fun {w d} hw l hl heq => ?_
    · rwa [hnode] at hinsert
    · -- what goes on from a word that is not there is not there either
      obtain ⟨v, j, rfl⟩ := (List.eq_nil_or_concat' w).resolve_left hne
      obtain ⟨bs, ms, hv, -⟩ := Stem.exists_cell_of_snoc hw
      rw [List.dropLast_concat] at heq
      rw [heq, hnone] at hv
      cases hv
    · obtain ⟨e, he⟩ := Stem.exists_cell_snoc hw hl
      rw [heq, hnone] at he
      cases he
  have hcell : (Stem.grow u k s).cell =
      Function.update (Function.update s.cell (u ++ [k]) (some ([], []))) u (some (as, ls ++ [k])) := by
    funext w
    rw [Stem.cell_grow hu hk, Function.update_apply, Function.update_apply]
  refine ⟨?_, ?_⟩
  · rw [hcell, ← show key' u = key u from Function.update_of_ne hne ..]
    exact hinserted.replace ((Function.update_of_ne hne ..).trans hu) fun _ _ _ => Iff.rfl
  · rw [Stem.cell_grow hu hk]
    split
    · rfl
    · rw [if_neg hhollow.symm]
      exact h.there

/-- **A node is changed**, and has its key and its place. -/
theorem Holds.replace (hu : s.cell u = some c) (ht : ∀ w, t.cell w = if w = u then some c' else s.cell w)
    (hthere : (t.cell hollow').isSome = true)
    (hhollow : ∀ {w as}, s.cell w = some (as, []) → w ≠ u → w ≠ [] → (w = hollow' ↔ w = hollow)) :
    Holds M (M.replace nodes (key u) (nodeAt key hollow' u c')) t key hollow' := by
  have hcell : t.cell = Function.update s.cell u (some c') := by
    funext w
    rw [ht, Function.update_apply]
  exact ⟨hcell ▸ h.toHoldsCells.replace hu hhollow, hthere⟩

/-- **Every node is changed** alike. -/
theorem Holds.strip {a : ActionId}
    (hget : ∀ k, M.get? nodes' k = (M.get? nodes k).map fun n => { n with actions := n.actions.filter (· ≠ a) }) :
    Holds M nodes' (Stem.strip a s) key hollow where
  node {w d} hw := by
    rw [Stem.cell_strip] at hw
    obtain ⟨e, hw', rfl⟩ := Option.map_eq_some_iff.mp hw
    rw [hget, h.node hw']
    rfl
  live {k} hk := by
    rw [hget, Option.isSome_map] at hk
    obtain ⟨w, d, hw, hkey⟩ := h.live hk
    exact ⟨w, _, by rw [Stem.cell_strip, hw, Option.map_some], hkey⟩
  apart {v w d e} hv hw := by
    rw [Stem.cell_strip] at hv hw
    obtain ⟨d', hv, -⟩ := Option.map_eq_some_iff.mp hv
    obtain ⟨e', hw, -⟩ := Option.map_eq_some_iff.mp hw
    exact h.apart hv hw
  there := by
    rw [Stem.cell_strip, Option.isSome_map]
    exact h.there

end

/-- **A dead node is taken out**, and off the list of its parent. -/
theorem Holds.cut {f : Forest} {bs : List ActionId} (h : Holds M nodes (as, f) key [])
    (hu : Stem.cell (as, f) u = some (bs, ls)) (hls : ls.Nodup) (hdead : Stem.cell (as, f) (u ++ [k]) = some ([], [])) :
    Holds M (M.replace (M.remove nodes (key (u ++ [k]))) (key u) (nodeAt key [] u (bs, ls.erase k)))
      (as, f.cut (u ++ [k])) key [] := by
  have hne : u ≠ u ++ [k] := by simp
  have hcell : Stem.cell (as, f.cut (u ++ [k])) =
      Function.update (Function.update (Stem.cell (as, f)) (u ++ [k]) none) u (some (bs, ls.erase k)) := by
    funext w
    rw [Stem.cell_cut hu hls hdead, Function.update_apply, Function.update_apply]
  refine ⟨?_, rfl⟩
  rw [hcell]
  exact (h.remove hdead).replace ((Function.update_of_ne hne ..).trans hu) fun _ _ _ => Iff.rfl

end Arena
end LiveRules
