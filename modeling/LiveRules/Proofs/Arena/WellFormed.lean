/-
# Arenas are trees

Keys lead from a node to its children and to its parent. That both agree, that every node
but the root is listed in one place, and that going from child to child ends, is nowhere
checked. It holds since the arena holds a forest, whatever has been done to it: paths are
recorded, and perhaps refused, actions are removed, and graphs are copied. So nothing that
is done to an arena or asked of it comes upon a key that leads nowhere, or upon a node of a
kind that cannot be.

Key definitions: `Arena.WellFormed`, `Arena.Answers`, `Arena.Move`, `Arena.played`.
Key theorems: `Arena.HoldsGraph.wellFormed`, `Arena.HoldsGraph.answers`,
`Arena.play_kept`, `arenas_stay_well_formed`.
-/
import LiveRules.Proofs.Arena.Reading
import Mathlib.Logic.Relation

namespace LiveRules
namespace Arena

variable {κ : Type} [DecidableEq κ] {M : SlotMap κ (Node κ)}

/-- The node with the key `k` has the key `c` on its list of children. -/
def Lists (x : Arena M) (k c : κ) : Prop :=
  ∃ n, M.get? x.nodes k = some n ∧ c ∈ n.branch.children.map (·.2)

/-- The node with the key `k` has the key `p` for its parent. -/
def Under (x : Arena M) (k p : κ) : Prop :=
  ∃ n, M.get? x.nodes k = some n ∧ n.parent = some p

structure WellFormed (x : Arena M) : Prop where
  /-- The root is there; it has no parent and is an object. -/
  root : ∃ n children, M.get? x.nodes x.root = some n ∧ n.parent = none ∧ n.branch = .plain children
  /-- Every other node has a parent, which is there. It is listed there once, as a property
  under its own name, or as the member node. -/
  listed : ∀ {k n}, M.get? x.nodes k = some n → k ≠ x.root →
    ∃ p m, n.parent = some p ∧ M.get? x.nodes p = some m ∧
      ((∃ children, m.branch = .plain children ∧ children.filter (·.2 = k) = [(n.name, k)]) ∨
        m.branch = .collection k ∧ n.name = "[]")
  /-- What is listed is there, and has the node that lists it for its parent. -/
  back : ∀ {k n e}, M.get? x.nodes k = some n → e ∈ n.branch.children →
    ∃ m, M.get? x.nodes e.2 = some m ∧ m.parent = some k ∧ m.name = e.1
  names : ∀ {k n}, M.get? x.nodes k = some n → (n.branch.children.map (·.1)).Nodup
  climb : ∀ {k}, (M.get? x.nodes k).isSome = true → Relation.ReflTransGen x.Under k x.root
  /-- A member node is not itself a collection. -/
  member : ∀ {k n i m}, M.get? x.nodes k = some n → n.branch = .collection i → M.get? x.nodes i = some m →
    ∀ j, m.branch ≠ .collection j
  /-- Only the root can be an object without properties. -/
  filled : ∀ {k n}, M.get? x.nodes k = some n → n.branch = .plain [] → k = x.root
  ascending : ∀ {k n}, M.get? x.nodes k = some n → n.actions.Pairwise (· < ·)
  /-- There is an action at every node but the root or below it. -/
  alive : ∀ {k n}, M.get? x.nodes k = some n → k ≠ x.root →
    ∃ j m, Relation.ReflTransGen x.Lists k j ∧ M.get? x.nodes j = some m ∧ m.actions ≠ []
  /-- Going from child to child ends. -/
  ends : WellFounded fun c k => x.Lists k c

/-! ### From word to word -/

section

variable {x : Arena M} {s t : Stem} {key : List Label → κ} {v w : List Label}

section

variable (h : Holds M x.nodes s key []) (hs : s.Kempt)

include h

theorem exists_word {k : κ} {n : Node κ} (hk : M.get? x.nodes k = some n) :
    ∃ w as below, k = key w ∧ n = nodeAt key [] w (as, below.labels) ∧ Stem.find w s = some (as, below) := by
  obtain ⟨w, ⟨as, ls⟩, hw, rfl⟩ := h.live (by rw [hk]; rfl)
  obtain ⟨below, hfind, rfl⟩ := Stem.exists_find hw
  rw [h.node hw] at hk
  cases hk
  exact ⟨w, as, below, rfl, rfl, hfind⟩

include hs

theorem lists_iff (hw : Stem.find w s = some t) {c : κ} :
    x.Lists (key w) c ↔ ∃ l ∈ t.2.labels, c = key (w ++ [l]) := by
  have hnode := h.node (Stem.cell_of_find hw)
  have hchildren : (nodeAt key [] w (t.1, t.2.labels)).branch.children = links key w t.2 := branch_links hs hw
  rw [Lists, hnode]
  simp [hchildren, links, eq_comm]

/-- **Every word** is below what it begins with. -/
theorem lists_append (v : List Label) (hw : (s.cell (w ++ v)).isSome = true) :
    Relation.ReflTransGen x.Lists (key w) (key (w ++ v)) := by
  induction v using List.reverseRecOn with
  | nil => rw [List.append_nil]
  | append_singleton u l ih =>
    rw [← List.append_assoc] at hw ⊢
    obtain ⟨as, ls, hu, hl⟩ := Stem.isSome_cell_snoc.mp hw
    obtain ⟨below, hfind, rfl⟩ := Stem.exists_find hu
    exact (ih (by rw [hu]; rfl)).tail ((lists_iff h hs hfind).mpr ⟨l, hl, rfl⟩)

omit hs in
/-- **From every word** the parents lead to the root. -/
theorem climb_word (hw : (s.cell w).isSome = true) : Relation.ReflTransGen x.Under (key w) (key []) := by
  induction w using List.reverseRecOn with
  | nil => exact .refl
  | append_singleton u l ih =>
    obtain ⟨c, hc⟩ := Option.isSome_iff_exists.mp hw
    obtain ⟨as, ls, hu, -⟩ := Stem.isSome_cell_snoc.mp hw
    refine .head ⟨_, h.node hc, ?_⟩ (ih (by rw [hu]; rfl))
    simp [nodeAt]

/-- **Going from child to child** goes down the forest. -/
theorem acc_word (hw : Stem.find w s = some t) : Acc (fun c k => x.Lists k c) (key w) := by
  induction hsize : t.2.size using Nat.strong_induction_on generalizing w t with
  | h size ih =>
    refine Acc.intro _ fun c hc => ?_
    obtain ⟨l, hl, rfl⟩ := (lists_iff h hs hw).mp hc
    obtain ⟨r, hr⟩ := Option.isSome_iff_exists.mp (Forest.isSome_tree?.mpr hl)
    have hlt := Forest.size_of_tree hr
    exact ih r.2.size (by omega) ((hs.beneath hw).tree hr) rfl

end

/-! ### What holds a graph is well-formed -/

/-- There is an action at every node of a graph but the root or below it. -/
theorem exists_action {g : Graph} (hg : g.Sound) (hw : (g.stem.cell w).isSome = true) (hne : w ≠ []) :
    ∃ v c, g.stem.cell (w ++ v) = some c ∧ c.1 ≠ [] := by
  obtain ⟨u, l, rfl⟩ := (List.eq_nil_or_concat' w).resolve_left hne
  obtain ⟨as, ls, hu, hl⟩ := Stem.isSome_cell_snoc.mp hw
  obtain ⟨below, hfind, rfl⟩ := Stem.exists_find hu
  have hbelow : g.top.descend u = below := Forest.descend_of_find hfind
  obtain ⟨v, hv⟩ := (Forest.mem_labels_iff (hbelow ▸ Forest.descend_tidy u hg.1) l).mp hl
  obtain ⟨a, ha⟩ := List.exists_mem_of_ne_nil _ hv
  rw [Forest.actionsAt_eq_read below as] at ha
  obtain ⟨c, hc, hmem⟩ := mem_read.mp ha
  refine ⟨v, c, ?_, List.ne_nil_of_mem hmem⟩
  rw [List.append_assoc, List.singleton_append, Stem.cell_append hfind, hc]

theorem filter_links (hls : t.2.labels.Nodup) {l : Label} (hl : l ∈ t.2.labels)
    (hkey : ∀ j ∈ t.2.labels, key (w ++ [j]) = key (w ++ [l]) → j = l) :
    (links key w t.2).filter (·.2 = key (w ++ [l])) = [(l.name, key (w ++ [l]))] := by
  have hiff : t.2.labels.filter ((fun e => decide (e.2 = key (w ++ [l]))) ∘ fun j => (j.name, key (w ++ [j]))) =
      t.2.labels.filter (· == l) := by
    refine List.filter_congr fun j hj => ?_
    rw [Bool.eq_iff_iff]
    simpa using ⟨hkey j hj, fun heq => by rw [heq]⟩
  rw [links, List.filter_map, hiff, List.filter_beq, List.count_eq_one_of_mem hls hl]
  rfl

omit [DecidableEq κ] in
theorem member_of_branchAt {ls : List Label} {i : κ} (h : branchAt key [] w ls = .collection i) :
    .member ∈ ls ∧ i = key (w ++ [.member]) := by
  match ls with
  | [] =>
    rw [branchAt] at h
    split at h <;> cases h
  | .field n :: ls => cases h
  | .member :: ls =>
    cases h
    exact ⟨List.mem_cons_self, rfl⟩

omit [DecidableEq κ] in
theorem eq_nil_of_branchAt {ls : List Label} (h : branchAt key [] w ls = .plain []) : w = [] := by
  match ls with
  | [] =>
    by_contra hne
    rw [branchAt, if_neg (by simpa using hne)] at h
    cases h
  | .field n :: ls => cases h
  | .member :: ls => cases h

/-- **A node is listed** by its parent, once. -/
theorem listed_word (h : Holds M x.nodes s key []) (hs : s.Kempt) {u : List Label} {l : Label} {r : Stem}
    (hr : Stem.find (u ++ [l]) s = some r) :
    ∃ p m, (nodeAt key [] (u ++ [l]) (r.1, r.2.labels)).parent = some p ∧ M.get? x.nodes p = some m ∧
      ((∃ children, m.branch = .plain children ∧
          children.filter (·.2 = key (u ++ [l])) = [(nameAt (u ++ [l]), key (u ++ [l]))]) ∨
        m.branch = .collection (key (u ++ [l])) ∧ nameAt (u ++ [l]) = "[]") := by
  obtain ⟨as, ls, hu, hl⟩ := Stem.exists_cell_of_snoc (Stem.cell_of_find hr)
  obtain ⟨below, hfind, rfl⟩ := Stem.exists_find hu
  refine ⟨key u, nodeAt key [] u (as, below.labels), by simp [nodeAt], h.node hu, ?_⟩
  rw [nameAt_snoc]
  by_cases hm : .member ∈ below.labels
  · have honly := (hs.siblings hu).eq_singleton hm
    rw [honly] at hl
    obtain rfl := List.mem_singleton.mp hl
    refine Or.inr ⟨?_, rfl⟩
    rw [honly]
    rfl
  · refine Or.inl ⟨links key u below, ?_, ?_⟩
    · exact (branchAt_of_fields hm).trans (if_neg fun hleaf => List.ne_nil_of_mem hl hleaf.1)
    · refine filter_links (t := (as, below)) (hs.siblings hu).nodup hl fun j hj heq => ?_
      obtain ⟨c, hc⟩ := Stem.exists_cell_snoc hu hj
      have hsame := h.apart hc (Stem.cell_of_find hr) heq
      exact List.singleton_inj.mp (List.append_cancel_left hsame)

/-- **What holds a graph** is well-formed. -/
theorem HoldsGraph.wellFormed {g : Graph} (h : HoldsGraph M x.root x.nodes g) (hg : g.Sound) : x.WellFormed := by
  obtain ⟨key, h, hroot⟩ := h
  have hs := hg.kempt
  have hword : ∀ {k n}, M.get? x.nodes k = some n → ∃ w as below, k = key w ∧ n = nodeAt key [] w (as, below.labels) ∧
      Stem.find w g.stem = some (as, below) := exists_word h
  refine ⟨?root, fun {k n} hk hne => ?listed, fun {k n e} hk he => ?back, fun {k n} hk => ?names, fun {k} hk => ?climb,
    fun {k n i m} hk hi hm j hj => ?member, fun {k n} hk hn => ?filled, fun {k n} hk => ?ascending,
    fun {k n} hk hne => ?alive, ⟨fun k => ?ends⟩⟩
  case root =>
    have hnode := h.node (w := []) rfl
    rw [hroot] at hnode
    exact ⟨_, _, hnode, rfl, (branchAt_of_fields hg.2).trans (if_neg fun hleaf => hleaf.2.1 rfl)⟩
  case listed =>
    obtain ⟨w, as, below, rfl, rfl, hw⟩ := hword hk
    rcases w.eq_nil_or_concat with rfl | ⟨u, l, rfl⟩
    · exact absurd hroot hne
    · rw [List.concat_eq_append] at hw ⊢
      exact listed_word h hs hw
  case back =>
    obtain ⟨w, as, below, rfl, rfl, hw⟩ := hword hk
    rw [show (nodeAt key [] w (as, below.labels)).branch.children = links key w below from branch_links hs hw] at he
    obtain ⟨l, hl, rfl⟩ := List.mem_map.mp he
    obtain ⟨c, hc⟩ := Stem.exists_cell_snoc (Stem.cell_of_find hw) hl
    exact ⟨_, h.node hc, by simp [nodeAt], by simp [nodeAt, nameAt_snoc]⟩
  case names =>
    obtain ⟨w, as, below, rfl, rfl, hw⟩ := hword hk
    have hcell := Stem.cell_of_find hw
    rw [show (nodeAt key [] w (as, below.labels)).branch.children = links key w below from branch_links hs hw, links,
      List.map_map]
    refine (hs.siblings hcell).nodup.map_on fun i hi j hj heq => ?_
    have hkind := (hs.siblings hcell).alike i hi j hj
    cases i <;> cases j <;> simp_all [Label.name, Label.sameKind]
  case climb =>
    obtain ⟨w, c, hw, rfl⟩ := h.live hk
    rw [← hroot]
    exact climb_word h (by rw [hw]; rfl)
  case member =>
    obtain ⟨w, as, below, rfl, rfl, hw⟩ := hword hk
    obtain ⟨v, bs, inside, rfl, rfl, hv⟩ := hword hm
    have hwv : w ++ [.member] = v := by
      obtain ⟨hmem, hkey⟩ := member_of_branchAt hi
      obtain ⟨c, hc⟩ := Stem.exists_cell_snoc (Stem.cell_of_find hw) hmem
      exact h.apart hc (Stem.cell_of_find hv) hkey.symm
    obtain ⟨u, n, heq⟩ := hs.member (Stem.cell_of_find hv) (member_of_branchAt hj).1
    rw [← hwv] at heq
    cases (List.append_inj' heq rfl).2
  case filled =>
    obtain ⟨w, as, below, rfl, rfl, hw⟩ := hword hk
    rw [eq_nil_of_branchAt hn, hroot]
  case ascending =>
    obtain ⟨w, as, below, rfl, rfl, hw⟩ := hword hk
    exact hs.ascending (Stem.cell_of_find hw)
  case alive =>
    obtain ⟨w, as, below, rfl, rfl, hw⟩ := hword hk
    have hroot' : w ≠ [] := fun hnil => hne (by rw [hnil, hroot])
    obtain ⟨v, c, hc, hactions⟩ := exists_action hg (by rw [Stem.cell_of_find hw]; rfl) hroot'
    exact ⟨_, _, lists_append h hs v (by rw [hc]; rfl), h.node hc, hactions⟩
  case ends =>
    cases hk : M.get? x.nodes k with
    | none =>
      refine Acc.intro _ fun c hc => ?_
      obtain ⟨n, hn, -⟩ := hc
      rw [hk] at hn
      cases hn
    | some n =>
      obtain ⟨w, as, below, rfl, -, hw⟩ := hword hk
      exact acc_word h hs hw

end

/-! ### Whatever is done -/

/-- Nothing that can be done with the arena, or asked of it, fails, and it answers as the
graph does. What goes from child to child has come to an end at the depth of the number of
nodes. -/
structure Answers (x : Arena M) (g : Graph) : Prop where
  add : ∀ paths a, ∃ x', x.add paths a = .ok (((Graph.record paths a).outcome g).1, x')
  remove : ∀ a, ∃ x', x.remove a = .ok x'
  actionsAt : ∀ p, x.actionsAt p = .ok (g.actionsAt p)
  contains : ∀ a, x.contains a = g.contains a
  size : x.size = g.size
  hasActions : ∀ depth, x.size ≤ depth → x.hasActions depth = .ok g.hasActions
  plan : ∀ {α : Type} (resolve : ActionId → Option α) depth, x.size ≤ depth →
    x.objectPlan resolve depth = .ok (g.compile resolve)
  text : ∀ depth, x.size ≤ depth → x.text depth = .ok g.text

variable {x : Arena M} {g : Graph}

theorem HoldsGraph.answers (h : HoldsGraph M x.root x.nodes g) (hg : g.Sound) : x.Answers g where
  add paths a := by
    obtain ⟨x', hok, -⟩ := add_eq h hg paths a
    exact ⟨x', hok⟩
  remove a := by
    obtain ⟨x', hok, -⟩ := remove_eq h hg a
    exact ⟨x', hok⟩
  actionsAt := actionsAt_eq h hg
  contains := contains_eq h hg
  size := size_eq h hg
  hasActions _ hdepth := hasActions_eq h hg (size_eq h hg ▸ hdepth)
  plan resolve _ hdepth := objectPlan_eq h hg (size_eq h hg ▸ hdepth) resolve
  text _ hdepth := text_eq h hg (size_eq h hg ▸ hdepth)

theorem empty_holds : HoldsGraph M (empty M).root (empty M).nodes .empty := by
  have hword : ∀ {w c}, Graph.empty.stem.cell w = some c → w = [] ∧ c = ([], []) := by
    intro w c hw
    cases w with
    | nil =>
      cases hw
      exact ⟨rfl, rfl⟩
    | cons k w => cases hw
  refine ⟨fun _ => (empty M).root, ⟨⟨fun {w c} hw => ?_, fun {k} hk => ?_, fun {v w c d} hv hw _ => ?_⟩, rfl⟩, rfl⟩
  · obtain ⟨rfl, rfl⟩ := hword hw
    rw [empty, M.get?_insert, if_pos rfl]
    rfl
  · rw [empty, M.get?_insert, M.get?_empty] at hk
    split at hk
    · rename_i heq
      exact ⟨[], _, rfl, heq⟩
    · cases hk
  · rw [(hword hv).1, (hword hw).1]

/-- The arena after an edit; a call that is refused leaves it as it is. -/
def after (x : Arena M) : Graph.Edit → Except Stop (Arena M)
  | .add paths a => (x.add paths a).map (·.2)
  | .remove a => x.remove a

theorem after_holds (h : HoldsGraph M x.root x.nodes g) (hg : g.Sound) (e : Graph.Edit) :
    ∃ x', x.after e = .ok x' ∧ HoldsGraph M x'.root x'.nodes (g.after e) := by
  cases e with
  | add paths a =>
    obtain ⟨x', hok, h'⟩ := add_eq h hg paths a
    refine ⟨x', by rw [after, hok]; rfl, ?_⟩
    rw [Graph.record_eq] at h'
    rw [Graph.after]
    cases hi : g.insert paths a with
    | error e =>
      rw [hi] at h'
      exact h'
    | ok g' =>
      rw [hi] at h'
      exact h'
  | remove a => exact remove_eq h hg a

/-- What is done with graphs, of which there may be several. -/
inductive Move
  | new
  | edit (i : Nat) (e : Graph.Edit)
  /-- The copy is for the same context or for a derived one. -/
  | copy (i : Nat)

variable (M) in
/-- The arenas after a move, each with what has been done to it. -/
def play (xs : List (Arena M × List Graph.Edit)) : Move → Except Stop (List (Arena M × List Graph.Edit))
  | .new => .ok (xs ++ [(empty M, [])])
  | .edit i e =>
    match xs[i]? with
    | some (x, edits) => (x.after e).map fun x' => xs.set i (x', edits ++ [e])
    | none => .ok xs
  | .copy i => .ok (xs ++ xs[i]?.toList)

variable (M) in
def played (moves : List Move) : Except Stop (List (Arena M × List Graph.Edit)) :=
  moves.foldlM (play M) []

/-- Each arena holds the graph that its edits come to. -/
def Kept (xs : List (Arena M × List Graph.Edit)) : Prop :=
  ∀ p ∈ xs, HoldsGraph M p.1.root p.1.nodes (Graph.edited p.2).1

/-- **Every move** is carried through, and keeps what the arenas hold. -/
theorem play_kept {xs : List (Arena M × List Graph.Edit)} (h : Kept xs) (move : Move) :
    ∃ xs', play M xs move = .ok xs' ∧ Kept xs' := by
  cases move with
  | new =>
    refine ⟨_, rfl, fun p hp => ?_⟩
    rcases List.mem_append.mp hp with hp | hp
    · exact h p hp
    · rw [List.mem_singleton.mp hp]
      exact empty_holds
  | copy i =>
    refine ⟨_, rfl, fun p hp => ?_⟩
    rcases List.mem_append.mp hp with hp | hp
    · exact h p hp
    · exact h p (List.mem_of_getElem? (Option.mem_toList.mp hp))
  | edit i e =>
    cases hi : xs[i]? with
    | none => exact ⟨xs, by rw [play, hi], h⟩
    | some p =>
      obtain ⟨x, edits⟩ := p
      have hx := h _ (List.mem_of_getElem? hi)
      obtain ⟨x', hok, h'⟩ := after_holds hx (Graph.edited_reads edits).built.sound e
      refine ⟨xs.set i (x', edits ++ [e]), by rw [play, hi]; simp only [hok]; rfl, fun p hp => ?_⟩
      rcases List.mem_or_eq_of_mem_set hp with hp | rfl
      · exact h p hp
      · rw [show (Graph.edited (edits ++ [e])).1 = (Graph.edited edits).1.after e by
          rw [Graph.edited, List.foldl_append]
          rfl]
        exact h'

theorem played_kept (moves : List Move) : ∃ xs, played M moves = .ok xs ∧ Kept xs := by
  suffices key : ∀ {xs : List (Arena M × List Graph.Edit)}, Kept xs →
      ∃ xs', moves.foldlM (play M) xs = .ok xs' ∧ Kept xs' from
    key (fun p hp => nomatch hp)
  induction moves with
  | nil => exact fun h => ⟨_, rfl, h⟩
  | cons move moves ih =>
    intro xs h
    obtain ⟨xs₁, hok, h₁⟩ := play_kept h move
    obtain ⟨xs', hok', h'⟩ := ih h₁
    refine ⟨xs', ?_, h'⟩
    rw [List.foldlM_cons, hok]
    exact hok'

/-- A graph is copied. The copy is given a path that does not fit, and the first graph loses
its only action. -/
def copied : List Move :=
  [.new, .edit 0 (.add [⟨[.property "lamp"], rfl⟩, ⟨[.collection "rows", .property "width"], rfl⟩] 1),
    .copy 0, .edit 1 (.add [⟨[.property "rows", .property "width"], rfl⟩] 2), .edit 0 (.remove 1)]

end Arena

/-- **Arenas stay well-formed.** Graphs are made, paths are recorded in them or refused,
actions are removed, and graphs are copied, in any order and on whatever slot map. No key
leads nowhere in the course of it, and no node is of a kind that cannot be. In every graph
there is then, the root is there and is an object; every other node is listed once, by its
parent; whatever is listed is there and leads back to where it is listed; from every node
the parents lead to the root; a member node is not a collection, and only the root is an
object without properties; ids ascend; every node but the root leads to an action; and
going from child to child ends. So whatever is done with the graph next is carried through,
and it answers, is compiled and is printed as the forest is that its edits come to. -/
theorem arenas_stay_well_formed {κ : Type} [DecidableEq κ] (M : SlotMap κ (Arena.Node κ)) (moves : List Arena.Move) :
    ∃ xs, Arena.played M moves = .ok xs ∧
      ∀ p ∈ xs, p.1.WellFormed ∧ p.1.Answers (Graph.edited p.2).1 := by
  obtain ⟨xs, hok, hkept⟩ := Arena.played_kept (M := M) moves
  refine ⟨xs, hok, fun p hp => ?_⟩
  have hsound := (Graph.edited_reads p.2).built.sound
  exact ⟨(hkept p hp).wellFormed hsound, (hkept p hp).answers hsound⟩

/-- In slots that are filled again. What is left are a root, and a graph of five nodes. -/
theorem arenas_stay_well_formed_copied :
    ∃ xs, Arena.played (slotMap (Arena.Node SlotKey)) Arena.copied = .ok xs ∧ xs.map (·.1.size) = [1, 5] ∧
      ∀ p ∈ xs, p.1.WellFormed := by
  obtain ⟨xs, hok, hxs⟩ := arenas_stay_well_formed (slotMap (Arena.Node SlotKey)) Arena.copied
  have hsizes : (Arena.played (slotMap (Arena.Node SlotKey)) Arena.copied).toOption.map (·.map fun p => p.1.size) =
      some [1, 5] := by decide +kernel
  rw [hok] at hsizes
  exact ⟨xs, hok, Option.some.inj hsizes, fun p hp => (hxs p hp).1⟩

end LiveRules
