/-
# Recording in an arena

Recording a path goes down from the root, one label of the path's word after the other. Each
label either leads to a node that is there, or a node is made for it, and nothing else is
changed. So what is reached in the end is what inserting the word into the forest comes to,
and if the forest refuses the word, then the arena does, with the same error and at the same
node. On the way every key leads to a node, and a node that is gone on from is an object.

Key definitions: `Stem.reach`, `Stem.sow`, `Arena.Sown`.
Key theorems: `Arena.child_eq`, `Arena.item_eq`, `Arena.Sown.up`, `Arena.record_sown`,
`Arena.add_eq`.
-/
import LiveRules.Proofs.Arena.Holding

namespace LiveRules

/-! ### One label of a word -/

namespace Forest

theorem admits_field {f : Forest} {n : String} (hf : Siblings f.labels) :
    f.admits (.field n) = true ↔ .member ∉ f.labels := by
  cases f with
  | nil => simp [admits, labels]
  | node l as below next =>
    cases l with
    | field m => exact iff_of_true rfl (hf.not_member List.mem_cons_self)
    | member => simp [admits, Label.sameKind, labels]

theorem admits_member {f : Forest} (hf : Siblings f.labels) :
    f.admits .member = true ↔ f.labels = [] ∨ .member ∈ f.labels := by
  cases f with
  | nil => simp [admits, labels]
  | node l as below next =>
    cases l with
    | field m =>
      have hm := hf.not_member List.mem_cons_self
      simpa [admits, Label.sameKind, labels] using hm
    | member => simp [admits, Label.sameKind, labels]

theorem sameKind_member {f : Forest} (hf : Siblings f.labels) (h : f.admits .member = true) :
    ∀ j ∈ f.labels, j.sameKind .member = true := by
  rcases (admits_member hf).mp h with hnil | hm
  · simp [hnil]
  · exact fun j hj => hf.alike j hj .member hm

end Forest

namespace Stem

/-- Makes the node for `k` behind a word, if it is missing. -/
def reach (u : List Label) (k : Label) (s : Stem) : Stem :=
  if (s.cell (u ++ [k])).isSome then s else grow u k s

/-- Records an action at the end of a word, with all nodes on the way. -/
def sow (a : ActionId) : List Label → Stem → Except Error Stem
  | [], t => .ok (insertId a t.1, t.2)
  | k :: w, t => (t.2.insert a k w).map fun f => (t.1, f)

variable {s t : Stem} {u w : List Label} {k : Label} {as : List ActionId} {ls : List Label}

theorem reach_of_mem (h : s.cell u = some (as, ls)) (hk : k ∈ ls) : reach u k s = s :=
  if_pos (isSome_cell_snoc.mpr ⟨as, ls, h, hk⟩)

theorem reach_of_not_mem (h : s.cell u = some (as, ls)) (hk : k ∉ ls) : reach u k s = grow u k s := by
  have hnone : s.cell (u ++ [k]) = none := cell_beyond h hk []
  rw [reach, hnone]
  rfl

theorem Kempt.reach (h : s.Kempt) (hu : s.cell u = some (as, ls)) (halike : ∀ j ∈ ls, j.sameKind k = true)
    (hmember : k = .member → ∃ v n, u = v ++ [.field n]) : (reach u k s).Kempt := by
  by_cases hk : k ∈ ls
  · rwa [reach_of_mem hu hk]
  · rw [reach_of_not_mem hu hk]
    exact h.grow hu hk halike hmember

/-- **Making the first node** of a word before the word is inserted makes no difference. -/
theorem reach_sow (h : find u s = some t) (k : Label) :
    ∃ f r, find u (reach u k s) = some (t.1, f) ∧ f.tree? k = some r ∧
      (∀ a w, sow a (k :: w) (t.1, f) = sow a (k :: w) t) ∧
      ∀ r', alter (fun _ => r') u (reach u k s) = alter (fun _ => r') u s := by
  have hcell := cell_of_find h
  by_cases hk : k ∈ t.2.labels
  · obtain ⟨r, hr⟩ := Option.isSome_iff_exists.mp (Forest.isSome_tree?.mpr hk)
    rw [reach_of_mem hcell hk]
    exact ⟨t.2, r, h, hr, fun _ _ => rfl, fun _ => rfl⟩
  · rw [reach_of_not_mem hcell hk]
    refine ⟨t.2.snoc k, ([], .nil), ?_, ?_, fun a w => ?_, fun r' => ?_⟩
    · rw [grow, find_alter, h, Option.map_some]
    · rw [Forest.tree?_snoc hk, if_pos rfl]
    · simp only [sow, Forest.insert_snoc a hk]
    · rw [grow, alter_alter]
      rfl

theorem exists_reach (h : find u s = some t) (k : Label) : ∃ r, find (u ++ [k]) (reach u k s) = some r := by
  obtain ⟨f, r, hfind, htree, -⟩ := reach_sow h k
  exact ⟨r, by rw [find_snoc, hfind, Option.bind_some, htree]⟩

/-- **Inserting goes on** below the first node, unless that refuses the second label. -/
theorem sow_cons {f : Forest} {r : Stem} (a : ActionId) (h : f.tree? k = some r) (w : List Label) :
    sow a (k :: w) (as, f) =
      if ∀ j ∈ w.head?, r.2.admits j = true then (sow a w r).map fun r' => (as, f.mapTree k fun _ => r')
      else .error (.shapeConflict k.name) := by
  obtain ⟨hnil, hcons⟩ := Forest.insert_of_tree a h
  cases w with
  | nil => simp [sow, hnil, Except.map]
  | cons j v =>
    rw [sow, hcons]
    by_cases hadm : r.2.admits j = true
    · rw [if_pos hadm, if_pos (by simpa using hadm), sow]
      cases r.2.insert a j v <;> rfl
    · rw [if_neg hadm, if_neg (by simpa using hadm)]
      rfl

end Stem

namespace Arena

variable {κ : Type} {key : List Label → κ} {hollow u w : List Label} {k : Label} {as : List ActionId} {ls : List Label}

/-! ### What one step of the walk does -/

theorem get?_fields (hm : .member ∉ ls) (u : List Label) (n : String) :
    Table.get? (ls.map fun l => (l.name, key (u ++ [l]))) n =
      if .field n ∈ ls then some (key (u ++ [.field n])) else none := by
  induction ls with
  | nil => simp [Table.get?]
  | cons l ls ih =>
    rw [List.mem_cons, not_or] at hm
    cases l with
    | member => exact absurd rfl hm.1
    | field m =>
      rw [List.map_cons, Table.get?, ih hm.2]
      by_cases hmn : m = n
      · simp [Label.name, hmn]
      · simp [Label.name, hmn, Ne.symm hmn]

theorem names_fields (hm : .member ∉ ls) {n : String} (hn : .field n ∉ ls) :
    n ∉ (ls.map fun l => (l.name, key (u ++ [l]))).map (·.1) := by
  rw [List.map_map, List.mem_map]
  rintro ⟨l, hl, heq⟩
  cases l with
  | field m => exact hn (by rwa [show m = n from heq] at hl)
  | member => exact hm hl

/-- The node that a new one is put below. -/
theorem nodeAt_update (ls : List Label) (c : κ) (ms : List Label) :
    nodeAt (Function.update key (u ++ [k]) c) hollow u (as, ms) =
      { nodeAt key hollow u (as, ls) with branch := branchAt (Function.update key (u ++ [k]) c) hollow u ms } := by
  have hparent : Function.update key (u ++ [k]) c u.dropLast = key u.dropLast := by
    refine Function.update_of_ne (fun heq => ?_) ..
    have hlength := congrArg List.length heq
    rw [List.length_dropLast, List.length_append, List.length_singleton] at hlength
    omega
  simp only [nodeAt, hparent]

theorem branchAt_update (hm : .member ∉ ls) {n : String} (hn : .field n ∉ ls) (c : κ) :
    branchAt (Function.update key (u ++ [.field n]) c) hollow u (ls ++ [.field n]) =
      .plain (Table.set (ls.map fun l => (l.name, key (u ++ [l]))) n c) := by
  have hold : ∀ l ∈ ls, Function.update key (u ++ [.field n]) c (u ++ [l]) = key (u ++ [l]) := by
    intro l hl
    have hother : u ++ [l] ≠ u ++ [.field n] := by
      rintro heq
      cases (List.append_inj' heq rfl).2
      exact hn hl
    exact Function.update_of_ne hother ..
  rw [branchAt_of_fields (by simpa using hm), if_neg (by simp), Table.set_of_not_mem (names_fields hm hn),
    List.map_append]
  congr 1
  congr 1
  · exact List.map_congr_left fun l hl => by rw [hold l hl]
  · simp [Label.name]

variable [DecidableEq κ] {M : SlotMap κ (Node κ)} {nodes nodes' : M.Map} {s t : Stem} {a : ActionId}

theorem Holds.look_insert (h : Holds M nodes s key hollow) (hu : s.cell u = some (as, ls)) (n : Node κ) :
    Arena.look M (M.insert nodes n).2 (key u) = .ok (nodeAt key hollow u (as, ls)) := by
  rw [look_eq_ok, M.get?_insert, if_neg (h.fresh hu n), h.node hu]

/-- **The child of an object** is there or is made. -/
theorem child_eq (h : Holds M nodes s key hollow) (hu : s.cell u = some (as, ls)) (hm : .member ∉ ls)
    (hhollow : hollow = [] ∨ hollow = u) (n : String) :
    ∃ nodes' key', child M nodes (key u) n = .ok (key' (u ++ [.field n]), nodes') ∧
      Holds M nodes' (Stem.reach u (.field n) s) key' [] ∧ key' [] = key [] := by
  have hfilled : ∀ {nodes' t key' ms}, Holds M nodes' t key' hollow → t.cell u = some (as, ms) → ms ≠ [] →
      Holds M nodes' t key' [] := by
    rintro nodes' t key' ms h' hu' hne
    rcases hhollow with rfl | rfl
    · exact h'
    · exact h'.filled hu' hne
  have hbranch : (nodeAt key hollow u (as, ls)).branch = branchAt key hollow u ls := rfl
  rw [branchAt_of_fields hm] at hbranch
  by_cases hn : .field n ∈ ls
  · refine ⟨nodes, key, ?_, ?_, rfl⟩
    · rw [if_neg fun hnil => by simp [hnil.1] at hn] at hbranch
      simp only [child, h.look hu, bind, Except.bind, hbranch, get?_fields hm, if_pos hn]
    · rw [Stem.reach_of_mem hu hn]
      exact hfilled h hu (List.ne_nil_of_mem hn)
  · have hgrown := h.grow hu hn
    have hcell : (Stem.grow u (.field n) s).cell u = some (as, ls ++ [.field n]) := by
      rw [Stem.cell_grow hu hn, if_pos rfl]
    rw [Stem.reach_of_not_mem hu hn]
    refine ⟨_, _, ?_, hfilled hgrown hcell (by simp), ?_⟩
    · rw [nodeAt_update ls, branchAt_update hm hn]
      rw [Function.update_self]
      split at hbranch
      · rename_i hnil
        simp only [child, h.look hu, bind, Except.bind, hbranch, h.look_insert hu]
        rw [hnil.1]
        rfl
      · simp only [child, h.look hu, bind, Except.bind, hbranch, get?_fields hm, if_neg hn, h.look_insert hu]
        rfl
    · exact Function.update_of_ne (by simp) ..

/-- **The member node of a collection** is there or is made. -/
theorem item_eq (h : Holds M nodes s key []) (hu : s.cell u = some (as, ls)) (hadm : ls = [] ∨ ls = [.member]) :
    ∃ nodes' key', item M nodes (key u) = .ok (key' (u ++ [.member]), nodes') ∧
      Holds M nodes' (Stem.reach u .member s) key' [] ∧ key' [] = key [] := by
  rcases hadm with rfl | rfl
  · refine ⟨_, _, ?_, Stem.reach_of_not_mem hu List.not_mem_nil ▸ h.grow hu List.not_mem_nil, ?_⟩
    · rw [nodeAt_update [], Function.update_self]
      have hbranch : ∀ i, (nodeAt key [] u (as, [])).branch ≠ .collection i := by
        intro i
        simp only [nodeAt, branchAt]
        split <;> simp
      simp only [item, h.look hu, bind, Except.bind, h.look_insert hu]
      rw [List.nil_append, branchAt, Function.update_self]
    · exact Function.update_of_ne (by simp) ..
  · refine ⟨nodes, key, ?_, ?_, rfl⟩
    · simp only [item, h.look hu, bind, Except.bind]
      rfl
    · rwa [Stem.reach_of_mem hu (List.mem_singleton_self _)]

section

variable (h : Holds M nodes s key []) (hs : s.Kempt) (hu : Stem.find u s = some t) (hne : u ≠ [])

include h hs hu hne

/-- **An object** that is gone on from becomes one, unless it is a collection. -/
theorem shape_field (n m : String) :
    if t.2.admits (.field m) then
      ∃ nodes' hollow, shape M nodes (key u) ⟨n, .property⟩ false = .ok nodes' ∧ Holds M nodes' s key hollow ∧
        (hollow = [] ∨ hollow = u)
    else shape M nodes (key u) ⟨n, .property⟩ false = .error (.refused (.shapeConflict n)) := by
  have hcell := Stem.cell_of_find hu
  have hadm := Forest.admits_field (n := m) (hs.siblings hcell)
  have hbranch : (nodeAt key [] u (t.1, t.2.labels)).branch = branchAt key [] u t.2.labels := rfl
  obtain ⟨hls, heq⟩ | ⟨hm, i, heq⟩ | ⟨-, hm, children, heq⟩ := branchAt_cases key hne (hs.siblings hcell)
  · have hopened : Holds M (M.replace nodes (key u) (nodeAt key u u (t.1, t.2.labels))) s key u :=
      h.replace hcell (fun w => by by_cases hwu : w = u <;> simp [hwu, hcell]) (by simp [hcell])
        fun _ hwu hw => iff_of_false hwu hw
    rw [if_pos (hadm.mpr (by simp [hls]))]
    refine ⟨_, u, ?_, hopened, Or.inr rfl⟩
    simp only [shape, h.look hcell, bind, Except.bind, hbranch, heq]
    simp [nodeAt, hls, branchAt]
  · rw [if_neg fun hf => hadm.mp hf hm]
    simp only [shape, h.look hcell, bind, Except.bind, hbranch, heq]
  · rw [if_pos (hadm.mpr hm)]
    refine ⟨nodes, [], ?_, h, Or.inl rfl⟩
    simp only [shape, h.look hcell, bind, Except.bind, hbranch, heq]

/-- **A collection** can be anything that is not an object. -/
theorem shape_member (n : String) (terminal : Bool) :
    shape M nodes (key u) ⟨n, .collection⟩ terminal =
      if t.2.admits .member then .ok nodes else .error (.refused (.shapeConflict n)) := by
  have hcell := Stem.cell_of_find hu
  have hadm := Forest.admits_member (hs.siblings hcell)
  have hbranch : (nodeAt key [] u (t.1, t.2.labels)).branch = branchAt key [] u t.2.labels := rfl
  simp only [shape, h.look hcell, bind, Except.bind, hbranch]
  obtain ⟨hls, heq⟩ | ⟨hm, i, heq⟩ | ⟨hls, hm, children, heq⟩ := branchAt_cases key hne (hs.siblings hcell)
  · rw [heq, if_pos (hadm.mpr (Or.inl hls))]
  · rw [heq, if_pos (hadm.mpr (Or.inr hm))]
  · rw [heq, if_neg fun hf => (hadm.mp hf).elim hls hm]

omit hs hne in
/-- What a path ends with is not made anything. -/
theorem shape_last (n : String) : shape M nodes (key u) ⟨n, .property⟩ true = .ok nodes := by
  simp only [shape, h.look (Stem.cell_of_find hu), bind, Except.bind]
  cases (nodeAt key [] u (t.1, t.2.labels)).branch <;> rfl

end

/-! ### The walk -/

section

variable {α β : Type}

/-- Both are carried through, or both are refused for the same reason. -/
def Follows (x : Except Stop α) (y : Except Error β) (R : α → β → Prop) : Prop :=
  match y with
  | .ok b => ∃ a, x = .ok a ∧ R a b
  | .error e => x = .error (.refused e)

end

variable (M a) in
/-- The nodes that come out hold the stem in which `w` has been sown at the end of `u`. -/
def Sown (x : Except Stop M.Map) (s : Stem) (root : κ) (u w : List Label) : Prop :=
  ∃ t, Stem.find u s = some t ∧
    Follows x (Stem.sow a w t) fun nodes t' =>
      ∃ key, Holds M nodes (Stem.alter (fun _ => t') u s) key [] ∧ key [] = root

variable {x : Except Stop M.Map} {root : κ} {r : Stem}

theorem Sown.up (hu : Stem.find u s = some t) (hr : Stem.find (u ++ [k]) (Stem.reach u k s) = some r)
    (hadm : ∀ j ∈ w.head?, r.2.admits j = true) (h : Sown M a x (Stem.reach u k s) root (u ++ [k]) w) :
    Sown M a x s root u (k :: w) := by
  obtain ⟨f, r', hfind, htree, hsow, halter⟩ := Stem.reach_sow hu k
  obtain ⟨r'', hr'', hx⟩ := h
  have heq : r' = r ∧ r'' = r := by
    rw [Stem.find_snoc, hfind, Option.bind_some, htree] at hr
    rw [Stem.find_snoc, hfind, Option.bind_some, htree, hr] at hr''
    cases hr
    cases hr''
    exact ⟨rfl, rfl⟩
  obtain ⟨rfl, rfl⟩ := heq
  refine ⟨t, hu, ?_⟩
  rw [← hsow, Stem.sow_cons a htree, if_pos hadm]
  cases hw : Stem.sow a w r'' with
  | error e =>
    rw [hw] at hx
    exact hx
  | ok q =>
    rw [hw] at hx
    obtain ⟨nodes', hok, key, hholds, hroot⟩ := hx
    refine ⟨nodes', hok, key, ?_, hroot⟩
    have hsame : Stem.alter (Stem.alter (fun _ => q) [k]) u (Stem.reach u k s) =
        Stem.alter (fun _ => (t.1, f.mapTree k fun _ => q)) u (Stem.reach u k s) := Stem.alter_congr hfind rfl
    rwa [Stem.alter_append, hsame, halter] at hholds

theorem Sown.refused (hu : Stem.find u s = some t) (hr : Stem.find (u ++ [k]) (Stem.reach u k s) = some r)
    (hadm : ¬ ∀ j ∈ w.head?, r.2.admits j = true) :
    Sown M a (.error (.refused (.shapeConflict k.name))) s root u (k :: w) := by
  obtain ⟨f, r', hfind, htree, hsow, -⟩ := Stem.reach_sow hu k
  rw [Stem.find_snoc, hfind, Option.bind_some, htree] at hr
  cases hr
  refine ⟨t, hu, ?_⟩
  rw [← hsow, Stem.sow_cons a htree, if_neg hadm]
  rfl

theorem mark_sown (h : Holds M nodes s key []) (hu : Stem.find u s = some t) :
    Sown M a (mark M a nodes (key u)) s (key []) u [] := by
  have hcell := Stem.cell_of_find hu
  have hsame : Stem.mark a u s = Stem.alter (fun _ => (insertId a t.1, t.2)) u s := Stem.alter_congr hu rfl
  have hmarked : Holds M (M.replace nodes (key u) (nodeAt key [] u (insertId a t.1, t.2.labels)))
      (Stem.mark a u s) key [] := h.replace hcell (Stem.cell_mark a hcell) rfl fun _ _ _ => Iff.rfl
  refine ⟨t, hu, _, ?_, key, hsame ▸ hmarked, rfl⟩
  simp only [mark, h.look hcell, bind, Except.bind]
  rfl

theorem record_cons (nodes : M.Map) (object : κ) (st : Step) (rest : List Step) :
    record M a nodes object (st :: rest) = stride M nodes object st rest.isEmpty >>= fun r =>
      if rest.isEmpty then mark M a r.2 r.1 else record M a r.2 r.1 rest := by
  rw [record, walk]
  cases stride M nodes object st rest.isEmpty with
  | error e => rfl
  | ok r =>
    by_cases hlast : rest.isEmpty = true
    · simp only [bind, Except.bind, if_pos hlast]
    · simp only [bind, Except.bind, if_neg hlast, record]

theorem stride_eq {object c : κ} {st : Step} {terminal : Bool} (h : child M nodes object st.name = .ok (c, nodes')) :
    stride M nodes object st terminal = shape M nodes' c st terminal >>= fun nodes =>
      match st.kind with
      | .property => .ok (c, nodes)
      | .collection => item M nodes c := by
  rw [stride, h]
  rfl

/-- The word of some steps starts with a property, or is empty. -/
theorem head?_labels (steps : List Step) :
    (steps.flatMap Step.labels).head? = steps.head?.map fun st => .field st.name := by
  match steps with
  | [] => rfl
  | ⟨n, .property⟩ :: _ => rfl
  | ⟨n, .collection⟩ :: _ => rfl

/-- **Recording along some steps** from an object sows their word there. -/
theorem record_sown {steps : List Step} (hsteps : steps ≠ []) (h : Holds M nodes s key hollow) (hs : s.Kempt)
    (hu : Stem.find u s = some t) (hm : .member ∉ t.2.labels) (hhollow : hollow = [] ∨ hollow = u) :
    Sown M a (record M a nodes (key u) steps) s (key []) u (steps.flatMap Step.labels) := by
  induction steps generalizing nodes s key hollow u t with
  | nil => exact absurd rfl hsteps
  | cons st rest ih =>
    obtain ⟨n, kind⟩ := st
    have hcell := Stem.cell_of_find hu
    obtain ⟨nodes₁, key₁, hchild, h₁, hroot₁⟩ := child_eq h hcell hm hhollow n
    obtain ⟨r, hr⟩ := Stem.exists_reach hu (.field n)
    have hs₁ : (Stem.reach u (.field n) s).Kempt := by
      refine hs.reach hcell (fun j hj => ?_) (by simp)
      cases j with
      | field m => rfl
      | member => exact absurd hj hm
    have hcell₁ := Stem.cell_of_find hr
    have hne : u ++ [.field n] ≠ [] := by simp
    rw [record_cons, stride_eq hchild, ← hroot₁, List.flatMap_cons]
    cases kind with
    | property =>
      show Sown M a _ s (key₁ []) u (.field n :: rest.flatMap Step.labels)
      cases rest with
      | nil =>
        rw [List.isEmpty_nil, shape_last h₁ hr]
        exact Sown.up hu hr (by simp) (mark_sown h₁ hr)
      | cons st' rest =>
        have hshape := shape_field h₁ hs₁ hr hne n st'.name
        rw [List.isEmpty_cons]
        by_cases hadm : r.2.admits (.field st'.name) = true
        · rw [if_pos hadm] at hshape
          obtain ⟨nodes₂, hollow₂, hshape, h₂, hhollow₂⟩ := hshape
          rw [hshape]
          refine Sown.up hu hr ?_ ?_
          · rw [head?_labels]
            simpa using hadm
          · exact ih (List.cons_ne_nil _ _) h₂ hs₁ hr ((Forest.admits_field (hs₁.siblings hcell₁)).mp hadm) hhollow₂
        · rw [if_neg hadm] at hshape
          rw [hshape]
          refine Sown.refused hu hr fun hall => hadm (hall _ ?_)
          rw [head?_labels]
          rfl
    | collection =>
      show Sown M a _ s (key₁ []) u (.field n :: .member :: rest.flatMap Step.labels)
      rw [shape_member h₁ hs₁ hr hne n]
      have hadmits := Forest.admits_member (hs₁.siblings hcell₁)
      by_cases hadm : r.2.admits .member = true
      · obtain ⟨nodes₂, key₂, hitem, h₂, hroot₂⟩ := item_eq h₁ hcell₁
          ((hadmits.mp hadm).imp_right (hs₁.siblings hcell₁).eq_singleton)
        obtain ⟨r₂, hr₂⟩ := Stem.exists_reach hr .member
        have hs₂ := hs₁.reach hcell₁ (Forest.sameKind_member (hs₁.siblings hcell₁) hadm) fun _ => ⟨u, n, rfl⟩
        have hcell₂ := Stem.cell_of_find hr₂
        have hm₂ : .member ∉ r₂.2.labels := fun hm₂ => by
          obtain ⟨v, m, heq⟩ := hs₂.member hcell₂ hm₂
          cases (List.append_inj' heq rfl).2
        rw [if_pos hadm, ← hroot₂]
        refine Sown.up hu hr (by simpa using hadm) (Sown.up hr hr₂ (fun j hj => ?_) ?_)
        · rw [head?_labels] at hj
          obtain ⟨st', -, rfl⟩ := Option.map_eq_some_iff.mp hj
          exact (Forest.admits_field (hs₂.siblings hcell₂)).mpr hm₂
        · simp only [bind, Except.bind, hitem]
          by_cases hlast : rest = []
          · subst hlast
            exact mark_sown h₂ hr₂
          · rw [if_neg (by simpa using hlast)]
            exact ih hlast h₂ hs₂ hr₂ hm₂ (Or.inl rfl)
      · rw [if_neg hadm]
        exact Sown.refused hu hr fun hall => hadm (hall _ rfl)

/-! ### Paths -/

variable (M) in
/-- The nodes hold the graph, and `root` is the key of the root. -/
def HoldsGraph (root : κ) (nodes : M.Map) (g : Graph) : Prop :=
  ∃ key, Holds M nodes g.stem key [] ∧ key [] = root

variable {g : Graph}

/-- **Recording a path** follows inserting its word. -/
theorem record_follows (h : HoldsGraph M root nodes g) (hg : g.Sound) (p : Path) :
    Follows (record M a nodes root p.steps) (Graph.insertWord a g p.word) (HoldsGraph M root) := by
  obtain ⟨key, hholds, rfl⟩ := h
  have hfind : Stem.find [] g.stem = some g.stem := rfl
  obtain ⟨t, ht, hfollows⟩ := record_sown (a := a) p.steps_ne_nil hholds hg.kempt hfind hg.2 (Or.inl rfl)
  cases ht
  obtain ⟨n, w, hword⟩ := p.word_eq_cons
  rw [show p.steps.flatMap Step.labels = .field n :: w from hword, Stem.sow, Graph.stem] at hfollows
  rw [hword, Graph.insertWord]
  cases hi : g.top.insert a (.field n) w with
  | error e =>
    rw [hi] at hfollows
    exact hfollows
  | ok f =>
    rw [hi] at hfollows
    exact hfollows

/-- **Recording the paths** follows inserting them. -/
theorem foldlM_record_follows (h : HoldsGraph M root nodes g) (hg : g.Sound) (paths : List Path) :
    Follows (paths.foldlM (fun nodes p => record M a nodes root p.steps) nodes) (g.insert paths a)
      (HoldsGraph M root) := by
  induction paths generalizing nodes g with
  | nil => exact ⟨nodes, rfl, h⟩
  | cons p ps ih =>
    have hp := record_follows (a := a) h hg p
    unfold Graph.insert at ih ⊢
    rw [List.foldlM_cons, List.foldlM_cons]
    cases hi : Graph.insertWord a g p.word with
    | error e =>
      rw [hi] at hp
      simp only [bind, Except.bind, show record M a nodes root p.steps = _ from hp]
      rfl
    | ok g' =>
      rw [hi] at hp
      obtain ⟨nodes', hok, h'⟩ := hp
      simp only [bind, Except.bind, hok]
      exact ih h' (Graph.insertWord_sound hg hi)

/-- **Adding** comes to what it comes to in the graph, with the same answer. -/
theorem add_eq {x : Arena M} (h : HoldsGraph M x.root x.nodes g) (hg : g.Sound) (paths : List Path) (a : ActionId) :
    ∃ x', x.add paths a = .ok (((Graph.record paths a).outcome g).1, x') ∧
      HoldsGraph M x'.root x'.nodes ((Graph.record paths a).outcome g).2 := by
  have hfollows := foldlM_record_follows (a := a) h hg paths
  rw [Graph.record_eq]
  unfold add
  cases hi : g.insert paths a with
  | error e =>
    rw [hi] at hfollows
    rw [show paths.foldlM (fun nodes p => record M a nodes x.root p.steps) x.nodes = _ from hfollows]
    exact ⟨x, rfl, h⟩
  | ok g' =>
    rw [hi] at hfollows
    obtain ⟨nodes', hok, h'⟩ := hfollows
    rw [hok]
    exact ⟨_, rfl, h'⟩

end Arena
end LiveRules
