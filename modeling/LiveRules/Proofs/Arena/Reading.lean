/-
# Reading an arena

What is asked of an arena is answered by going from node to node, and so is what is made of
it: its plan and its text. An arena that holds a graph answers as the graph does. Every key
on the way leads to a node, and going from child to child ends, since it goes down the
forest: a depth of the number of nodes is enough.

Key definitions: `Stem.Beneath`.
Key theorems: `Arena.size_eq`, `Arena.contains_eq`, `Arena.actionsAt_eq`,
`Arena.hasActions_eq`, `Arena.objectPlan_eq`, `Arena.text_eq`.
-/
import LiveRules.Proofs.Arena.Removing

namespace LiveRules

/-! ### Siblings -/

namespace Stem

/-- The trees of `f`, which are siblings, are below the end of `w`. -/
structure Beneath (s : Stem) (w : List Label) (f : Forest) : Prop where
  tree : ∀ {l r}, f.tree? l = some r → find (w ++ [l]) s = some r
  nodup : f.labels.Nodup

variable {s t : Stem} {w : List Label} {l : Label} {as : List ActionId} {f below next : Forest}

theorem Kempt.beneath (hs : s.Kempt) (h : find w s = some t) : s.Beneath w t.2 where
  tree htree := by rw [find_snoc, h, Option.bind_some, htree]
  nodup := (hs.siblings (cell_of_find h)).nodup

section

variable (h : s.Beneath w (.node l as below next))

include h

theorem Beneath.first : find (w ++ [l]) s = some (as, below) :=
  h.tree (by rw [Forest.tree?, if_pos rfl])

theorem Beneath.others : s.Beneath w next where
  tree {j r} htree := by
    have hlj : l ≠ j := by
      rintro rfl
      rw [Forest.tree?_eq_none.mpr (List.nodup_cons.mp h.nodup).1] at htree
      cases htree
    exact h.tree (by rw [Forest.tree?, if_neg hlj, htree])
  nodup := (List.nodup_cons.mp h.nodup).2

theorem Beneath.inside (hs : s.Kempt) : s.Beneath (w ++ [l]) below :=
  hs.beneath h.first

end

end Stem

namespace Arena

variable {κ : Type} [DecidableEq κ] {M : SlotMap κ (Node κ)} {x : Arena M} {s t : Stem}
  {key : List Label → κ} {w : List Label} {f : Forest} {as : List ActionId} {depth : Nat}

/-- The keys of siblings, under their names. -/
def links (key : List Label → κ) (w : List Label) (f : Forest) : Table String κ :=
  f.labels.map fun l => (l.name, key (w ++ [l]))

omit [DecidableEq κ] in
theorem links_node (l : Label) (below next : Forest) :
    links key w (.node l as below next) = (l.name, key (w ++ [l])) :: links key w next := rfl

section

variable (h : Holds M x.nodes s key []) (hs : s.Kempt)

omit [DecidableEq κ] in
theorem branch_links (hs : s.Kempt) (hw : Stem.find w s = some t) :
    (branchAt key [] w t.2.labels).children = links key w t.2 :=
  children_branchAt (hs.siblings (Stem.cell_of_find hw))

include h

theorem look_find (hw : Stem.find w s = some t) :
    look M x.nodes (key w) = .ok (nodeAt key [] w (t.1, t.2.labels)) :=
  h.look (Stem.cell_of_find hw)

include hs

/-! ### Going from child to child -/

section

/-- **Whether there is an action** at a node or below it. -/
theorem hasActionsFrom_eq (hw : Stem.find w s = some t) {any : Bool}
    (hlinks : ((links key w t.2).anyM fun e => x.hasActionsFrom depth e.2) = .ok any) :
    x.hasActionsFrom (depth + 1) (key w) = .ok (!t.1.isEmpty || any) := by
  rw [hasActionsFrom, look_find h hw]
  simp only [bind, Except.bind, nodeAt, branch_links hs hw, hlinks]
  cases t.1 <;> rfl

theorem anyM_links (hf : s.Beneath w f) (hdepth : f.size ≤ depth) :
    ((links key w f).anyM fun e => x.hasActionsFrom depth e.2) = .ok f.hasActions := by
  induction f generalizing w depth with
  | nil => rfl
  | node l as below next ihb ihn =>
    rw [Forest.size] at hdepth
    obtain ⟨d, rfl⟩ : ∃ d, depth = d + 1 := ⟨depth - 1, by omega⟩
    have hbelow := ihb (hf.inside hs) (show below.size ≤ d by omega)
    have hnext := ihn hf.others (show next.size ≤ d + 1 by omega)
    have hhere := hasActionsFrom_eq h hs hf.first hbelow
    rw [links_node, List.anyM, hhere, Forest.hasActions]
    cases hany : !as.isEmpty || below.hasActions
    · simpa [bind, Except.bind] using hnext
    · rfl

/-- **The text** of a node. -/
theorem textFrom_eq (hw : Stem.find w s = some t) {fields : List String}
    (hlinks : ((links key w t.2).mapM fun e => do
      let text ← x.textFrom depth e.2
      return e.1 ++ ": " ++ text) = .ok fields) :
    x.textFrom (depth + 1) (key w) = .ok (Text.record (nameAt w) (("actions: " ++ idsText t.1) :: fields)) := by
  rw [textFrom, look_find h hw]
  simp only [bind, Except.bind, nodeAt, branch_links hs hw]
  simp only [bind, Except.bind] at hlinks
  rw [hlinks]
  rfl

theorem mapM_links (hf : s.Beneath w f) (hdepth : f.size ≤ depth) :
    ((links key w f).mapM fun e => do
      let text ← x.textFrom depth e.2
      return e.1 ++ ": " ++ text) = .ok f.fieldTexts := by
  induction f generalizing w depth with
  | nil => rfl
  | node l as below next ihb ihn =>
    rw [Forest.size] at hdepth
    obtain ⟨d, rfl⟩ : ∃ d, depth = d + 1 := ⟨depth - 1, by omega⟩
    have hbelow := ihb (hf.inside hs) (show below.size ≤ d by omega)
    have hnext := ihn hf.others (show next.size ≤ d + 1 by omega)
    have hhere := textFrom_eq h hs hf.first hbelow
    rw [links_node, List.mapM_cons, hhere, hnext, Forest.fieldTexts, nameAt_snoc]
    rfl

/-- **The actions** at a node or below it join the others. -/
theorem collect_eq (hw : Stem.find w s = some t) (ids : List ActionId) :
    x.collect (depth + 1) (key w) ids =
      (links key w t.2).foldlM (fun ids e => x.collect depth e.2 ids) (unionIds t.1 ids) := by
  rw [collect, look_find h hw]
  simp only [bind, Except.bind, nodeAt, branch_links hs hw]

theorem foldlM_links (hf : s.Beneath w f) (hdepth : f.size ≤ depth) {ids : List ActionId}
    (hids : ids.Pairwise (· < ·)) :
    ∃ ids', (links key w f).foldlM (fun ids e => x.collect depth e.2 ids) ids = .ok ids' ∧
      ids'.Pairwise (· < ·) ∧ ∀ c, c ∈ ids' ↔ c ∈ ids ∨ c ∈ f.gather := by
  induction f generalizing w depth ids with
  | nil => exact ⟨ids, rfl, hids, fun c => by simp [Forest.gather]⟩
  | node l as below next ihb ihn =>
    rw [Forest.size] at hdepth
    obtain ⟨d, rfl⟩ : ∃ d, depth = d + 1 := ⟨depth - 1, by omega⟩
    have hjoined : (unionIds as ids).Pairwise (· < ·) := unionIds_ascending hids
    obtain ⟨ids₁, hok₁, hids₁, hmem₁⟩ := ihb (hf.inside hs) (show below.size ≤ d by omega) hjoined
    obtain ⟨ids', hok, hids', hmem⟩ := ihn hf.others (show next.size ≤ d + 1 by omega) hids₁
    refine ⟨ids', ?_, hids', fun c => ?_⟩
    · rw [links_node, List.foldlM_cons, collect_eq h hs hf.first, hok₁]
      exact hok
    · rw [hmem, hmem₁, Forest.gather, mem_unionIds, mem_unionIds, mem_unionIds]
      tauto

end

/-! ### The plan -/

section

variable {α : Type} (resolve : ActionId → Option α)

/-- **A fire list** is what the graph would have. -/
theorem fires_eq (hw : Stem.find w s = some t) (hdepth : 1 + t.2.size ≤ depth) :
    x.fires resolve depth (key w) = .ok (fireList resolve t.1 t.2) := by
  obtain ⟨d, rfl⟩ : ∃ d, depth = d + 1 := ⟨depth - 1, by omega⟩
  have hfirst : (unionIds t.1 []).Pairwise (· < ·) := unionIds_ascending .nil
  obtain ⟨ids, hok, hids, hmem⟩ := foldlM_links h hs (hs.beneath hw) (show t.2.size ≤ d by omega) hfirst
  have hsame : ids = unionIds t.1 t.2.gather := by
    refine hids.eq_of_mem_iff (unionIds_ascending (Forest.gather_ascending t.2)) fun {c} => ?_
    rw [hmem, mem_unionIds, mem_unionIds]
    simp
  rw [fires, collect_eq h hs hw, hok, hsame]
  rfl

omit hs in
theorem planFrom_eq (hw : Stem.find w s = some t) (hm : .member ∉ t.2.labels) :
    x.planFrom resolve (depth + 1) (key w) = x.planOf resolve depth (x.planFrom resolve depth) (links key w t.2) := by
  rw [planFrom, look_find h hw]
  simp only [bind, Except.bind, nodeAt, branchAt_of_fields hm]
  by_cases hleaf : t.2.labels = [] ∧ w ≠ [] ∧ w ≠ []
  · rw [if_pos hleaf, links, hleaf.1]
    rfl
  · rw [if_neg hleaf]
    rfl

/-- What is asked of the first property, and of what is at it. -/
theorem planOf_cons {n : String} {below next : Forest} {plan : Plan α}
    (hf : s.Beneath w (.node (.field n) as below next)) (hdepth : 1 + below.size ≤ depth)
    (hnext : x.planOf resolve depth (x.planFrom resolve depth) (links key w next) = .ok plan) :
    x.planOf resolve depth (x.planFrom resolve depth) (links key w (.node (.field n) as below next)) =
      match branchAt key [] (w ++ [.field n]) below.labels with
      | .leaf => .ok (.value n (fireList resolve as below) plan)
      | .plain _ =>
        (x.planFrom resolve depth (key (w ++ [.field n]))).map fun inside =>
          .object n (fireList resolve as below) inside plan
      | .collection item => do
        let inside ← x.planFrom resolve depth item
        let membership ← x.fires resolve depth item
        return .collection n (fireList resolve as below) membership inside plan := by
  have hfire := fires_eq h hs resolve hf.first hdepth
  have hlook := look_find h hf.first
  unfold planOf at hnext ⊢
  rw [links_node, List.foldr_cons, hnext]
  simp only [bind, Except.bind, hfire, hlook, nodeAt]
  cases branchAt key [] (w ++ [.field n]) below.labels with
  | leaf => rfl
  | plain children =>
    cases x.planFrom resolve depth (key (w ++ [.field n])) <;> rfl
  | collection item => rfl

/-- **The plan** for an object is what the graph would have. -/
theorem planOf_eq : ∀ {f : Forest} {w : List Label} {depth : Nat}, s.Beneath w f → .member ∉ f.labels → f.size ≤ depth →
    x.planOf resolve depth (x.planFrom resolve depth) (links key w f) = .ok (f.compile resolve)
  | .nil, _, _, _, _, _ => rfl
  | .node .member _ _ _, _, _, _, hm, _ => absurd List.mem_cons_self hm
  | .node (.field n) as .nil next, w, depth, hf, hm, hdepth => by
    simp only [Forest.size] at hdepth
    have hnext := planOf_eq hf.others (fun hm' => hm (List.mem_cons_of_mem _ hm')) (show next.size ≤ depth by omega)
    rw [planOf_cons h hs resolve hf (show 1 + 0 ≤ depth by omega) hnext]
    simp [Forest.labels, branchAt, Forest.compile]
  | .node (.field n) as (.node .member bs item nx) next, w, depth, hf, hm, hdepth => by
    simp only [Forest.size] at hdepth
    have hnext := planOf_eq hf.others (fun hm' => hm (List.mem_cons_of_mem _ hm')) (show next.size ≤ depth by omega)
    have hitem := (hf.inside hs).first
    have hplain : .member ∉ item.labels := fun hm' => by
      obtain ⟨u, m, heq⟩ := hs.member (Stem.cell_of_find hitem) hm'
      cases (List.append_inj' heq rfl).2
    obtain ⟨d, rfl⟩ : ∃ d, depth = d + 1 := ⟨depth - 1, by omega⟩
    have hinside := planOf_eq ((hf.inside hs).inside hs) hplain (show item.size ≤ d by omega)
    have hmembership := fires_eq h hs resolve hitem (show 1 + item.size ≤ d + 1 by omega)
    rw [planOf_cons h hs resolve hf (by simp only [Forest.size]; omega) hnext]
    simp only [Forest.labels, branchAt, bind, Except.bind, planFrom_eq h resolve hitem hplain, hinside, hmembership]
    rfl
  | .node (.field n) as (.node (.field m) bs inner nx) next, w, depth, hf, hm, hdepth => by
    simp only [Forest.size] at hdepth
    have hnext := planOf_eq hf.others (fun hm' => hm (List.mem_cons_of_mem _ hm')) (show next.size ≤ depth by omega)
    have hplain := (hs.siblings (Stem.cell_of_find hf.first)).not_member List.mem_cons_self
    obtain ⟨d, rfl⟩ : ∃ d, depth = d + 1 := ⟨depth - 1, by omega⟩
    have hinside := planOf_eq (hf.inside hs) hplain (by simp only [Forest.size]; omega : _ ≤ d)
    rw [planOf_cons h hs resolve hf (by simp only [Forest.size]; omega) hnext,
      planFrom_eq h resolve hf.first hplain, hinside]
    rfl

end

/-! ### At the end of a path -/

omit [DecidableEq κ] hs h in
theorem branchAt_of_not_mem {ls : List Label} (hls : Siblings ls) {n : String} (hn : .field n ∉ ls)
    {children : Table String κ} (hbranch : branchAt key [] w ls = .plain children) : children.get? n = none := by
  have hm : .member ∉ ls := fun hm => by
    rw [hls.eq_singleton hm] at hbranch
    cases hbranch
  rw [branchAt_of_fields hm] at hbranch
  split at hbranch
  · cases hbranch
  · cases hbranch
    rw [get?_fields hm, if_neg hn]

/-- **What is at the end of some steps** from a node. -/
theorem actionsFrom_eq {steps : List Step} (hsteps : steps ≠ []) (hw : Stem.find w s = some t) :
    x.actionsFrom (key w) steps = .ok (Stem.read (steps.flatMap Step.labels) t) := by
  induction steps generalizing w t with
  | nil => exact absurd rfl hsteps
  | cons st rest ih =>
    obtain ⟨n, kind⟩ := st
    have hcell := Stem.cell_of_find hw
    rw [actionsFrom, look_find h hw, List.flatMap_cons]
    simp only [bind, Except.bind, nodeAt]
    cases htree : t.2.tree? (.field n) with
    | none =>
      have hn := Forest.tree?_eq_none.mp htree
      have hread : Stem.read (Step.labels ⟨n, kind⟩ ++ rest.flatMap Step.labels) t = [] := by
        cases kind <;> exact Stem.read_of_not_tree htree _
      rw [hread]
      split
      · rename_i hbranch
        rw [branchAt_of_not_mem (hs.siblings hcell) hn hbranch]
      · rfl
    | some r =>
      have hr := (hs.beneath hw).tree htree
      have hn : .field n ∈ t.2.labels := Forest.isSome_tree?.mp (by rw [htree]; rfl)
      have hm := (hs.siblings hcell).not_member hn
      have hend : ∀ {v q}, Stem.find v s = some q →
          (if rest.isEmpty = true then do
            let m ← look M x.nodes (key v)
            return m.actions
          else x.actionsFrom (key v) rest) = .ok (Stem.read (rest.flatMap Step.labels) q) := by
        intro v q hv
        by_cases hlast : rest = []
        · subst hlast
          rw [if_pos List.isEmpty_nil, look_find h hv]
          rfl
        · rw [if_neg (by simpa using hlast), ih hlast hv]
      rw [branchAt_of_fields hm, if_neg fun hleaf => List.ne_nil_of_mem hn hleaf.1]
      simp only [get?_fields hm, if_pos hn, look_find h hr, nodeAt]
      cases kind with
      | property =>
        have hread : Stem.read (Step.labels ⟨n, .property⟩ ++ rest.flatMap Step.labels) t =
            Stem.read (rest.flatMap Step.labels) r := Stem.read_of_tree htree _
        rw [hread]
        cases branchAt key [] (w ++ [.field n]) r.2.labels <;> exact hend hr
      | collection =>
        have hread : Stem.read (Step.labels ⟨n, .collection⟩ ++ rest.flatMap Step.labels) t =
            Stem.read (.member :: rest.flatMap Step.labels) r := Stem.read_of_tree htree _
        have hcell' := Stem.cell_of_find hr
        rw [hread]
        cases htree' : r.2.tree? .member with
        | none =>
          have hm' := Forest.tree?_eq_none.mp htree'
          rw [Stem.read_of_not_tree htree', branchAt_of_fields hm']
          by_cases hleaf : r.2.labels = [] ∧ w ++ [.field n] ≠ [] ∧ w ++ [.field n] ≠ []
          · rw [if_pos hleaf]
          · rw [if_neg hleaf]
        | some q =>
          have hq := (hs.beneath hr).tree htree'
          have hm' : .member ∈ r.2.labels := Forest.isSome_tree?.mp (by rw [htree']; rfl)
          rw [Stem.read_of_tree htree', (hs.siblings hcell').eq_singleton hm', branchAt]
          exact hend hq

end

/-! ### An arena answers as the graph does -/

theorem isSome_cell_iff {g : Graph} (hg : g.Sound) : (g.stem.cell w).isSome = true ↔ w = [] ∨ w ∈ g.top.words := by
  rcases w.eq_nil_or_concat with rfl | ⟨u, k, rfl⟩
  · simp [Stem.cell, Stem.find]
  · rw [List.concat_eq_append, Forest.mem_words hg.1, Stem.isSome_cell_snoc]
    cases hfind : Stem.find u g.stem with
    | none =>
      have hnil : g.top.descend u = .nil := Forest.descend_of_not_find hfind
      simp [Stem.cell, hfind, hnil, Forest.labels]
    | some t =>
      have hbelow : g.top.descend u = t.2 := Forest.descend_of_find hfind
      simp [Stem.cell, hfind, hbelow]

theorem mem_read {a : ActionId} : a ∈ Stem.read w s ↔ ∃ c, s.cell w = some c ∧ a ∈ c.1 := by
  rw [Stem.read, Stem.cell]
  cases Stem.find w s <;> simp

section

variable {g : Graph} (h : HoldsGraph M x.root x.nodes g) (hg : g.Sound)

include h hg

theorem size_eq : x.size = g.size := by
  obtain ⟨key, hholds, -⟩ := h
  have hwords : ([] :: g.top.words).Nodup := List.nodup_cons.mpr ⟨Forest.nil_not_mem_words, Forest.words_nodup hg.1⟩
  have hthere : ∀ {w}, w ∈ [] :: g.top.words ↔ ∃ c, g.stem.cell w = some c := by
    intro w
    rw [List.mem_cons, ← isSome_cell_iff hg, Option.isSome_iff_exists]
  have hkeys : (([] :: g.top.words).map key).Nodup := by
    refine hwords.map_on fun v hv w hw heq => ?_
    obtain ⟨c, hc⟩ := hthere.mp hv
    obtain ⟨d, hd⟩ := hthere.mp hw
    exact hholds.apart hc hd heq
  have hperm : (M.keys x.nodes).Perm (([] :: g.top.words).map key) := by
    refine (List.perm_ext_iff_of_nodup (M.keys_nodup _) hkeys).mpr fun k => ?_
    rw [M.mem_keys, List.mem_map]
    constructor
    · intro hk
      obtain ⟨w, c, hw, rfl⟩ := hholds.live hk
      exact ⟨w, hthere.mpr ⟨c, hw⟩, rfl⟩
    · rintro ⟨w, hw, rfl⟩
      obtain ⟨c, hc⟩ := hthere.mp hw
      exact hholds.isSome hc
  rw [size, hperm.length_eq, List.length_map, List.length_cons, Forest.length_words, Graph.size]
  omega

theorem contains_eq (a : ActionId) : x.contains a = g.contains a := by
  obtain ⟨key, hholds, -⟩ := h
  have hgraph : g.contains a = true ↔ ∃ k v, a ∈ g.top.actionsAt k v :=
    Forest.contains_eq_true.trans (Forest.mem_gather hg.1)
  rw [Bool.eq_iff_iff, hgraph, contains, List.any_eq_true]
  constructor
  · rintro ⟨k, hk, ha⟩
    obtain ⟨w, c, hw, rfl⟩ := hholds.live (M.mem_keys.mp hk)
    have hmem : a ∈ c.1 := by simpa [hholds.node hw, nodeAt] using ha
    cases w with
    | nil =>
      cases hw
      cases hmem
    | cons j w => exact ⟨j, w, by rw [Forest.actionsAt_eq_read g.top []]; exact mem_read.mpr ⟨c, hw, hmem⟩⟩
  · rintro ⟨j, w, ha⟩
    rw [Forest.actionsAt_eq_read g.top []] at ha
    obtain ⟨c, hw, hmem⟩ := mem_read.mp ha
    exact ⟨key (j :: w), M.mem_keys.mpr (hholds.isSome hw), by simpa [hholds.node hw, nodeAt] using hmem⟩

theorem actionsAt_eq (p : Path) : x.actionsAt p = .ok (g.actionsAt p) := by
  obtain ⟨key, hholds, hroot⟩ := h
  obtain ⟨n, w, hword⟩ := p.word_eq_cons
  have hfrom := actionsFrom_eq hholds hg.kempt p.steps_ne_nil (w := []) rfl
  have hread : g.top.actionsAt (.field n) w = Stem.read (.field n :: w) g.stem := Forest.actionsAt_eq_read ..
  rw [actionsAt, ← hroot, hfrom, show p.steps.flatMap Step.labels = p.word from rfl, Graph.actionsAt]
  simp only [hword, hread]

variable (hdepth : g.size ≤ depth)

include hdepth

theorem hasActions_eq : x.hasActions depth = .ok g.hasActions := by
  obtain ⟨key, hholds, hroot⟩ := h
  rw [Graph.size] at hdepth
  obtain ⟨d, rfl⟩ : ∃ d, depth = d + 1 := ⟨depth - 1, by omega⟩
  have hlinks := anyM_links hholds hg.kempt (hg.kempt.beneath (w := []) rfl) (show g.top.size ≤ d by omega)
  rw [hasActions, ← hroot, hasActionsFrom_eq hholds hg.kempt (w := []) rfl hlinks]
  rfl

theorem objectPlan_eq {α : Type} (resolve : ActionId → Option α) :
    x.objectPlan resolve depth = .ok (g.compile resolve) := by
  obtain ⟨key, hholds, hroot⟩ := h
  rw [Graph.size] at hdepth
  obtain ⟨d, rfl⟩ : ∃ d, depth = d + 1 := ⟨depth - 1, by omega⟩
  have hlinks := planOf_eq hholds hg.kempt resolve (hg.kempt.beneath (w := []) rfl) hg.2
    (show g.top.size ≤ d by omega)
  rw [objectPlan, ← hroot, planFrom_eq hholds resolve (w := []) rfl hg.2]
  exact hlinks

theorem text_eq : x.text depth = .ok g.text := by
  obtain ⟨key, hholds, hroot⟩ := h
  rw [Graph.size] at hdepth
  obtain ⟨d, rfl⟩ : ∃ d, depth = d + 1 := ⟨depth - 1, by omega⟩
  have hlinks := mapM_links hholds hg.kempt (hg.kempt.beneath (w := []) rfl) (show g.top.size ≤ d by omega)
  rw [text, ← hroot, textFrom_eq hholds hg.kempt (w := []) rfl hlinks]
  rfl

end

end Arena
end LiveRules
