/-
# Removing from an arena

An action is taken off all nodes that have it, and then from each of them the dead nodes are
taken out, towards the root. In the meantime many nodes are dead at once, and the node from
which to go on may have been taken out by an earlier walk. But the arena holds a forest all
the time: whatever is taken out is a dead node that is listed by its parent, a key that is no
longer in use leads nowhere, and no key is given out while nodes are removed. So in the end
the arena holds what erasing the action leaves.

Key theorems: `Arena.unlink_eq`, `Arena.prune_eq`, `Arena.remove_eq`.
-/
import LiveRules.Proofs.Arena.Recording

namespace LiveRules

namespace Forest

variable {f : Forest} {u w : List Label} {k : Label} {as : List ActionId}

/-- **A node is dead** if its cell is empty. -/
theorem isDead_iff (as : List ActionId) : f.IsDead u k ↔ Stem.cell (as, f) (u ++ [k]) = some ([], []) := by
  rw [IsDead, Stem.cell, Stem.find_snoc]
  cases hfind : Stem.find u (as, f) with
  | none =>
    rw [descend_of_not_find hfind]
    simp [tree?]
  | some t =>
    rw [descend_of_find hfind, Option.bind_some]
    cases t.2.tree? k with
    | none => simp
    | some r =>
      obtain ⟨bs, below⟩ := r
      cases below <;> simp [labels]

theorem cell_of_mem_holders (as : List ActionId) {a : ActionId} (hf : f.Tidy) (hw : w ∈ f.holders a) :
    ∃ c, Stem.cell (as, f) w = some c ∧ a ∈ c.1 := by
  induction f generalizing as w with
  | nil => cases hw
  | node l bs below next ihb ihn =>
    obtain ⟨⟨hl, -⟩, -, -, -, hb, hn⟩ := hf
    rw [holders, List.mem_append, List.mem_append, List.mem_map] at hw
    rcases hw with (hw | ⟨v, hv, rfl⟩) | hw
    · split at hw
      · rename_i ha
        rw [List.mem_singleton.mp hw]
        exact ⟨(bs, below.labels), by simp [Stem.cell, Stem.find, tree?], ha⟩
      · cases hw
    · obtain ⟨c, hc, ha⟩ := ihb bs hb hv
      exact ⟨c, by rw [← hc]; simp [Stem.cell, Stem.find, tree?], ha⟩
    · obtain ⟨c, hc, ha⟩ := ihn as hn hw
      cases w with
      | nil =>
        cases hc
        exact ⟨_, rfl, ha⟩
      | cons j w =>
        have hlj : l ≠ j := by
          rintro rfl
          rw [Stem.cell, Stem.find, tree?_eq_none.mpr hl] at hc
          cases hc
        exact ⟨c, by rw [← hc]; simp [Stem.cell, Stem.find, tree?, hlj], ha⟩

end Forest

namespace Arena

variable {κ : Type} [DecidableEq κ] {M : SlotMap κ (Node κ)} {nodes nodes' : M.Map} {f : Forest}
  {key : List Label → κ} {u w : List Label} {k : Label} {as : List ActionId} {ls : List Label} {a : ActionId}

/-! ### Pruning -/

section

variable {root c p : κ} {n : Node κ}

theorem prune_of_none (hn : M.get? nodes c = none) : prune root nodes c = .ok nodes := by
  rw [prune]
  split
  · rfl
  · split
    · rfl
    · rename_i n' hn'
      rw [hn] at hn'
      cases hn'

theorem prune_of_alive (hn : M.get? nodes c = some n) (halive : n.isDead = false) : prune root nodes c = .ok nodes := by
  rw [prune]
  split
  · rfl
  · split
    · rfl
    · rename_i n' hn'
      rw [hn] at hn'
      cases hn'
      rw [if_neg (by simp [halive])]

theorem prune_of_dead (hroot : c ≠ root) (hn : M.get? nodes c = some n) (hdead : n.isDead = true)
    (hp : n.parent = some p) (hunlink : unlink M root (M.remove nodes c) p n.name = .ok nodes') :
    prune root nodes c = prune root nodes' p := by
  rw [prune, if_neg hroot]
  split
  · rename_i hn'
    rw [hn] at hn'
    cases hn'
  · rename_i n' hn'
    rw [hn] at hn'
    cases hn'
    rw [if_pos hdead]
    split
    · rename_i hp'
      rw [hp] at hp'
      cases hp'
    · rename_i p' hp'
      rw [hp] at hp'
      cases hp'
      split
      · rename_i hunlink'
        rw [hunlink] at hunlink'
        cases hunlink'
      · rename_i hunlink'
        rw [hunlink] at hunlink'
        cases hunlink'
        rfl

end

omit [DecidableEq κ] in
theorem erase_fields (hls : ls.Nodup) (hm : .member ∉ ls) (n : String) :
    Table.erase (ls.map fun l => (l.name, key (u ++ [l]))) n =
      (ls.erase (.field n)).map fun l => (l.name, key (u ++ [l])) := by
  rw [Table.erase, List.filter_map, hls.erase_eq_filter]
  congr 1
  refine List.filter_congr fun l hl => ?_
  cases l with
  | field m =>
    rw [Bool.eq_iff_iff]
    simp [Label.name]
  | member => exact absurd hl hm

/-- **A child is taken off** the list of its parent. -/
theorem unlink_eq (h : Holds M nodes ([], f) key []) (hs : Stem.Kempt ([], f))
    (hu : Stem.cell ([], f) u = some (as, ls)) (hk : k ∈ ls) :
    unlink M (key []) (M.remove nodes (key (u ++ [k]))) (key u) k.name =
      .ok (M.replace (M.remove nodes (key (u ++ [k]))) (key u) (nodeAt key [] u (as, ls.erase k))) := by
  obtain ⟨c, hc⟩ := Stem.exists_cell_snoc hu hk
  have hne : key (u ++ [k]) ≠ key u := fun heq => by simpa using h.apart hc hu heq
  have hlook : look M (M.remove nodes (key (u ++ [k]))) (key u) = .ok (nodeAt key [] u (as, ls)) := by
    rw [look_eq_ok, M.get?_remove, if_neg hne, h.node hu]
  have hbranch : (nodeAt key [] u (as, ls)).branch = branchAt key [] u ls := rfl
  simp only [unlink, hlook, bind, Except.bind]
  cases k with
  | member =>
    obtain rfl := (hs.siblings hu).eq_singleton hk
    obtain ⟨v, n, rfl⟩ := hs.member hu hk
    simp [nodeAt, branchAt]
  | field n =>
    have hm := (hs.siblings hu).not_member hk
    have hnil : ls ≠ [] := List.ne_nil_of_mem hk
    have hroot : key u ≠ key [] ↔ u ≠ [] := not_congr ⟨h.apart hu rfl, fun heq => by rw [heq]⟩
    rw [hbranch, branchAt_of_fields hm, if_neg fun hleaf => hnil hleaf.1]
    simp only [erase_fields (hs.siblings hu).nodup hm]
    rw [nodeAt, nodeAt, branchAt_of_fields fun hm' => hm (List.mem_of_mem_erase hm')]
    simp [hroot, show (Label.field n).name = n from rfl]

theorem prune_eq (h : Holds M nodes ([], f) key []) (hs : Stem.Kempt ([], f))
    (hw : ∀ v c, Stem.cell ([], f) v = some c → key v = key w.reverse → v = w.reverse) :
    ∃ nodes', prune (key []) nodes (key w.reverse) = .ok nodes' ∧ Holds M nodes' ([], f.prune w) key [] ∧
      Stem.Kempt ([], f.prune w) ∧ ∀ v, (Stem.cell ([], f.prune w) v).isSome → (Stem.cell ([], f) v).isSome := by
  induction w generalizing nodes f with
  | nil =>
    refine ⟨nodes, ?_, h, hs, fun v hv => hv⟩
    rw [prune, if_pos (by simp)]
  | cons k up ih =>
    rw [List.reverse_cons] at hw ⊢
    have hroot : key (up.reverse ++ [k]) ≠ key [] := fun heq => by simpa using hw [] _ rfl heq.symm
    have hdead := Forest.isDead_iff (f := f) (u := up.reverse) (k := k) []
    rw [Forest.prune]
    cases hcell : Stem.cell ([], f) (up.reverse ++ [k]) with
    | none =>
      have hnone : M.get? nodes (key (up.reverse ++ [k])) = none := by
        by_contra hne
        obtain ⟨v, c, hv, heq⟩ := h.live (Option.isSome_iff_ne_none.mpr hne)
        rw [hw v c hv heq, hcell] at hv
        cases hv
      rw [if_neg (by simp [hdead, hcell])]
      exact ⟨nodes, prune_of_none hnone, h, hs, fun v hv => hv⟩
    | some c =>
      by_cases hc : c = ([], [])
      · subst hc
        obtain ⟨as, ls, hu, hk⟩ := Stem.exists_cell_of_snoc hcell
        rw [if_pos (hdead.mpr hcell)]
        have hcut := h.cut hu (hs.siblings hu).nodup hcell
        have hsome : ∀ v, (Stem.cell ([], f.cut (up.reverse ++ [k])) v).isSome → (Stem.cell ([], f) v).isSome :=
          fun v => Stem.isSome_of_cut hu (hs.siblings hu).nodup hcell
        obtain ⟨nodes', hok, h', hs', hsub⟩ := ih hcut (hs.cut hu hcell) fun v d hv heq => by
          obtain ⟨e, he⟩ := Option.isSome_iff_exists.mp (hsome v (by rw [hv]; rfl))
          exact h.apart he hu heq
        refine ⟨nodes', ?_, h', hs', fun v hv => hsome v (hsub v hv)⟩
        rw [← hok]
        refine prune_of_dead hroot (h.node hcell) (isDead_nodeAt.mpr rfl) ?_ ?_
        · simp [nodeAt]
        · simpa [nodeAt, nameAt_snoc] using unlink_eq h hs hu hk
      · rw [if_neg (by simp [hdead, hcell, hc])]
        refine ⟨nodes, prune_of_alive (h.node hcell) ?_, h, hs, fun v hv => hv⟩
        rw [← Bool.not_eq_true, isDead_nodeAt]
        exact hc

/-- **Pruning from several nodes**, one after the other, some of which may be gone by then. -/
theorem foldlM_prune_eq {order : List (List Label)} (h : Holds M nodes ([], f) key []) (hs : Stem.Kempt ([], f))
    (horder : ∀ w ∈ order, ∀ v c, Stem.cell ([], f) v = some c → key v = key w → v = w) :
    ∃ nodes', (order.map key).foldlM (prune (key [])) nodes = .ok nodes' ∧
      Holds M nodes' ([], order.foldl (fun f w => f.prune w.reverse) f) key [] := by
  induction order generalizing nodes f with
  | nil => exact ⟨nodes, rfl, h⟩
  | cons w order ih =>
    obtain ⟨nodes₁, hok, h₁, hs₁, hsub⟩ := prune_eq (w := w.reverse) h hs (by
      rw [List.reverse_reverse]
      exact horder w List.mem_cons_self)
    rw [List.reverse_reverse] at hok
    obtain ⟨nodes', hok', h'⟩ := ih h₁ hs₁ fun w' hw' v c hv heq => by
      obtain ⟨d, hd⟩ := Option.isSome_iff_exists.mp (hsub v (by rw [hv]; rfl))
      exact horder w' (List.mem_cons_of_mem _ hw') v d hd heq
    refine ⟨nodes', ?_, h'⟩
    rw [List.map_cons, List.foldlM_cons, hok]
    exact hok'

/-! ### Taking an action off -/

theorem get?_takeOff (nodes : M.Map) (k j : κ) :
    M.get? (takeOff M a nodes k) j =
      if k = j then (M.get? nodes j).map fun n => { n with actions := n.actions.erase a } else M.get? nodes j := by
  unfold takeOff
  by_cases hkj : k = j
  · subst hkj
    cases hk : M.get? nodes k with
    | none => simp [hk]
    | some n => simp [M.get?_replace, hk]
  · cases hk : M.get? nodes k with
    | none => simp [hkj]
    | some n => simp [M.get?_replace, hk, hkj]

theorem get?_foldl_takeOff {held : List κ} (hheld : held.Nodup) (nodes : M.Map) (j : κ) :
    M.get? (held.foldl (takeOff M a) nodes) j =
      if j ∈ held then (M.get? nodes j).map fun n => { n with actions := n.actions.erase a } else M.get? nodes j := by
  induction held generalizing nodes with
  | nil => simp
  | cons k held ih =>
    rw [List.nodup_cons] at hheld
    rw [List.foldl_cons, ih hheld.2, get?_takeOff]
    by_cases hkj : k = j
    · subst hkj
      simp [hheld.1]
    · simp [hkj, Ne.symm hkj]

theorem mem_holders {k : κ} : k ∈ holders M nodes a ↔ ∃ n, M.get? nodes k = some n ∧ a ∈ n.actions := by
  rw [holders, List.mem_filter, M.mem_keys]
  cases M.get? nodes k <;> simp

theorem holders_nodup : (holders M nodes a).Nodup :=
  (M.keys_nodup nodes).filter _

/-- **The nodes without the action** hold the forest without it. -/
theorem Holds.takenOff {s : Stem} (h : Holds M nodes s key []) (hs : s.Kempt) :
    Holds M ((holders M nodes a).foldl (takeOff M a) nodes) (Stem.strip a s) key [] := by
  refine h.strip fun k => ?_
  rw [get?_foldl_takeOff holders_nodup]
  cases hk : M.get? nodes k with
  | none => simp
  | some n =>
    obtain ⟨w, c, hw, rfl⟩ := h.live (by rw [hk]; rfl)
    have hnodup : n.actions.Nodup := by
      rw [h.node hw] at hk
      cases hk
      exact (hs.ascending hw).imp fun hlt => ne_of_lt hlt
    have hmem : key w ∈ holders M nodes a ↔ a ∈ n.actions := by
      rw [Arena.mem_holders, hk]
      simp
    have hfilter : n.actions.filter (· ≠ a) = n.actions.erase a := by
      rw [hnodup.erase_eq_filter]
      exact List.filter_congr fun b _ => by rw [Bool.eq_iff_iff]; simp
    rw [Option.map_some, Option.map_some, hfilter]
    by_cases ha : a ∈ n.actions
    · rw [if_pos (hmem.mpr ha)]
    · rw [if_neg fun hheld => ha (hmem.mp hheld), List.erase_of_not_mem ha]

theorem Holds.exists_words {s : Stem} (h : Holds M nodes s key []) (held : List κ)
    (hheld : ∀ k ∈ held, (M.get? nodes k).isSome = true) :
    ∃ order : List (List Label), order.map key = held ∧ ∀ w ∈ order, (s.cell w).isSome = true := by
  induction held with
  | nil => exact ⟨[], rfl, by simp⟩
  | cons k held ih =>
    obtain ⟨order, rfl, horder⟩ := ih fun j hj => hheld j (List.mem_cons_of_mem _ hj)
    obtain ⟨w, c, hw, rfl⟩ := h.live (hheld k List.mem_cons_self)
    refine ⟨w :: order, rfl, fun v hv => ?_⟩
    rcases List.mem_cons.mp hv with rfl | hv
    · rw [hw, Option.isSome_some]
    · exact horder v hv

/-- **Removing** comes to what erasing comes to in the graph. -/
theorem remove_eq {x : Arena M} {g : Graph} (h : HoldsGraph M x.root x.nodes g) (hg : g.Sound) (a : ActionId) :
    ∃ x', x.remove a = .ok x' ∧ HoldsGraph M x'.root x'.nodes (g.erase a) := by
  obtain ⟨key, hholds, hroot⟩ := h
  have htaken : Holds M _ ([], g.top.strip a) key [] := hholds.takenOff (a := a) hg.kempt
  obtain ⟨order, hmap, horder⟩ := hholds.exists_words (holders M x.nodes a) fun k hk => by
    obtain ⟨n, hn, -⟩ := mem_holders.mp hk
    rw [hn, Option.isSome_some]
  have hall : ∀ w ∈ g.top.holders a, w ∈ order := by
    intro w hw
    obtain ⟨c, hc, ha⟩ := Forest.cell_of_mem_holders [] hg.1 hw
    have hheld : key w ∈ holders M x.nodes a := mem_holders.mpr ⟨_, hholds.node hc, ha⟩
    rw [← hmap] at hheld
    obtain ⟨v, hv, heq⟩ := List.mem_map.mp hheld
    obtain ⟨d, hd⟩ := Option.isSome_iff_exists.mp (horder v hv)
    rwa [← hholds.apart hd hc heq]
  have hapart : ∀ w ∈ order, ∀ v c, Stem.cell ([], g.top.strip a) v = some c → key v = key w → v = w := by
    intro w hw v c hv heq
    obtain ⟨d, hd⟩ := Option.isSome_iff_exists.mp (horder w hw)
    have hw' : Stem.cell (Stem.strip a g.stem) w = some (d.1.filter (· ≠ a), d.2) := by
      rw [Stem.cell_strip, hd, Option.map_some]
    exact htaken.apart hv hw' heq
  obtain ⟨nodes', hok, h'⟩ := foldlM_prune_eq htaken (hg.kempt.strip a) hapart
  rw [Forest.foldl_prune hg.1 hall] at h'
  rw [hmap, hroot] at hok
  refine ⟨{ x with nodes := nodes' }, ?_, key, h', hroot⟩
  unfold remove
  simp only [bind, Except.bind, hok]
  rfl

end Arena
end LiveRules
