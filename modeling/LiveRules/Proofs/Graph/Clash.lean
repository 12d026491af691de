/-
# When paths do not fit into a graph

A node of a graph is an object or a collection, never both. So a path does not fit
if it goes on from a property to a member while a path in the graph goes on from
the same property, reached along the same word, to another property, or the
reverse. Nothing else keeps a path out, and a path that fits is in use from then
on: paths that are inserted in order also have to fit with the ones before them.

Key definitions: `Graph.Uses`, `Path.ClashesAt`, `FirstClash`.
Key theorems: `Forest.insert_eq_error`, `Graph.Built.insert_eq_error`.
-/
import LiveRules.Proofs.Graph.Compiled

namespace LiveRules

/-- The path leaves the property `n` by a label of another kind than a word in use does. -/
def Path.ClashesAt (used : List Label → Prop) (p : Path) (n : String) : Prop :=
  ∃ u k j, u ++ [.field n, k] <+: p.word ∧ used (u ++ [.field n, j]) ∧ j.sameKind k = false

/-- Each path being in use once it is taken, the first one that clashes does so at `n`. -/
def FirstClash (n : String) : (List Label → Prop) → List Path → Prop
  | _, [] => False
  | used, p :: ps =>
    p.ClashesAt used n ∨
      (∀ m, ¬ p.ClashesAt used m) ∧ FirstClash n (fun v => used v ∨ v <+: p.word) ps

namespace Forest

/-- Where a word cannot be inserted: it leaves the label `l` by `k`, the forest by a
`j` of another kind. -/
def Blocks (f : Forest) (w : List Label) (l : Label) : Prop :=
  ∃ u k j, u ++ [l, k] <+: w ∧ j ∈ (f.descend (u ++ [l])).labels ∧ j.sameKind k = false

theorem not_blocks_singleton {f : Forest} {k l : Label} : ¬ f.Blocks [k] l := by
  rintro ⟨u, i, j, hpre, -⟩
  have := hpre.length_le
  simp at this

/-- Below its first label a word is blocked where the rest is, unless right there. -/
theorem blocks_cons {f : Forest} {k i l : Label} {v : List Label} :
    f.Blocks (k :: i :: v) l ↔
      (l = k ∧ ∃ j ∈ (f.descend [k]).labels, j.sameKind i = false) ∨ (f.descend [k]).Blocks (i :: v) l := by
  constructor
  · rintro ⟨u, i', j, hpre, hj, hkind⟩
    cases u with
    | nil =>
      obtain ⟨rfl, hrest⟩ := List.cons_prefix_cons.mp hpre
      obtain ⟨rfl, -⟩ := List.cons_prefix_cons.mp hrest
      exact Or.inl ⟨rfl, j, hj, hkind⟩
    | cons k' u =>
      obtain ⟨rfl, hrest⟩ := List.cons_prefix_cons.mp hpre
      refine Or.inr ⟨u, i', j, hrest, ?_, hkind⟩
      rwa [descend_descend]
  · rintro (⟨rfl, j, hj, hkind⟩ | ⟨u, i', j, hpre, hj, hkind⟩)
    · exact ⟨[], i, j, by simp, hj, hkind⟩
    · rw [descend_descend] at hj
      exact ⟨k :: u, i', j, List.cons_prefix_cons.mpr ⟨rfl, hpre⟩, hj, hkind⟩

/-- A forest without the label `i` does not block words that begin with it. -/
theorem not_blocks_of_not_mem {f : Forest} {i l : Label} {v : List Label} (h : i ∉ f.labels) :
    ¬ f.Blocks (i :: v) l := by
  rintro ⟨u, k, j, hpre, hj, -⟩
  have hnil : f.descend (u ++ [l]) = .nil := by
    cases u with
    | nil =>
      obtain ⟨rfl, -⟩ := List.cons_prefix_cons.mp hpre
      exact descend_of_not_mem h
    | cons i' u =>
      obtain ⟨rfl, -⟩ := List.cons_prefix_cons.mp hpre
      exact descend_of_not_mem h
  rw [hnil] at hj
  cases hj

theorem blocks_next {l k j : Label} {as : List ActionId} {below next : Forest} {w : List Label} (hlk : l ≠ k) :
    (Forest.node l as below next).Blocks (k :: w) j ↔ next.Blocks (k :: w) j := by
  have hdescend : ∀ u i, u ++ [j, i] <+: k :: w →
      (Forest.node l as below next).descend (u ++ [j]) = next.descend (u ++ [j]) := by
    intro u i hpre
    cases u with
    | nil =>
      obtain ⟨rfl, -⟩ := List.cons_prefix_cons.mp hpre
      exact if_neg hlk
    | cons k' u =>
      obtain ⟨rfl, -⟩ := List.cons_prefix_cons.mp hpre
      exact if_neg hlk
  constructor
  · rintro ⟨u, i, m, hpre, hm, hkind⟩
    exact ⟨u, i, m, hpre, hdescend u i hpre ▸ hm, hkind⟩
  · rintro ⟨u, i, m, hpre, hm, hkind⟩
    exact ⟨u, i, m, hpre, (hdescend u i hpre).symm ▸ hm, hkind⟩

/-- **Inserting a word** fails exactly where the forest blocks it. -/
theorem insert_eq_error {f : Forest} (hf : f.Tidy) {a : ActionId} {k : Label} {w : List Label} {e : Error} :
    f.insert a k w = .error e ↔ ∃ l, e = .shapeConflict l.name ∧ f.Blocks (k :: w) l := by
  induction f generalizing k w with
  | nil =>
    have hnone : ∀ l, ¬ nil.Blocks (k :: w) l := fun l => not_blocks_of_not_mem (by simp [labels])
    simp [insert, hnone]
  | node m as below next ihb ihn =>
    obtain ⟨-, -, -, -, hb, hn⟩ := hf
    by_cases hmk : m = k
    · subst hmk
      cases w with
      | nil => simp [insert, not_blocks_singleton]
      | cons i v =>
        have hbelow : (Forest.node m as below next).descend [m] = below := by
          rw [descend, if_pos rfl, descend_nil]
        rw [insert, if_pos rfl]
        simp only [blocks_cons, hbelow]
        by_cases hadm : below.admits i = true
        · -- the word goes on in the kind that is there, so it is blocked further down or not at all
          have hhere : ¬ ∃ j ∈ below.labels, j.sameKind i = false := by
            rintro ⟨j, hj, hkind⟩
            rw [sameKind_of_admits hb hadm j hj] at hkind
            cases hkind
          rw [if_pos hadm]
          have := ihb hb (k := i) (w := v)
          cases hi : below.insert a i v with
          | error e' => simpa [hi, Except.map, hhere] using this
          | ok b => simpa [hi, Except.map, hhere] using this
        · -- it does not, and then nothing of the word is there further down
          have hhere : ∃ j ∈ below.labels, j.sameKind i = false := by
            cases below with
            | nil => exact absurd rfl hadm
            | node j bs inside nx => exact ⟨j, List.mem_cons_self, by simpa [admits] using hadm⟩
          have hdeeper : ∀ l, ¬ below.Blocks (i :: v) l := by
            intro l
            obtain ⟨j, hj, hkind⟩ := hhere
            refine not_blocks_of_not_mem fun hi => ?_
            rw [sameKind_labels hb j hj i hi] at hkind
            cases hkind
          rw [if_neg hadm]
          simp only [hdeeper, hhere, and_true, or_false, exists_eq_right, Except.error.injEq]
          exact eq_comm
    · rw [insert.eq_def]
      simp only [hmk, ↓reduceIte, blocks_next hmk]
      have := ihn hn (k := k) (w := w)
      cases hi : next.insert a k w with
      | error e' => simpa [hi, Except.map] using this
      | ok n => simpa [hi, Except.map] using this

/-- A member is never itself a collection. -/
theorem not_member_below_member {f : Forest} (hf : f.Tidy) (u : List Label) :
    .member ∉ (f.descend (u ++ [.member])).labels := by
  rw [← descend_descend]
  cases ht : (f.descend u).tree? .member with
  | none =>
    rw [descend_of_not_mem (tree?_eq_none.mp ht)]
    simp [labels]
  | some t =>
    rw [descend_of_tree ht, descend_nil]
    exact (tidy_of_tree (descend_tidy u hf) ht).2 rfl

end Forest

namespace Graph

/-- Some path in the graph begins with `v`. -/
def Uses (g : Graph) (v : List Label) : Prop :=
  ∃ q : Path, g.actionsAt q ≠ [] ∧ v <+: q.word

variable {g g' : Graph}

theorem Built.mem_labels (h : g.Built) (w : List Label) (k : Label) :
    k ∈ (g.top.descend w).labels ↔ g.Uses (w ++ [k]) := by
  rw [Forest.mem_labels_iff (Forest.descend_tidy w h.sound.1)]
  constructor
  · rintro ⟨v, hv⟩
    obtain ⟨a, ha⟩ := List.exists_mem_of_ne_nil _ hv
    obtain ⟨q, hq, hpre⟩ := (h.mem_below w k).mp ⟨v, ha⟩
    exact ⟨q, List.ne_nil_of_mem hq, hpre⟩
  · rintro ⟨q, hq, hpre⟩
    obtain ⟨a, ha⟩ := List.exists_mem_of_ne_nil _ hq
    obtain ⟨v, hv⟩ := (h.mem_below w k).mpr ⟨q, ha, hpre⟩
    exact ⟨v, List.ne_nil_of_mem hv⟩

/-- A path is blocked at properties only, and just where it clashes. -/
theorem Built.blocks_iff (h : g.Built) (p : Path) (l : Label) :
    g.top.Blocks p.word l ↔ ∃ n, l = .field n ∧ p.ClashesAt g.Uses n := by
  constructor
  · rintro ⟨u, k, j, hpre, hj, hkind⟩
    cases l with
    | field n =>
      rw [h.mem_labels, List.append_assoc] at hj
      exact ⟨n, rfl, u, k, j, hpre, hj, hkind⟩
    | member =>
      -- after `member` both the path and the graph go on to a property
      have hchain := List.IsChain.prefix p.word_proper hpre
      have hproper := hchain.right_of_append
      have hk : k ≠ .member := fun hk => (List.isChain_cons_cons.mp hproper).1 ⟨rfl, hk⟩
      have hjm : j ≠ .member := fun hjm => Forest.not_member_below_member h.sound.1 u (hjm ▸ hj)
      cases j <;> cases k <;> simp_all [Label.sameKind]
  · rintro ⟨n, rfl, u, k, j, hpre, hj, hkind⟩
    refine ⟨u, k, j, hpre, ?_, hkind⟩
    rw [h.mem_labels, List.append_assoc]
    exact hj

theorem Built.insertWord_eq_error (h : g.Built) {a : ActionId} {p : Path} {e : Error} :
    insertWord a g p.word = .error e ↔ ∃ n, e = .shapeConflict n ∧ p.ClashesAt g.Uses n := by
  have hblocks := h.blocks_iff p
  obtain ⟨m, w, hp⟩ := p.word_eq_cons
  rw [hp] at hblocks ⊢
  have herror : insertWord a g (.field m :: w) = .error e ↔ g.top.insert a (.field m) w = .error e := by
    unfold insertWord
    cases hi : g.top.insert a (.field m) w <;> simp [hi, Except.map]
  rw [herror, Forest.insert_eq_error h.sound.1]
  simp only [hblocks]
  constructor
  · rintro ⟨l, rfl, n, rfl, hclash⟩
    exact ⟨n, rfl, hclash⟩
  · rintro ⟨n, rfl, hclash⟩
    exact ⟨.field n, rfl, n, rfl, hclash⟩

/-- A path that has been inserted is in use, besides what was before. -/
theorem uses_insertWord {a : ActionId} {p : Path} (h : insertWord a g p.word = .ok g') :
    g'.Uses = fun v => g.Uses v ∨ v <+: p.word := by
  funext v
  apply propext
  unfold Uses
  simp only [actionsAt_insertWord h]
  constructor
  · rintro ⟨q, hq, hpre⟩
    by_cases hqp : q = p
    · exact Or.inr (hqp ▸ hpre)
    · rw [if_neg hqp] at hq
      exact Or.inl ⟨q, hq, hpre⟩
  · rintro (⟨q, hq, hpre⟩ | hpre)
    · refine ⟨q, ?_, hpre⟩
      split
      · exact List.ne_nil_of_mem (mem_insertId.mpr (Or.inl rfl))
      · exact hq
    · refine ⟨p, ?_, hpre⟩
      rw [if_pos rfl]
      exact List.ne_nil_of_mem (mem_insertId.mpr (Or.inl rfl))

/-- **Inserting paths** fails exactly at the first one that clashes with the graph or
with a path before it. -/
theorem Built.insert_eq_error (h : g.Built) {a : ActionId} {paths : List Path} {e : Error} :
    g.insert paths a = .error e ↔ ∃ n, e = .shapeConflict n ∧ FirstClash n g.Uses paths := by
  induction paths generalizing g with
  | nil => simp [Graph.insert, FirstClash, pure, Except.pure]
  | cons p ps ih =>
    have hword : ∀ {e}, insertWord a g p.word = .error e ↔ _ := h.insertWord_eq_error
    unfold Graph.insert
    rw [List.foldlM_cons]
    cases hp : insertWord a g p.word with
    | error e' =>
      obtain ⟨m, rfl, hclash⟩ := hword.mp hp
      have honly : ∀ n, p.ClashesAt g.Uses n → n = m := by
        intro n hn
        have := hp.symm.trans (hword.mpr ⟨n, rfl, hn⟩)
        simpa using this.symm
      simp only [bind, Except.bind, FirstClash, Except.error.injEq]
      constructor
      · rintro rfl
        exact ⟨m, rfl, Or.inl hclash⟩
      · rintro ⟨n, rfl, hn | ⟨hnone, -⟩⟩
        · rw [honly n hn]
        · exact absurd hclash (hnone m)
    | ok f =>
      have hnone : ∀ m, ¬ p.ClashesAt g.Uses m := by
        intro m hm
        have := hp.symm.trans (hword.mpr ⟨m, rfl, hm⟩)
        cases this
      have hone : Graph.insert g [p] a = .ok f := by simp [Graph.insert, hp, pure, Except.pure, bind, Except.bind]
      have hbuilt : f.Built := .insert h hone
      have hf := ih hbuilt
      rw [uses_insertWord hp] at hf
      simpa [Graph.insert, bind, Except.bind, FirstClash, hnone] using hf

end Graph
end LiveRules
