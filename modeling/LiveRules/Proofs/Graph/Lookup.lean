/-
# What a graph holds

A graph is read through `actionsAt`: which actions are recorded at the end of
a word. Inserting a path puts one id into one of these lists, erasing takes an
id out of all of them, and nothing else changes. Erasing relies on siblings
being distinct, which is part of what makes a forest `Tidy`: siblings are
distinct and of one kind, ids ascend, every node leads to an action, and a
collection's member is not itself a collection. Graphs that are built by
inserting and erasing are tidy.

Key definitions: `Forest.Tidy`, `Graph.Built`.
Key theorems: `Graph.actionsAt_insert`, `Graph.actionsAt_erase`, `Graph.Built.sound`.
-/
import LiveRules.Graph.Plan
import Mathlib.Data.List.Basic
import Mathlib.Data.List.Nodup
import Mathlib.Data.List.Chain

namespace LiveRules

/-! ### Ascending lists of ids -/

theorem mem_insertId {a b : ActionId} : ∀ {l : List ActionId}, b ∈ insertId a l ↔ b = a ∨ b ∈ l
  | [] => by simp [insertId]
  | c :: l => by
    unfold insertId
    split
    · simp
    · split
      · rename_i h; subst h; simp
      · simp only [List.mem_cons, mem_insertId (l := l)]; tauto

theorem insertId_ascending {a : ActionId} :
    ∀ {l : List ActionId}, l.Pairwise (· < ·) → (insertId a l).Pairwise (· < ·)
  | [], _ => by simp [insertId]
  | c :: l, h => by
    rw [List.pairwise_cons] at h
    unfold insertId
    split
    · rename_i hac
      refine List.pairwise_cons.mpr ⟨?_, List.pairwise_cons.mpr h⟩
      intro b hb
      rcases List.mem_cons.mp hb with rfl | hb
      · exact hac
      · exact lt_trans hac (h.1 b hb)
    · split
      · exact List.pairwise_cons.mpr h
      · refine List.pairwise_cons.mpr ⟨?_, insertId_ascending h.2⟩
        intro b hb
        rcases mem_insertId.mp hb with rfl | hb
        · grind
        · exact h.1 b hb

/-- An id above all others goes to the end. -/
theorem insertId_of_forall_lt {a : ActionId} :
    ∀ {l : List ActionId}, (∀ b ∈ l, b < a) → insertId a l = l ++ [a]
  | [], _ => rfl
  | c :: l, h => by
    have hc : c < a := h c List.mem_cons_self
    unfold insertId
    rw [if_neg (lt_asymm hc), if_neg (ne_of_gt hc),
      insertId_of_forall_lt fun b hb => h b (List.mem_cons_of_mem _ hb)]
    rfl

theorem insertId_insertId (a : ActionId) : ∀ l : List ActionId, insertId a (insertId a l) = insertId a l
  | [] => by simp [insertId]
  | c :: l => by
    have ih := insertId_insertId a l
    by_cases h : a < c
    · simp [insertId, h]
    · by_cases h' : a = c
      · simp [insertId, h']
      · simp only [insertId, if_neg h, if_neg h', ih]

theorem mem_unionIds {as bs : List ActionId} {c : ActionId} : c ∈ unionIds as bs ↔ c ∈ as ∨ c ∈ bs := by
  induction as with
  | nil => simp [unionIds]
  | cons a as ih =>
    have h : unionIds (a :: as) bs = insertId a (unionIds as bs) := rfl
    rw [h, mem_insertId, ih, List.mem_cons]
    tauto

theorem unionIds_ascending {as bs : List ActionId} (h : bs.Pairwise (· < ·)) :
    (unionIds as bs).Pairwise (· < ·) := by
  induction as with
  | nil => exact h
  | cons a as ih => exact insertId_ascending ih

namespace Forest

/-! ### Reading after writing -/

theorem actionsAt_chain (a : ActionId) : ∀ (k : Label) (w : List Label) (j : Label) (v : List Label),
    (chain a k w).actionsAt j v = if j = k ∧ v = w then [a] else []
  | k, [], j, v => by
    by_cases hjk : k = j
    · subst hjk
      cases v <;> simp [chain, actionsAt]
    · simp [chain, actionsAt, hjk, Ne.symm hjk]
  | k, i :: w, j, v => by
    by_cases hjk : k = j
    · subst hjk
      cases v with
      | nil => simp [chain, actionsAt]
      | cons h v => simp [chain, actionsAt, actionsAt_chain a i w]
    · simp [chain, actionsAt, hjk, Ne.symm hjk]

theorem actionsAt_insert {a : ActionId} {f f' : Forest} {k : Label} {w : List Label}
    (h : f.insert a k w = .ok f') (j : Label) (v : List Label) :
    f'.actionsAt j v = if j = k ∧ v = w then insertId a (f.actionsAt j v) else f.actionsAt j v := by
  induction f generalizing f' k w j v with
  | nil =>
    simp only [insert, Except.ok.injEq] at h
    subst h
    rw [actionsAt_chain]
    simp [actionsAt, insertId]
  | node l as below next ihb ihn =>
    unfold insert at h
    split at h
    · rename_i hlk
      subst hlk
      cases w with
      | nil =>
        simp only [Except.ok.injEq] at h
        subst h
        by_cases hlj : l = j
        · subst hlj
          cases v <;> simp [actionsAt]
        · simp [actionsAt, hlj, Ne.symm hlj]
      | cons i u =>
        simp only at h
        split at h
        · cases hb : below.insert a i u with
          | error e => simp [hb, Except.map] at h
          | ok b =>
            simp only [hb, Except.map, Except.ok.injEq] at h
            subst h
            by_cases hlj : l = j
            · subst hlj
              cases v with
              | nil => simp [actionsAt]
              | cons g v => simp [actionsAt, ihb hb]
            · simp [actionsAt, hlj, Ne.symm hlj]
        · simp at h
    · rename_i hlk
      cases hn : next.insert a k w with
      | error e => simp [hn, Except.map] at h
      | ok n =>
        simp only [hn, Except.map, Except.ok.injEq] at h
        subst h
        by_cases hlj : l = j
        · subst hlj
          simp [actionsAt, hlk]
        · simp [actionsAt, hlj, ihn hn]

/-- The labels of the trees side by side. -/
def labels : Forest → List Label
  | .nil => []
  | .node l _ _ next => l :: next.labels

/-- See the head of this file. -/
def Tidy : Forest → Prop
  | .nil => True
  | .node l as below next =>
    (l ∉ next.labels ∧ (∀ k ∈ next.labels, l.sameKind k = true)) ∧ as.Pairwise (· < ·) ∧
      (as ≠ [] ∨ below ≠ .nil) ∧ (l = .member → .member ∉ below.labels) ∧ below.Tidy ∧ next.Tidy

theorem actionsAt_of_not_mem {k : Label} {w : List Label} :
    ∀ {f : Forest}, k ∉ f.labels → f.actionsAt k w = []
  | .nil, _ => rfl
  | .node l as below next, h => by
    simp only [labels, List.mem_cons, not_or] at h
    unfold actionsAt
    rw [if_neg (Ne.symm h.1), actionsAt_of_not_mem h.2]

theorem labels_erase_subset (a : ActionId) : ∀ (f : Forest), (f.erase a).labels ⊆ f.labels
  | .nil => by simp [erase, labels]
  | .node l as below next => by
    have ih := labels_erase_subset a next
    rw [erase]
    split
    · exact fun k hk => List.mem_cons_of_mem _ (ih hk)
    · intro k hk
      rcases List.mem_cons.mp hk with rfl | hk
      · exact List.mem_cons_self
      · exact List.mem_cons_of_mem _ (ih hk)

theorem actionsAt_erase (a : ActionId) {f : Forest} (hf : f.Tidy) (k : Label) (w : List Label) :
    (f.erase a).actionsAt k w = (f.actionsAt k w).filter (· ≠ a) := by
  induction f generalizing k w with
  | nil => rfl
  | node l as below next ihb ihn =>
    obtain ⟨⟨hl, -⟩, -, -, -, hb, hn⟩ := hf
    have herase : l ∉ (next.erase a).labels := fun h => hl (labels_erase_subset a next h)
    rw [erase]
    split
    · -- the node goes: it held nothing but `a`, and nothing is left below it
      rename_i has hbel
      rw [ihn hn k w]
      by_cases hlk : l = k
      · subst hlk
        rw [actionsAt_of_not_mem hl]
        cases w with
        | nil => simp only [actionsAt, ↓reduceIte, has, List.filter_nil]
        | cons j v =>
          have := ihb hb j v
          rw [hbel] at this
          simp only [actionsAt, ↓reduceIte, List.filter_nil, ← this]
      · simp only [actionsAt, if_neg hlk]
    · by_cases hlk : l = k
      · subst hlk
        cases w with
        | nil => simp only [actionsAt, ↓reduceIte]
        | cons j v => simp only [actionsAt, ↓reduceIte, ihb hb]
      · simp only [actionsAt, if_neg hlk, ihn hn]

/-! ### Tidiness is kept -/

theorem sameKind_comm (k l : Label) : k.sameKind l = l.sameKind k := by
  cases k <;> cases l <;> rfl

theorem sameKind_trans {j k l : Label} (h : j.sameKind k = true) (h' : k.sameKind l = true) :
    j.sameKind l = true := by
  cases j <;> cases k <;> cases l <;> simp_all [Label.sameKind]

/-- In a tidy forest, a label that agrees with the first one agrees with all. -/
theorem sameKind_of_admits {f : Forest} (hf : f.Tidy) {k : Label} (h : f.admits k = true) :
    ∀ j ∈ f.labels, j.sameKind k = true := by
  cases f with
  | nil => simp [labels]
  | node l as below next =>
    intro j hj
    rcases List.mem_cons.mp hj with rfl | hj
    · exact h
    · exact sameKind_trans (sameKind_comm l j ▸ hf.1.2 j hj) h

theorem sameKind_labels {f : Forest} (hf : f.Tidy) : ∀ j ∈ f.labels, ∀ k ∈ f.labels, j.sameKind k = true := by
  cases f with
  | nil => simp [labels]
  | node l as below next =>
    have hfirst := sameKind_of_admits hf (k := l) (by cases l <;> rfl)
    intro j hj k hk
    exact sameKind_trans (hfirst j hj) (by rw [sameKind_comm]; exact hfirst k hk)

theorem labels_insert {a : ActionId} {f f' : Forest} {k : Label} {w : List Label}
    (h : f.insert a k w = .ok f') (j : Label) : j ∈ f'.labels ↔ j = k ∨ j ∈ f.labels := by
  induction f generalizing f' with
  | nil =>
    simp only [insert, Except.ok.injEq] at h
    subst h
    cases w <;> simp [chain, labels]
  | node l as below next ihb ihn =>
    unfold insert at h
    split at h
    · rename_i hlk
      subst hlk
      cases w with
      | nil =>
        simp only [Except.ok.injEq] at h
        subst h
        simp [labels]
      | cons i u =>
        simp only at h
        split at h
        · cases hb : below.insert a i u with
          | error e => simp [hb, Except.map] at h
          | ok b =>
            simp only [hb, Except.map, Except.ok.injEq] at h
            subst h
            simp [labels]
        · simp at h
    · cases hn : next.insert a k w with
      | error e => simp [hn, Except.map] at h
      | ok n =>
        simp only [hn, Except.map, Except.ok.injEq] at h
        subst h
        simp only [labels, List.mem_cons, ihn hn]
        tauto

/-- No member of a collection is asked to be a collection. -/
def Proper (w : List Label) : Prop :=
  w.IsChain fun j k => ¬ (j = .member ∧ k = .member)

theorem chain_tidy (a : ActionId) : ∀ (k : Label) (w : List Label), Proper (k :: w) → (chain a k w).Tidy
  | k, [], _ => by simp [chain, Tidy, labels]
  | k, j :: w, h => by
    have h' := List.isChain_cons_cons.mp h
    have ih := chain_tidy a j w h'.2
    have hne : chain a j w ≠ .nil := by cases w <;> simp [chain]
    have hlab : (chain a j w).labels = [j] := by cases w <;> rfl
    refine ⟨⟨by simp [labels], by simp [labels]⟩, List.Pairwise.nil, Or.inr hne, ?_, ih, trivial⟩
    intro hk hm
    rw [hlab, List.mem_singleton] at hm
    exact h'.1 ⟨hk, hm.symm⟩

theorem insert_tidy {a : ActionId} {f f' : Forest} {k : Label} {w : List Label} (hf : f.Tidy)
    (hk : ∀ j ∈ f.labels, j.sameKind k = true) (hw : Proper (k :: w))
    (h : f.insert a k w = .ok f') : f'.Tidy := by
  induction f generalizing f' k w with
  | nil =>
    simp only [insert, Except.ok.injEq] at h
    subst h
    exact chain_tidy a k w hw
  | node l as below next ihb ihn =>
    obtain ⟨⟨hl, hkind⟩, has, hlead, hmem, hb, hn⟩ := hf
    unfold insert at h
    split at h
    · rename_i hlk
      subst hlk
      cases w with
      | nil =>
        simp only [Except.ok.injEq] at h
        subst h
        have hne : insertId a as ≠ [] := List.ne_nil_of_mem (mem_insertId.mpr (Or.inl rfl))
        exact ⟨⟨hl, hkind⟩, insertId_ascending has, Or.inl hne, hmem, hb, hn⟩
      | cons i u =>
        have hw' := List.isChain_cons_cons.mp hw
        simp only at h
        split at h
        · rename_i hadm
          cases hbi : below.insert a i u with
          | error e => simp [hbi, Except.map] at h
          | ok b =>
            simp only [hbi, Except.map, Except.ok.injEq] at h
            subst h
            have hbt := ihb hb (sameKind_of_admits hb hadm) hw'.2 hbi
            have hne : b ≠ .nil := by
              rintro rfl
              have := (labels_insert hbi i).mpr (Or.inl rfl)
              simp [labels] at this
            refine ⟨⟨hl, hkind⟩, has, Or.inr hne, ?_, hbt, hn⟩
            intro hlm hmb
            rcases (labels_insert hbi _).mp hmb with hi | hmb
            · exact hw'.1 ⟨hlm, hi.symm⟩
            · exact hmem hlm hmb
        · simp at h
    · rename_i hlk
      cases hni : next.insert a k w with
      | error e => simp [hni, Except.map] at h
      | ok n =>
        simp only [hni, Except.map, Except.ok.injEq] at h
        subst h
        have hnt := ihn hn (fun j hj => hk j (List.mem_cons_of_mem _ hj)) hw hni
        refine ⟨⟨fun hln => ?_, fun j hj => ?_⟩, has, hlead, hmem, hb, hnt⟩
        · rcases (labels_insert hni l).mp hln with rfl | h'
          · exact hlk rfl
          · exact hl h'
        · rcases (labels_insert hni j).mp hj with rfl | h'
          · exact hk l List.mem_cons_self
          · exact hkind j h'

theorem erase_tidy (a : ActionId) {f : Forest} (hf : f.Tidy) : (f.erase a).Tidy := by
  induction f with
  | nil => trivial
  | node l as below next ihb ihn =>
    obtain ⟨⟨hl, hkind⟩, has, -, hmem, hb, hn⟩ := hf
    rw [erase]
    split
    · exact ihn hn
    · rename_i hleft
      refine ⟨⟨fun h => hl (labels_erase_subset a next h),
        fun j hj => hkind j (labels_erase_subset a next hj)⟩, has.filter _, ?_,
        fun hlm h => hmem hlm (labels_erase_subset a below h), ihb hb, ihn hn⟩
      by_contra hdead
      simp only [ne_eq, not_or, not_not] at hdead
      exact hleft hdead.1 hdead.2

end Forest

/-! ### Paths and their words -/

theorem Step.labels_ne_nil (s : Step) : s.labels ≠ [] := by
  unfold Step.labels
  split <;> simp

theorem Path.steps_ne_nil (p : Path) : p.steps ≠ [] := by
  intro h
  have := p.faultless
  rw [h] at this
  simp [stepsFault?] at this

/-- A path's word starts with a property. -/
theorem Path.word_eq_cons (p : Path) : ∃ name w, p.word = .field name :: w := by
  obtain ⟨s, rest, hs⟩ := List.exists_cons_of_ne_nil p.steps_ne_nil
  unfold Path.word
  rw [hs, List.flatMap_cons]
  unfold Step.labels
  split
  · exact ⟨s.name, _, rfl⟩
  · exact ⟨s.name, _, rfl⟩

theorem labels_flatMap_injective : ∀ {ss ts : List Step},
    ss.flatMap Step.labels = ts.flatMap Step.labels → ss = ts
  | [], [], _ => rfl
  | [], t :: ts, h => by
    have := Step.labels_ne_nil t
    simp_all
  | s :: ss, [], h => by
    have := Step.labels_ne_nil s
    simp_all
  | ⟨n, k⟩ :: ss, ⟨m, j⟩ :: ts, h => by
    -- what follows a step starts with a property, so `member` tells the kinds apart
    have next : ∀ us : List Step, ∀ w, us.flatMap Step.labels ≠ .member :: w := by
      rintro (_ | ⟨⟨_, _ | _⟩, us⟩) w <;> simp [Step.labels]
    cases k <;> cases j <;> simp only [List.flatMap_cons, Step.labels, List.cons_append, List.nil_append,
      List.cons.injEq, Label.field.injEq] at h
    · rw [h.1, labels_flatMap_injective h.2]
    · exact absurd h.2 (next ss _)
    · exact absurd h.2.symm (next ts _)
    · rw [h.1, labels_flatMap_injective h.2.2]

theorem Path.word_injective {p q : Path} (h : p.word = q.word) : p = q := by
  cases p
  cases q
  simp only [Path.mk.injEq]
  exact labels_flatMap_injective h

theorem Path.word_proper (p : Path) : Forest.Proper p.word := by
  unfold Path.word
  generalize p.steps = ss
  induction ss with
  | nil => exact List.isChain_nil
  | cons s ss ih =>
    have hstart : ∀ x ∈ (ss.flatMap Step.labels).head?, x ≠ .member := by
      rcases ss with _ | ⟨⟨_, _ | _⟩, ss⟩ <;> simp [Step.labels]
    rw [List.flatMap_cons]
    refine List.IsChain.append ?_ ih fun x _ y hy h => hstart y hy h.2
    unfold Step.labels
    split <;> simp

namespace Graph

theorem actionsAt_insertWord {a : ActionId} {g g' : Graph} {p : Path}
    (h : insertWord a g p.word = .ok g') (q : Path) :
    g'.actionsAt q = if q = p then insertId a (g.actionsAt q) else g.actionsAt q := by
  obtain ⟨n, w, hp⟩ := p.word_eq_cons
  obtain ⟨m, v, hq⟩ := q.word_eq_cons
  rw [hp] at h
  unfold insertWord at h
  cases hi : g.top.insert a (.field n) w with
  | error e => simp [hi, Except.map] at h
  | ok t =>
    simp only [hi, Except.map, Except.ok.injEq] at h
    subst h
    have hiff : (Label.field m = Label.field n ∧ v = w) ↔ q = p :=
      ⟨fun e => Path.word_injective (by rw [hp, hq, e.1, e.2]), fun e => by subst e; simpa [hq] using hp⟩
    unfold actionsAt
    rw [hq]
    simp only
    rw [Forest.actionsAt_insert hi]
    exact if_congr hiff rfl rfl

/-- **Inserting** puts `a` at the end of the given paths and nowhere else. -/
theorem actionsAt_insert {a : ActionId} {paths : List Path} {g g' : Graph}
    (h : g.insert paths a = .ok g') (hold : ∀ q, ∀ b ∈ g.actionsAt q, b < a) (q : Path) :
    g'.actionsAt q = if q ∈ paths then g.actionsAt q ++ [a] else g.actionsAt q := by
  -- while the paths are inserted, `a` is at the end of those that are done
  suffices key : ∀ (ps done : List Path) (f : Graph),
      (∀ q, f.actionsAt q = if q ∈ done then g.actionsAt q ++ [a] else g.actionsAt q) →
      f.insert ps a = .ok g' →
      g'.actionsAt q = if q ∈ done ++ ps then g.actionsAt q ++ [a] else g.actionsAt q by
    simpa using key paths [] g (by simp) h
  intro ps
  induction ps with
  | nil =>
    intro done f hf hg
    cases hg
    simpa using hf q
  | cons p ps ih =>
    intro done f hf hg
    unfold Graph.insert at hg
    rw [List.foldlM_cons] at hg
    cases hp : insertWord a f p.word with
    | error e => simp [hp, bind, Except.bind] at hg
    | ok f' =>
      simp only [hp, bind, Except.bind] at hg
      have := ih (done ++ [p]) f' (fun r => ?_) hg
      · simpa using this
      · rw [actionsAt_insertWord hp r, hf r]
        have hend : insertId a (g.actionsAt r) = g.actionsAt r ++ [a] := insertId_of_forall_lt (hold r)
        by_cases hrp : r = p
        · by_cases hrd : r ∈ done
          · have hagain : insertId a (g.actionsAt r ++ [a]) = g.actionsAt r ++ [a] := by
              rw [← hend]
              exact insertId_insertId a _
            simp [hrp ▸ hrd, hrp ▸ hagain, hrp]
          · simp [hrp ▸ hrd, hrp ▸ hend, hrp]
        · simp [hrp]

/-- A tidy graph below a root that is an object. -/
def Sound (g : Graph) : Prop :=
  g.top.Tidy ∧ .member ∉ g.top.labels

theorem empty_sound : empty.Sound :=
  ⟨trivial, by simp [empty, Forest.labels]⟩

theorem actionsAt_empty (p : Path) : empty.actionsAt p = [] := by
  obtain ⟨n, w, hp⟩ := p.word_eq_cons
  simp [actionsAt, hp, empty, Forest.actionsAt]

theorem insertWord_sound {a : ActionId} {g g' : Graph} {p : Path} (hg : g.Sound)
    (h : insertWord a g p.word = .ok g') : g'.Sound := by
  obtain ⟨n, w, hp⟩ := p.word_eq_cons
  have hproper := p.word_proper
  rw [hp] at h hproper
  unfold insertWord at h
  cases hi : g.top.insert a (.field n) w with
  | error e => simp [hi, Except.map] at h
  | ok t =>
    simp only [hi, Except.map, Except.ok.injEq] at h
    subst h
    have hkind : ∀ j ∈ g.top.labels, j.sameKind (.field n) = true := by
      rintro (m | _) hj
      · rfl
      · exact absurd hj hg.2
    refine ⟨Forest.insert_tidy hg.1 hkind hproper hi, fun hm => ?_⟩
    rcases (Forest.labels_insert hi _).mp hm with h' | h'
    · cases h'
    · exact hg.2 h'

theorem insert_sound {a : ActionId} {paths : List Path} {g g' : Graph} (hg : g.Sound)
    (h : g.insert paths a = .ok g') : g'.Sound := by
  induction paths generalizing g with
  | nil =>
    cases h
    exact hg
  | cons p ps ih =>
    unfold Graph.insert at h
    rw [List.foldlM_cons] at h
    cases hp : insertWord a g p.word with
    | error e => simp [hp, bind, Except.bind] at h
    | ok f =>
      simp only [hp, bind, Except.bind] at h
      exact ih (insertWord_sound hg hp) h

theorem erase_sound {g : Graph} (hg : g.Sound) (a : ActionId) : (g.erase a).Sound :=
  ⟨Forest.erase_tidy a hg.1, fun h => hg.2 (Forest.labels_erase_subset a g.top h)⟩

/-- **Erasing** takes `a` out of every list. -/
theorem actionsAt_erase {g : Graph} (hg : g.Sound) (a : ActionId) (q : Path) :
    (g.erase a).actionsAt q = (g.actionsAt q).filter (· ≠ a) := by
  obtain ⟨n, w, hq⟩ := q.word_eq_cons
  simp only [actionsAt, hq, erase]
  exact Forest.actionsAt_erase a hg.1 _ _

theorem eraseAll_sound {g : Graph} (hg : g.Sound) (as : List ActionId) : (g.eraseAll as).Sound := by
  induction as generalizing g with
  | nil => exact hg
  | cons a as ih => exact ih (erase_sound hg a)

theorem actionsAt_eraseAll {g : Graph} (hg : g.Sound) (as : List ActionId) (q : Path) :
    (g.eraseAll as).actionsAt q = (g.actionsAt q).filter (· ∉ as) := by
  induction as generalizing g with
  | nil => simp [eraseAll]
  | cons a as ih =>
    have h := ih (erase_sound hg a)
    unfold eraseAll at h ⊢
    rw [List.foldl_cons, h, actionsAt_erase hg, List.filter_filter]
    apply List.filter_congr
    intro b _
    simp [Bool.and_comm]

/-- The graphs there are: empty, or made by inserting paths and erasing actions. -/
inductive Built : Graph → Prop
  | empty : Built .empty
  | insert {g g' : Graph} {paths : List Path} {a : ActionId} :
    Built g → g.insert paths a = .ok g' → Built g'
  | erase {g : Graph} (a : ActionId) : Built g → Built (g.erase a)

theorem Built.sound {g : Graph} (h : Built g) : g.Sound := by
  induction h with
  | empty => exact empty_sound
  | insert _ hi ih => exact insert_sound ih hi
  | erase a _ ih => exact erase_sound ih a

/-- Actions are recorded at the ends of paths only. -/
def Literate (g : Graph) : Prop :=
  ∀ k v, g.top.actionsAt k v ≠ [] → ∃ p : Path, p.word = k :: v

theorem insertWord_literate {a : ActionId} {g g' : Graph} {p : Path} (hg : g.Literate)
    (h : insertWord a g p.word = .ok g') : g'.Literate := by
  obtain ⟨n, w, hp⟩ := p.word_eq_cons
  rw [hp] at h
  unfold insertWord at h
  cases hi : g.top.insert a (.field n) w with
  | error e => simp [hi, Except.map] at h
  | ok t =>
    simp only [hi, Except.map, Except.ok.injEq] at h
    subst h
    intro k v hkv
    simp only [Forest.actionsAt_insert hi] at hkv
    split at hkv
    · rename_i heq
      exact ⟨p, by rw [hp, heq.1, heq.2]⟩
    · exact hg k v hkv

theorem insert_literate {a : ActionId} {paths : List Path} {g g' : Graph} (hg : g.Literate)
    (h : g.insert paths a = .ok g') : g'.Literate := by
  induction paths generalizing g with
  | nil =>
    cases h
    exact hg
  | cons p ps ih =>
    unfold Graph.insert at h
    rw [List.foldlM_cons] at h
    cases hp : insertWord a g p.word with
    | error e => simp [hp, bind, Except.bind] at h
    | ok f =>
      simp only [hp, bind, Except.bind] at h
      exact ih (insertWord_literate hg hp) h

theorem Built.literate {g : Graph} (h : Built g) : g.Literate := by
  induction h with
  | empty => exact fun k v hkv => absurd rfl hkv
  | insert _ hi ih => exact insert_literate ih hi
  | erase a hb ih =>
    intro k v hkv
    refine ih k v fun hnil => hkv ?_
    rw [Graph.erase, Forest.actionsAt_erase a hb.sound.1, hnil]
    rfl

theorem Built.eraseAll {g : Graph} (h : Built g) (as : List ActionId) : Built (g.eraseAll as) := by
  induction as generalizing g with
  | nil => exact h
  | cons a as ih => exact ih (h.erase a)

end Graph
end LiveRules
