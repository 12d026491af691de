/-
# A graph is a set of pairs

Which actions watch which paths is a set of pairs, and recording and removing put
pairs in and take them out. A graph answers for such a set, however it was made: it
lists the ids paired with a path in ascending order, and it has one node for each
word with which a path in the set begins, besides its root. So nothing is left of
what was removed, or was refused, and the order of the edits cannot be told.

Key definitions: `Graph.Edit`, `Graph.edited`, `Forest.words`, `wordsOf`.
Key theorems: `Forest.mem_words`, `Graph.Reads.after`, `graph_reads_pairs`.
-/
import LiveRules.Proofs.Graph.Clash
import Mathlib.Data.Finset.Union
import Mathlib.Data.Finset.Prod

namespace LiveRules

/-! ### The words of a forest -/

namespace Forest

/-- The words that lead to a node, one for each. -/
def words : Forest → List (List Label)
  | .nil => []
  | .node l _ below next => [l] :: below.words.map (l :: ·) ++ next.words

theorem length_words : ∀ f : Forest, f.words.length = f.size
  | .nil => rfl
  | .node _ _ below next => by
    simp only [words, size, List.length_append, List.length_cons, List.length_map, length_words below,
      length_words next]
    omega

theorem head_mem_labels {k : Label} {w : List Label} : ∀ {f : Forest}, k :: w ∈ f.words → k ∈ f.labels
  | .node l _ below next, h => by
    rw [words, List.mem_append, List.mem_cons, List.mem_map] at h
    rcases h with (h | ⟨v, -, h⟩) | h
    · cases h
      exact List.mem_cons_self
    · cases h
      exact List.mem_cons_self
    · exact List.mem_cons_of_mem _ (head_mem_labels h)

theorem nil_not_mem_words : ∀ {f : Forest}, [] ∉ f.words
  | .nil, h => nomatch h
  | .node _ _ _ next, h => by
    rw [words, List.mem_append, List.mem_cons, List.mem_map] at h
    rcases h with (h | ⟨v, -, h⟩) | h
    · cases h
    · cases h
    · exact nil_not_mem_words h

/-- Different nodes have different words, since siblings have different labels. -/
theorem words_nodup {f : Forest} (hf : f.Tidy) : f.words.Nodup := by
  induction f with
  | nil => exact List.nodup_nil
  | node l as below next ihb ihn =>
    obtain ⟨⟨hl, -⟩, -, -, -, hb, hn⟩ := hf
    have hinside : ([l] :: below.words.map (l :: ·)).Nodup := by
      refine List.nodup_cons.mpr ⟨fun h => ?_, (ihb hb).map (List.cons_injective)⟩
      obtain ⟨v, hv, heq⟩ := List.mem_map.mp h
      cases heq
      exact nil_not_mem_words hv
    refine List.nodup_append.mpr ⟨hinside, ihn hn, fun w hw v hv heq => hl ?_⟩
    subst heq
    have hhead : ∃ u, w = l :: u := by
      rcases List.mem_cons.mp hw with rfl | hw
      · exact ⟨[], rfl⟩
      · obtain ⟨u, -, rfl⟩ := List.mem_map.mp hw
        exact ⟨u, rfl⟩
    obtain ⟨u, rfl⟩ := hhead
    exact head_mem_labels hv

/-- **There is a node** at the end of a word if its last label is below the rest. -/
theorem mem_words {f : Forest} (hf : f.Tidy) (w : List Label) (k : Label) :
    w ++ [k] ∈ f.words ↔ k ∈ (f.descend w).labels := by
  induction f generalizing w with
  | nil =>
    have hnil : (nil : Forest).descend w = nil := by cases w <;> rfl
    simp [hnil, words, labels]
  | node l as below next ihb ihn =>
    obtain ⟨⟨hl, -⟩, -, -, -, hb, hn⟩ := hf
    have hnext : ∀ u, l :: u ∉ next.words := fun u hu => hl (head_mem_labels hu)
    rw [words, List.mem_append, List.mem_cons, List.mem_map]
    cases w with
    | nil =>
      have hdeeper : ∀ v ∈ below.words, l :: v ≠ [k] := by
        rintro v hv heq
        cases heq
        exact nil_not_mem_words hv
      have hrest : [k] ∈ next.words ↔ k ∈ next.labels := by
        simpa [descend_nil] using ihn hn []
      simp only [List.nil_append, List.cons.injEq, and_true, descend_nil, labels, List.mem_cons, hrest]
      constructor
      · rintro ((rfl | ⟨v, hv, heq, rfl⟩) | h)
        · exact Or.inl rfl
        · exact absurd hv nil_not_mem_words
        · exact Or.inr h
      · rintro (rfl | h)
        · exact Or.inl (Or.inl rfl)
        · exact Or.inr h
    | cons j w =>
      have hsingle : j :: w ++ [k] ≠ [l] := by
        intro h
        have := congrArg List.length h
        simp at this
      rw [descend]
      by_cases hlj : l = j
      · subst hlj
        have := ihb hb w
        simpa [hnext, hsingle] using this
      · have := ihn hn (j :: w)
        simpa [hlj, hsingle, Ne.symm hlj] using this

theorem actionsAt_ascending {f : Forest} (hf : f.Tidy) (k : Label) (w : List Label) :
    (f.actionsAt k w).Pairwise (· < ·) := by
  induction f generalizing k w with
  | nil => exact .nil
  | node l as below next ihb ihn =>
    obtain ⟨-, has, -, -, hb, hn⟩ := hf
    rw [actionsAt.eq_def]
    simp only
    split
    · cases w with
      | nil => exact has
      | cons j v => exact ihb hb j v
    · exact ihn hn k w

theorem hasActions_iff {f : Forest} (hf : f.Tidy) : f.hasActions = true ↔ f ≠ .nil := by
  induction f with
  | nil => simp [hasActions]
  | node l as below next ihb ihn =>
    obtain ⟨-, -, hlead, -, hb, -⟩ := hf
    have hsome : as ≠ [] ∨ below.hasActions = true := hlead.imp_right (ihb hb).mpr
    have : (as ≠ [] ∨ below.hasActions = true) ∨ next.hasActions = true := Or.inl hsome
    simpa [hasActions] using this

end Forest

/-- The words with which the paths of the pairs begin. -/
def wordsOf (S : Finset (Path × ActionId)) : Finset (List Label) :=
  S.biUnion fun e => (e.1.word.inits.filter (· ≠ [])).toFinset

theorem mem_wordsOf {S : Finset (Path × ActionId)} {w : List Label} :
    w ∈ wordsOf S ↔ w ≠ [] ∧ ∃ e ∈ S, w <+: e.1.word := by
  simp only [wordsOf, Finset.mem_biUnion, List.mem_toFinset, List.mem_filter, List.mem_inits, decide_eq_true_eq]
  tauto

namespace Graph

/-- What is done to a graph. -/
inductive Edit
  | add (paths : List Path) (a : ActionId)
  | remove (a : ActionId)

/-- The graph after an edit. If the paths do not fit it stays as it is. -/
def after (g : Graph) : Edit → Graph
  | .add paths a =>
    match g.insert paths a with
    | .ok g' => g'
    | .error _ => g
  | .remove a => g.erase a

/-- The pairs after an edit, made to a graph that takes the paths or does not. -/
def pairsAfter (g : Graph) (S : Finset (Path × ActionId)) : Edit → Finset (Path × ActionId)
  | .add paths a => if (g.insert paths a).isOk then S ∪ paths.toFinset ×ˢ {a} else S
  | .remove a => S.filter (·.2 ≠ a)

/-- The graph after some edits, and the pairs that went in and were not removed. -/
def edited (edits : List Edit) : Graph × Finset (Path × ActionId) :=
  edits.foldl (fun s e => (s.1.after e, s.1.pairsAfter s.2 e)) (.empty, ∅)

/-- The graph was built, and what it has at a path are the ids paired with it. -/
structure Reads (g : Graph) (S : Finset (Path × ActionId)) : Prop where
  built : g.Built
  actions : ∀ p a, a ∈ g.actionsAt p ↔ (p, a) ∈ S

variable {g g' : Graph} {S : Finset (Path × ActionId)}

theorem mem_actionsAt_insert {paths : List Path} {a : ActionId} (h : g.insert paths a = .ok g') (p : Path)
    (b : ActionId) : b ∈ g'.actionsAt p ↔ b ∈ g.actionsAt p ∨ p ∈ paths ∧ b = a := by
  induction paths generalizing g with
  | nil =>
    cases h
    simp
  | cons q ps ih =>
    unfold Graph.insert at h
    rw [List.foldlM_cons] at h
    cases hq : insertWord a g q.word with
    | error e => simp [hq, bind, Except.bind] at h
    | ok f =>
      simp only [hq, bind, Except.bind] at h
      rw [ih h, actionsAt_insertWord hq, List.mem_cons]
      by_cases hpq : p = q
      · simp only [hpq, if_true, mem_insertId]
        tauto
      · simp only [hpq, if_false]
        tauto

/-- **Every edit** keeps the graph and the pairs in step. -/
theorem Reads.after (h : Reads g S) (e : Edit) : Reads (g.after e) (g.pairsAfter S e) := by
  cases e with
  | add paths a =>
    simp only [Graph.after, pairsAfter]
    cases hi : g.insert paths a with
    | error e => exact h
    | ok g' =>
      refine ⟨.insert h.built hi, fun p b => ?_⟩
      rw [mem_actionsAt_insert hi, h.actions]
      simp [Except.isOk, Except.toBool, eq_comm]
  | remove a =>
    refine ⟨.erase a h.built, fun p b => ?_⟩
    simp only [Graph.after, pairsAfter]
    rw [actionsAt_erase h.built.sound, List.mem_filter, h.actions, Finset.mem_filter]
    simp

theorem edited_reads (edits : List Edit) : Reads (edited edits).1 (edited edits).2 := by
  suffices key : ∀ s : Graph × Finset (Path × ActionId), Reads s.1 s.2 →
      Reads (edits.foldl (fun s e => (s.1.after e, s.1.pairsAfter s.2 e)) s).1
        (edits.foldl (fun s e => (s.1.after e, s.1.pairsAfter s.2 e)) s).2 from
    key _ ⟨.empty, fun p a => by simp [actionsAt_empty]⟩
  induction edits with
  | nil => exact fun s h => h
  | cons e edits ih => exact fun s h => ih _ (h.after e)

/-! ### What can be asked of the graph -/

section

variable (h : Reads g S)

include h

theorem Reads.uses_iff {v : List Label} : g.Uses v ↔ ∃ e ∈ S, v <+: e.1.word := by
  constructor
  · rintro ⟨q, hq, hpre⟩
    obtain ⟨a, ha⟩ := List.exists_mem_of_ne_nil _ hq
    exact ⟨(q, a), (h.actions q a).mp ha, hpre⟩
  · rintro ⟨⟨q, a⟩, he, hpre⟩
    exact ⟨q, List.ne_nil_of_mem ((h.actions q a).mpr he), hpre⟩

theorem Reads.ascending (p : Path) : (g.actionsAt p).Pairwise (· < ·) := by
  obtain ⟨n, w, hp⟩ := p.word_eq_cons
  simp only [actionsAt, hp]
  exact Forest.actionsAt_ascending h.built.sound.1 _ _

/-- **The nodes** of the graph are the words with which its paths begin. -/
theorem Reads.words_eq : g.top.words.toFinset = wordsOf S := by
  have htidy := h.built.sound.1
  ext w
  rw [List.mem_toFinset, mem_wordsOf]
  rcases w.eq_nil_or_concat with rfl | ⟨w, k, rfl⟩
  · simp [Forest.nil_not_mem_words]
  · rw [List.concat_eq_append, Forest.mem_words htidy, h.built.mem_labels, h.uses_iff]
    simp

theorem Reads.size_eq : g.size = 1 + (wordsOf S).card := by
  rw [← h.words_eq, List.toFinset_card_of_nodup (Forest.words_nodup h.built.sound.1), Forest.length_words]
  rfl

theorem Reads.contains_iff (a : ActionId) : g.contains a = true ↔ ∃ e ∈ S, e.2 = a := by
  have hgather : g.contains a = true ↔ ∃ k v, a ∈ g.top.actionsAt k v :=
    Forest.contains_eq_true.trans (Forest.mem_gather h.built.sound.1)
  rw [hgather]
  constructor
  · rintro ⟨k, v, ha⟩
    obtain ⟨p, hp⟩ := h.built.literate k v (List.ne_nil_of_mem ha)
    exact ⟨(p, a), (h.actions p a).mp (by simpa [actionsAt, hp] using ha), rfl⟩
  · rintro ⟨⟨p, _⟩, he, rfl⟩
    obtain ⟨n, w, hp⟩ := p.word_eq_cons
    have ha := (h.actions p _).mpr he
    simp only [actionsAt, hp] at ha
    exact ⟨_, _, ha⟩

theorem Reads.hasActions_iff : g.hasActions = true ↔ 1 < g.size := by
  have hnil : g.top ≠ .nil ↔ 0 < g.top.size := by
    cases g.top with
    | nil => simp [Forest.size]
    | node l as below next =>
      simp only [Forest.size, ne_eq, reduceCtorEq, not_false_eq_true, true_iff]
      omega
  rw [Graph.hasActions, Forest.hasActions_iff h.built.sound.1, hnil, Graph.size]
  omega

theorem Reads.one_lt_size_iff : 1 < g.size ↔ S.Nonempty := by
  rw [h.size_eq, Nat.lt_add_right_iff_pos, Finset.card_pos]
  constructor
  · rintro ⟨w, hw⟩
    obtain ⟨-, e, he, -⟩ := mem_wordsOf.mp hw
    exact ⟨e, he⟩
  · rintro ⟨e, he⟩
    obtain ⟨n, w, hp⟩ := e.1.word_eq_cons
    exact ⟨e.1.word, mem_wordsOf.mpr ⟨hp ▸ List.cons_ne_nil _ _, e, he, List.prefix_rfl⟩⟩

end

/-- What two graphs for the same pairs answer is the same. -/
theorem Reads.answers_eq (h : Reads g S) (h' : Reads g' S) :
    (∀ p, g'.actionsAt p = g.actionsAt p) ∧ (∀ a, g'.contains a = g.contains a) ∧
      g'.hasActions = g.hasActions ∧ g'.size = g.size := by
  have hsize : g'.size = g.size := h'.size_eq.trans h.size_eq.symm
  refine ⟨fun p => (h'.ascending p).eq_of_mem_iff (h.ascending p) fun {a} => ?_, fun a => ?_, ?_, hsize⟩
  · rw [h'.actions, h.actions]
  · rw [Bool.eq_iff_iff, h'.contains_iff, h.contains_iff]
  · rw [Bool.eq_iff_iff, h'.hasActions_iff, h.hasActions_iff, hsize]

end Graph

/-- **A graph is a set of pairs.** Paths are recorded for actions, in any order and any
number of times, some calls are refused, and actions are removed. Then what the graph
has at a path are the ids paired with it, in ascending order; it knows the ids that are
paired with anything; it has actions exactly if there are pairs, and exactly if it has
a node besides the root; and its nodes are the root and one for each non-empty word
with which a path of a pair begins. So edits that come to the same pairs come to graphs
that answer the same. -/
theorem graph_reads_pairs (edits : List Graph.Edit) :
    let g := (Graph.edited edits).1
    let S := (Graph.edited edits).2
    (∀ p, (g.actionsAt p).Pairwise (· < ·) ∧ ∀ a, a ∈ g.actionsAt p ↔ (p, a) ∈ S) ∧
    (∀ a, g.contains a = true ↔ ∃ e ∈ S, e.2 = a) ∧
    (g.hasActions = true ↔ S.Nonempty) ∧ (g.hasActions = true ↔ 1 < g.size) ∧
    g.size = 1 + (wordsOf S).card ∧
    ∀ edits', (Graph.edited edits').2 = S →
      let g' := (Graph.edited edits').1
      (∀ p, g'.actionsAt p = g.actionsAt p) ∧ (∀ a, g'.contains a = g.contains a) ∧
        g'.hasActions = g.hasActions ∧ g'.size = g.size := by
  intro g S
  have h : g.Reads S := Graph.edited_reads edits
  refine ⟨fun p => ⟨h.ascending p, h.actions p⟩, h.contains_iff, h.hasActions_iff.trans h.one_lt_size_iff,
    h.hasActions_iff, h.size_eq, fun edits' hS => ?_⟩
  exact h.answers_eq (hS ▸ Graph.edited_reads edits')

end LiveRules
