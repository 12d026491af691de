/-
# The triggers of a batch

A watcher's place in its tree can be told by a word: the properties that lead
from the context to what it is bound to, with a `member` for each collection on
the way. What its plan looks into is what the graph has below that word, so the
batch of one of its properties is everything that is recorded along the word and
the property: the actions with a trigger path that begins so, each once, in
ascending order.

Key definitions: `Forest.descend`, `World.At`, `World.batchAt`.
Key theorems: `Forest.mem_gather`, `World.Grown.exists_at`, `World.Shaped.batch_triggers`.
-/
import LiveRules.Proofs.Watching.Release
import LiveRules.Proofs.Mirror.Expected

namespace LiveRules

/-! ### Below a word -/

namespace Forest

/-- What is below a word. -/
def descend : Forest → List Label → Forest
  | f, [] => f
  | .nil, _ :: _ => .nil
  | .node l _ below next, k :: w => if l = k then below.descend w else next.descend (k :: w)

theorem descend_nil (f : Forest) : f.descend [] = f := by
  cases f <;> rfl

/-- The words below a word are those that begin with it. -/
theorem actionsAt_descend (f : Forest) (k : Label) (u : List Label) (j : Label) (v : List Label) :
    (f.descend (k :: u)).actionsAt j v = f.actionsAt k (u ++ j :: v) := by
  induction f generalizing k u with
  | nil => rfl
  | node l as below next ihb ihn =>
    rw [descend]
    by_cases hlk : l = k
    · rw [if_pos hlk]
      cases u with
      | nil =>
        rw [descend_nil]
        simp [actionsAt, hlk]
      | cons i u =>
        rw [ihb]
        simp [actionsAt, hlk]
    · rw [if_neg hlk, ihn]
      simp [actionsAt, hlk]

theorem descend_descend (f : Forest) (u v : List Label) : (f.descend u).descend v = f.descend (u ++ v) := by
  induction f generalizing u with
  | nil => cases u <;> cases v <;> rfl
  | node l as below next ihb ihn =>
    cases u with
    | nil => rfl
    | cons k u =>
      rw [List.cons_append, descend, descend]
      by_cases hlk : l = k
      · rw [if_pos hlk, if_pos hlk, ihb]
      · rw [if_neg hlk, if_neg hlk, ihn, List.cons_append]

/-! ### What is recorded in a forest -/

/-- **What is gathered** is what is recorded somewhere. -/
theorem mem_gather {f : Forest} (hf : f.Tidy) {a : ActionId} : a ∈ f.gather ↔ ∃ k v, a ∈ f.actionsAt k v := by
  induction f with
  | nil => simp [gather, actionsAt]
  | node l as below next ihb ihn =>
    obtain ⟨⟨hl, -⟩, -, -, -, hb, hn⟩ := hf
    rw [gather, mem_unionIds, mem_unionIds, ihb hb, ihn hn]
    constructor
    · rintro (ha | ⟨k, v, ha⟩ | ⟨k, v, ha⟩)
      · exact ⟨l, [], by simpa [actionsAt] using ha⟩
      · exact ⟨l, k :: v, by simpa [actionsAt] using ha⟩
      · have hne : l ≠ k := by
          rintro rfl
          rw [actionsAt_of_not_mem hl] at ha
          cases ha
        exact ⟨k, v, by simpa [actionsAt, hne] using ha⟩
    · rintro ⟨k, v, ha⟩
      by_cases hlk : l = k
      · cases v with
        | nil => exact Or.inl (by simpa [actionsAt, hlk] using ha)
        | cons j v => exact Or.inr (Or.inl ⟨j, v, by simpa [actionsAt, hlk] using ha⟩)
      · exact Or.inr (Or.inr ⟨k, v, by simpa [actionsAt, hlk] using ha⟩)

theorem gather_ascending : ∀ f : Forest, f.gather.Pairwise (· < ·)
  | .nil => .nil
  | .node _ _ _ next => unionIds_ascending (unionIds_ascending (gather_ascending next))

/-! ### What a plan is compiled from -/

variable {α : Type} {resolve : ActionId → Option α}

/-- The trees of an object: all of them fields. -/
def Open (f : Forest) : Prop :=
  f.Tidy ∧ .member ∉ f.labels

theorem Open.next {l : Label} {as : List ActionId} {below next : Forest} (h : (node l as below next).Open) :
    next.Open :=
  ⟨h.1.2.2.2.2.2, fun hm => h.2 (List.mem_cons_of_mem _ hm)⟩

section

variable (m : String) (as : List ActionId) (below next : Forest) (i : Nat)

theorem place?_compile_zero :
    ((node (.field m) as below next).compile resolve).place? 0 = some (m, fireList resolve as below) := by
  cases below with
  | nil => rfl
  | node l bs inside nx => cases l <;> rfl

theorem place?_compile_succ :
    ((node (.field m) as below next).compile resolve).place? (i + 1) = (next.compile resolve).place? i := by
  cases below with
  | nil => rfl
  | node l bs inside nx => cases l <;> rfl

theorem post?_compile_succ {κ : Type} (resolve : ActionId → Option (ActionId × Action κ)) (site : Attachment) :
    ((node (.field m) as below next).compile resolve).post? site (i + 1) = (next.compile resolve).post? site i := by
  cases below with
  | nil => rfl
  | node l bs inside nx => cases l <;> rfl

end

/-- A property of a plan is one of the forest's labels. -/
theorem mem_labels_of_place {f : Forest} {i : Nat} {n : String} {batch : List α} (hf : f.Open)
    (h : (f.compile resolve).place? i = some (n, batch)) : .field n ∈ f.labels := by
  induction f generalizing i with
  | nil => cases h
  | node l as below next ihb ihn =>
    cases l with
    | member => exact absurd List.mem_cons_self hf.2
    | field m =>
      cases i with
      | zero =>
        rw [place?_compile_zero] at h
        cases h
        exact List.mem_cons_self
      | succ i =>
        rw [place?_compile_succ] at h
        exact List.mem_cons_of_mem _ (ihn hf.next h)

/-- The properties of an object have different names. -/
theorem Open.ne_of_place {m n : String} {as : List ActionId} {below next : Forest} {i : Nat} {batch : List α}
    (hf : (node (.field m) as below next).Open) (h : (next.compile resolve).place? i = some (n, batch)) :
    Label.field m ≠ .field n := by
  intro heq
  exact hf.1.1.1 (heq ▸ mem_labels_of_place hf.next h)

/-- **The batch of a property** is what is recorded there or below, as far as it is
known. -/
theorem batch_of_place {f : Forest} {i : Nat} {n : String} {batch : List α} (hf : f.Open)
    (h : (f.compile resolve).place? i = some (n, batch)) :
    ∃ ids : List ActionId, ids.Pairwise (· < ·) ∧ (∀ a, a ∈ ids ↔ ∃ v, a ∈ f.actionsAt (.field n) v) ∧
      batch = ids.filterMap resolve := by
  induction f generalizing i with
  | nil => cases h
  | node l as below next ihb ihn =>
    cases l with
    | member => exact absurd List.mem_cons_self hf.2
    | field m =>
      cases i with
      | zero =>
        rw [place?_compile_zero] at h
        cases h
        refine ⟨unionIds as below.gather, unionIds_ascending (gather_ascending below), fun a => ?_, rfl⟩
        rw [mem_unionIds, mem_gather hf.1.2.2.2.2.1]
        constructor
        · rintro (ha | ⟨k, v, ha⟩)
          · exact ⟨[], by simpa [actionsAt] using ha⟩
          · exact ⟨k :: v, by simpa [actionsAt] using ha⟩
        · rintro ⟨v, ha⟩
          cases v with
          | nil => exact Or.inl (by simpa [actionsAt] using ha)
          | cons k v => exact Or.inr ⟨k, v, by simpa [actionsAt] using ha⟩
      | succ i =>
        rw [place?_compile_succ] at h
        obtain ⟨ids, hascending, hids, hbatch⟩ := ihn hf.next h
        refine ⟨ids, hascending, fun a => ?_, hbatch⟩
        simp only [hids, actionsAt, if_neg (hf.ne_of_place h)]

/-- **What is posted** at a property is compiled from what is below it. -/
theorem post_of_place {κ : Type} {resolve : ActionId → Option (ActionId × Action κ)} {site : Attachment} {f : Forest}
    {i : Nat} {n : String} {batch : Batch κ} {x : Watcher κ} (hf : f.Open)
    (h : (f.compile resolve).place? i = some (n, batch)) (hx : (f.compile resolve).post? site i = some x) :
    (x = .object ((f.descend [.field n]).compile resolve) site none ∧ (f.descend [.field n]).Open) ∨
      ∃ membership, x = .collection ((f.descend [.field n, .member]).compile resolve) membership site none ∧
        (f.descend [.field n, .member]).Open := by
  induction f generalizing i with
  | nil => cases h
  | node l as below next ihb ihn =>
    cases l with
    | member => exact absurd List.mem_cons_self hf.2
    | field m =>
      cases i with
      | zero =>
        rw [place?_compile_zero] at h
        cases h
        have hb : below.Tidy := hf.1.2.2.2.2.1
        cases below with
        | nil => cases hx
        | node k bs inside nx =>
          cases k with
          | field q =>
            cases hx
            refine Or.inl ?_
            rw [descend, if_pos rfl, descend_nil]
            refine ⟨rfl, hb, fun hm => ?_⟩
            have := sameKind_labels hb _ List.mem_cons_self _ hm
            cases this
          | member =>
            cases hx
            refine Or.inr ⟨fireList resolve bs inside, ?_⟩
            rw [descend, if_pos rfl, descend, if_pos rfl, descend_nil]
            exact ⟨rfl, hb.2.2.2.2.1, hb.2.2.2.1 rfl⟩
      | succ i =>
        rw [place?_compile_succ] at h
        rw [post?_compile_succ] at hx
        rw [descend, if_neg (hf.ne_of_place h), descend, if_neg (hf.ne_of_place h)]
        exact ihn hf.next h hx

end Forest

/-! ### Where a watcher is -/

namespace World

variable {κ : Type}

/-- The word that leads from what `r` is bound to to what `w` is bound to. -/
inductive At (g : World κ) (r : WatcherId) : WatcherId → List Label → Prop
  | top : At g r r []
  | property {w : Nat} {word : List Label} {plan site b} {i c : Nat} {n : String} {batch : Batch κ} (h : At g r w word)
      (hw : g.watchers[w]? = some (.object plan site (some b))) (hc : b.children[i]? = some (some c))
      (hn : plan.place? i = some (n, batch)) : At g r c (word ++ [.field n])
  | member {w : Nat} {word : List Label} {item batch site b} {e : ObjectId × WatcherId} (h : At g r w word)
      (hw : g.watchers[w]? = some (.collection item batch site (some b))) (he : e ∈ b.items) :
      At g r e.2 (word ++ [.member])

/-- What `w` fires when its `i`th property changes. -/
def batchAt (g : World κ) (w i : Nat) : Batch κ :=
  match g.watchers[w]? with
  | some (.object plan _ _) => (plan.place? i).elim [] (·.2)
  | _ => []

variable {g : World κ}

/-- A watcher keeps something for the properties of its plan only. -/
theorem Grown.place_of_child {tops : List WatcherId} (hg : g.Grown tops) {w : Nat} {plan site b}
    (hw : g.watchers[w]? = some (.object plan site (some b))) {i : Nat} {c} (hc : b.children[i]? = some c) :
    ∃ n batch, plan.place? i = some (n, batch) := by
  have hlt : i < plan.length := by
    have hchild := (List.getElem?_eq_some_iff.mp hc).1
    have hpaired := hg.paired hw
    have hfits := hg.fits hw
    omega
  obtain ⟨⟨n, batch⟩, hn⟩ := Option.isSome_iff_exists.mp ((plan.place?_isSome i).mpr hlt)
  exact ⟨n, batch, hn⟩

/-- Each watcher of a tree is at some word. -/
theorem Grown.exists_at {tops : List WatcherId} (hg : g.Grown tops) {r w : WatcherId} (h : g.Under r w) :
    ∃ word, g.At r w word := by
  induction h with
  | refl => exact ⟨[], .top⟩
  | @tail v w _ hw ih =>
    obtain ⟨word, hv⟩ := ih
    obtain ⟨x, hx, hmem⟩ := exists_of_mem_listed hw
    cases x with
    | object plan site bound =>
      cases bound with
      | none => cases hmem
      | some b =>
        obtain ⟨i, hi⟩ := List.getElem?_of_mem (List.reduceOption_mem_iff.mp hmem)
        obtain ⟨n, batch, hn⟩ := hg.place_of_child hx hi
        exact ⟨_, hv.property hx hi hn⟩
    | collection item batch site bound =>
      cases bound with
      | none => cases hmem
      | some b =>
        obtain ⟨e, he, rfl⟩ := List.mem_map.mp hmem
        exact ⟨_, hv.member hx he⟩

section

variable (hg : g.Shaped)

include hg

/-- **A watcher's plan** is compiled from what is below its word. -/
theorem Shaped.plan_at {resolve : ActionId → Option (ActionId × Action κ)} {f : Forest} (hf : f.Open) {r w : Nat}
    {site : Attachment} {bound} (hr : g.watchers[r]? = some (.object (f.compile resolve) site bound))
    {word : List Label} (h : g.At r w word) :
    (∃ bound, g.watchers[w]? = some (.object ((f.descend word).compile resolve) site bound) ∧ (f.descend word).Open) ∨
      ∃ membership bound, g.watchers[w]? =
          some (.collection ((f.descend (word ++ [.member])).compile resolve) membership site bound) ∧
        (f.descend (word ++ [.member])).Open := by
  induction h with
  | top => exact Or.inl ⟨bound, by rwa [f.descend_nil], by rwa [f.descend_nil]⟩
  | @property w word plan site' b i c n batch _ hw hc hn ih =>
    rcases ih with ⟨bound', hw', hopen⟩ | ⟨membership, bound', hw', -⟩
    · rw [hw] at hw'
      cases hw'
      obtain ⟨x, hx, hpost⟩ := hg.posts hw i _ hc
      have hpost' : ((f.descend word).compile resolve).post? site i = some x.dormant := hpost
      rcases Forest.post_of_place hopen hn hpost' with ⟨heq, hbelow⟩ | ⟨membership, heq, hbelow⟩
      · rw [Forest.descend_descend] at heq hbelow
        cases x with
        | collection => cases heq
        | object =>
          cases heq
          exact Or.inl ⟨_, hx, hbelow⟩
      · rw [Forest.descend_descend] at heq hbelow
        cases x with
        | object => cases heq
        | collection _ _ _ found =>
          cases heq
          refine Or.inr ⟨membership, found, ?_⟩
          rw [List.append_assoc]
          exact ⟨hx, hbelow⟩
    · rw [hw] at hw'
      cases hw'
  | @member w word item batch site' b e _ hw he ih =>
    rcases ih with ⟨bound', hw', -⟩ | ⟨membership, bound', hw', hopen⟩
    · rw [hw] at hw'
      cases hw'
    · rw [hw] at hw'
      cases hw'
      obtain ⟨bound, hx⟩ := hg.member hw he
      exact Or.inl ⟨bound, hx, hopen⟩

/-- **The batch of a property** holds the actions with a trigger path through it, as
far as they are known, each once and in ascending order. -/
theorem Shaped.batch_triggers {resolve : ActionId → Option (ActionId × Action κ)} {graph : Graph}
    (hgraph : graph.Built) {r w i : Nat} {site : Attachment} {bound}
    (hr : g.watchers[r]? = some (.object (graph.compile resolve) site bound)) {word : List Label}
    (h : g.At r w word) {plan site' bound'} (hw : g.watchers[w]? = some (.object plan site' bound')) {p : String}
    {batch : Batch κ} (hp : plan.place? i = some (p, batch)) :
    ∃ ids : List ActionId, ids.Pairwise (· < ·) ∧
      (∀ a, a ∈ ids ↔ ∃ path : Path, a ∈ graph.actionsAt path ∧ word ++ [.field p] <+: path.word) ∧
      batch = ids.filterMap resolve := by
  rcases hg.plan_at hgraph.sound hr h with ⟨bound'', hw', hopen⟩ | ⟨membership, bound'', hw', -⟩
  · rw [hw] at hw'
    cases hw'
    obtain ⟨ids, hascending, hids, hbatch⟩ := Forest.batch_of_place hopen hp
    refine ⟨ids, hascending, fun a => (hids a).trans ?_, hbatch⟩
    constructor
    · rintro ⟨v, ha⟩
      have hrecorded : ∃ k u, word ++ .field p :: v = k :: u ∧ a ∈ graph.top.actionsAt k u := by
        cases word with
        | nil => exact ⟨.field p, v, rfl, by rwa [Forest.descend_nil] at ha⟩
        | cons k u => exact ⟨k, u ++ .field p :: v, rfl, by rwa [Forest.actionsAt_descend] at ha⟩
      obtain ⟨k, u, hword, ha⟩ := hrecorded
      obtain ⟨path, hpath⟩ := hgraph.literate k u (List.ne_nil_of_mem ha)
      refine ⟨path, ?_, v, ?_⟩
      · simpa [Graph.actionsAt, hpath] using ha
      · rw [hpath, ← hword, List.append_assoc]
        rfl
    · rintro ⟨path, ha, v, hpath⟩
      rw [List.append_assoc] at hpath
      refine ⟨v, ?_⟩
      cases word with
      | nil =>
        rw [Forest.descend_nil]
        simpa [Graph.actionsAt, ← hpath] using ha
      | cons k u =>
        rw [Forest.actionsAt_descend]
        simpa [Graph.actionsAt, ← hpath] using ha
  · rw [hw] at hw'
    cases hw'

end

end World
end LiveRules
