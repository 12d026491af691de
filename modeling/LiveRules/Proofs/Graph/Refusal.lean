/-
# Which paths a graph refuses

Some words are *torn*: one goes on to a member where another, the same so far, goes
on to a property. The words with which the paths of a graph begin are never torn, and
paths are refused exactly if taking them would tear them; it does not matter how the
graph was made or in what order the paths are listed. What is reported is the first
property at which they tear, following one path after the other from the root.

Paths are recorded one after the other, and those before the one that does not fit
are in by then. So they are tried out on a copy, which is only kept if all fit.

Key definitions: `Graph.record`, `Torn`, `Begins`, `Path.ClashesAfter`.
Key theorems: `Graph.record_eq`, `torn_joined`, `exists_firstClash`, `paths_refused`.
-/
import LiveRules.Proofs.Graph.Pairs

namespace LiveRules

/-! ### All paths or none -/

namespace Graph

variable {β γ : Type}

/-- Changes to a graph that stay when an error ends them. -/
abbrev InPlace := ExceptT Error (StateM Graph)

/-- The outcome, and the graph as it is left. -/
def InPlace.outcome (x : InPlace β) (g : Graph) : Except Error β × Graph :=
  x.run.run g

/-- Records `a` at the end of every path, in order. -/
def recordEach (a : ActionId) : List Path → InPlace Unit
  | [] => pure ()
  | p :: ps => do
    set (← insertWord a (← get) p.word)
    recordEach a ps

/-- Records `a` at the end of every path, or of none. -/
def record (paths : List Path) (a : ActionId) : InPlace Unit := do
  let (tried, staged) := (recordEach a paths).outcome (← get)
  tried
  set staged

namespace InPlace

variable (g : Graph)

theorem outcome_bind (x : InPlace β) (f : β → InPlace γ) :
    (x >>= f).outcome g =
      match x.outcome g with
      | (.ok b, g') => (f b).outcome g'
      | (.error e, g') => (.error e, g') := by
  unfold outcome
  rw [ExceptT.run_bind, StateT.run_bind]
  rcases h : x.run.run g with ⟨_ | b, g'⟩ <;> rfl

theorem outcome_get : (get : InPlace Graph).outcome g = (.ok g, g) := rfl

theorem outcome_set (g' : Graph) : (set g' : InPlace PUnit).outcome g = (.ok PUnit.unit, g') := rfl

theorem outcome_lift (x : Except Error β) : (liftM x : InPlace β).outcome g = (x, g) := rfl

end InPlace

/-- Paths that fit are recorded, and if they do not, that is found out. -/
theorem recordEach_eq (a : ActionId) (paths : List Path) (g : Graph) :
    match g.insert paths a with
    | .ok g' => (recordEach a paths).outcome g = (.ok (), g')
    | .error e => ((recordEach a paths).outcome g).1 = .error e := by
  induction paths generalizing g with
  | nil => rfl
  | cons p ps ih =>
    unfold Graph.insert
    rw [List.foldlM_cons]
    simp only [recordEach, InPlace.outcome_bind, InPlace.outcome_get, InPlace.outcome_lift, InPlace.outcome_set]
    cases hp : insertWord a g p.word with
    | error e => simp only [bind, Except.bind]
    | ok f => exact ih f

/-- **Recording** paths does what inserting them does, and nothing if that fails. -/
theorem record_eq (paths : List Path) (a : ActionId) (g : Graph) :
    (record paths a).outcome g =
      match g.insert paths a with
      | .ok g' => (.ok (), g')
      | .error e => (.error e, g) := by
  have hcopy := recordEach_eq a paths g
  simp only [record, InPlace.outcome_bind, InPlace.outcome_get, InPlace.outcome_lift]
  cases hi : g.insert paths a with
  | error e =>
    rw [hi] at hcopy
    simp only [hcopy]
  | ok g' =>
    rw [hi] at hcopy
    simp only at hcopy
    rw [hcopy]
    rfl

end Graph

/-! ### Torn words -/

/-- A word in use goes on to a member, and to a property as well. -/
def Torn (used : List Label → Prop) : Prop :=
  ∃ w n, used (w ++ [.member]) ∧ used (w ++ [.field n])

/-- The words in use, and those with which these paths begin. -/
def Joined (used : List Label → Prop) (paths : List Path) (v : List Label) : Prop :=
  used v ∨ ∃ p ∈ paths, v <+: p.word

/-- The path leaves the property `n` at the end of `u` by a label of another kind than a
word in use does. -/
def Path.ClashesAfter (used : List Label → Prop) (p : Path) (u : List Label) (n : String) : Prop :=
  ∃ k j, u ++ [.field n, k] <+: p.word ∧ used (u ++ [.field n, j]) ∧ j.sameKind k = false

/-- Words with which paths begin: with each of them also what it begins with. -/
structure Initial (used : List Label → Prop) : Prop where
  closed : ∀ u v, u <+: v → used v → used u
  path : ∀ v, used v → ∃ p : Path, v <+: p.word

section

variable {used : List Label → Prop} {p : Path} {ps : List Path} {n : String}

theorem Initial.joined (h : Initial used) (ps : List Path) : Initial (Joined used ps) where
  closed u v hpre := by
    rintro (hv | ⟨p, hp, hv⟩)
    · exact Or.inl (h.closed u v hpre hv)
    · exact Or.inr ⟨p, hp, hpre.trans hv⟩
  path v := by
    rintro (hv | ⟨p, -, hv⟩)
    · exact h.path v hv
    · exact ⟨p, hv⟩

theorem joined_nil : Joined used [] = used := by
  funext v
  simp [Joined]

theorem joined_joined (done ps : List Path) : Joined (Joined used done) ps = Joined used (done ++ ps) := by
  funext v
  simp only [Joined, List.mem_append, eq_iff_iff]
  constructor
  · rintro ((h | ⟨p, hp, h⟩) | ⟨p, hp, h⟩)
    · exact Or.inl h
    · exact Or.inr ⟨p, Or.inl hp, h⟩
    · exact Or.inr ⟨p, Or.inr hp, h⟩
  · rintro (h | ⟨p, hp | hp, h⟩)
    · exact Or.inl (Or.inl h)
    · exact Or.inl (Or.inr ⟨p, hp, h⟩)
    · exact Or.inr ⟨p, hp, h⟩

theorem joined_singleton (p : Path) : Joined used [p] = fun v => used v ∨ v <+: p.word := by
  funext v
  simp [Joined]

/-- One path is not torn. -/
theorem prefix_right_unique {w : List Label} {j k : Label} {v : List Label} (hj : w ++ [j] <+: v)
    (hk : w ++ [k] <+: v) : j = k := by
  have := List.prefix_of_prefix_length_le hj hk (by simp)
  simpa using this

/-- What goes on to a member ends with a property. -/
theorem exists_field_of_member {w : List Label} (h : w ++ [.member] <+: p.word) : ∃ u n, w = u ++ [.field n] := by
  rcases w.eq_nil_or_concat with rfl | ⟨u, l, rfl⟩
  · obtain ⟨n, v, hp⟩ := p.word_eq_cons
    rw [hp] at h
    cases (List.cons_prefix_cons.mp h).1
  · cases l with
    | field n => exact ⟨u, n, List.concat_eq_append⟩
    | member =>
      have hchain := List.IsChain.prefix p.word_proper h
      rw [List.concat_eq_append, List.append_assoc] at hchain
      exact absurd ⟨rfl, rfl⟩ (List.isChain_cons_cons.mp hchain.right_of_append).1

/-- **A path tears** the words in use exactly if it clashes with them. -/
theorem torn_joined (h : Initial used) (hwhole : ¬ Torn used) :
    Torn (Joined used [p]) ↔ ∃ u n, p.ClashesAfter used u n := by
  rw [joined_singleton]
  constructor
  · rintro ⟨w, n, hmember, hfield⟩
    have hmine : ∃ q : Path, w ++ [.member] <+: q.word := by
      rcases hmember with hm | hm
      · exact h.path _ hm
      · exact ⟨p, hm⟩
    obtain ⟨q, hq⟩ := hmine
    obtain ⟨u, m, rfl⟩ := exists_field_of_member hq
    rw [List.append_assoc] at hmember hfield
    rcases hmember with hm | hm <;> rcases hfield with hf | hf
    · exact absurd ⟨u ++ [.field m], n, by simpa using hm, by simpa using hf⟩ hwhole
    · exact ⟨u, m, .field n, .member, hf, hm, rfl⟩
    · exact ⟨u, m, .member, .field n, hm, hf, rfl⟩
    · have := prefix_right_unique (w := u ++ [.field m]) (j := .member) (k := .field n) (by simpa using hm)
        (by simpa using hf)
      cases this
  · rintro ⟨u, n, k, j, hpre, hused, hkind⟩
    have hpre' : u ++ [.field n] ++ [k] <+: p.word := by simpa using hpre
    have hused' : used (u ++ [.field n] ++ [j]) := by simpa using hused
    cases k <;> cases j
    · cases hkind
    · exact ⟨_, _, Or.inl hused', Or.inr hpre'⟩
    · exact ⟨_, _, Or.inr hpre', Or.inl hused'⟩
    · cases hkind

/-- **Paths tear** the words in use exactly if there is a first clash. -/
theorem exists_firstClash (h : Initial used) (hwhole : ¬ Torn used) (paths : List Path) :
    (∃ n, FirstClash n used paths) ↔ Torn (Joined used paths) := by
  induction paths generalizing used with
  | nil => simp [FirstClash, joined_nil, hwhole]
  | cons p ps ih =>
    have hone := torn_joined (p := p) h hwhole
    have hrest : Joined (Joined used [p]) ps = Joined used (p :: ps) := joined_joined [p] ps
    by_cases htorn : Torn (Joined used [p])
    · obtain ⟨u, n, hclash⟩ := hone.mp htorn
      obtain ⟨w, m, hmember, hfield⟩ := htorn
      refine iff_of_true ⟨n, Or.inl ⟨u, hclash⟩⟩ ?_
      rw [← hrest]
      exact ⟨w, m, Or.inl hmember, Or.inl hfield⟩
    · have hnone : ∀ n, ¬ p.ClashesAt used n := by
        rintro n ⟨u, hclash⟩
        exact htorn (hone.mpr ⟨u, n, hclash⟩)
      have := ih (h.joined [p]) htorn
      rw [hrest, joined_singleton] at this
      simpa [FirstClash, hnone] using this

/-- The first clash is that of the first path that tears what is in use with the paths
before it, and the only one on its way. -/
theorem firstClash_iff (h : Initial used) (hwhole : ¬ Torn used) (paths : List Path) :
    FirstClash n used paths ↔ ∃ done p rest u, paths = done ++ p :: rest ∧ ¬ Torn (Joined used done) ∧
      p.ClashesAfter (Joined used done) u n := by
  induction paths generalizing used with
  | nil => simp [FirstClash]
  | cons p ps ih =>
    have hone := torn_joined (p := p) h hwhole
    rw [FirstClash, ← joined_singleton]
    constructor
    · rintro (⟨u, hclash⟩ | ⟨hnone, hlater⟩)
      · exact ⟨[], p, ps, u, rfl, joined_nil ▸ hwhole, joined_nil.symm ▸ hclash⟩
      · have htorn : ¬ Torn (Joined used [p]) := fun ht => by
          obtain ⟨u, m, hclash⟩ := hone.mp ht
          exact hnone m ⟨u, hclash⟩
        obtain ⟨done, q, rest, u, rfl, hwhole', hclash⟩ := (ih (h.joined [p]) htorn).mp hlater
        rw [joined_joined] at hwhole' hclash
        exact ⟨p :: done, q, rest, u, rfl, hwhole', hclash⟩
    · rintro ⟨done, q, rest, u, heq, hwhole', hclash⟩
      cases done with
      | nil =>
        cases heq
        rw [joined_nil] at hclash
        exact Or.inl ⟨u, hclash⟩
      | cons p' done =>
        cases heq
        have hsplit : Joined used (p :: done) = Joined (Joined used [p]) done := (joined_joined [p] done).symm
        rw [hsplit] at hwhole' hclash
        have htorn : ¬ Torn (Joined used [p]) := by
          rintro ⟨w, m, hm, hf⟩
          exact hwhole' ⟨w, m, Or.inl hm, Or.inl hf⟩
        have hnone : ∀ m, ¬ p.ClashesAt used m := by
          rintro m ⟨v, hv⟩
          exact htorn (hone.mpr ⟨v, m, hv⟩)
        exact Or.inr ⟨hnone, (ih (h.joined [p]) htorn).mpr ⟨done, q, rest, u, rfl, hwhole', hclash⟩⟩

/-- A path that clashes somewhere has not clashed before. -/
theorem Path.ClashesAfter.first (h : Initial used) (hwhole : ¬ Torn used) {u v : List Label} {m : String}
    (hclash : p.ClashesAfter used u n) (hshort : v.length < u.length) : ¬ p.ClashesAfter used v m := by
  rintro ⟨k', j', hpre', hused', hkind'⟩
  obtain ⟨k, j, hpre, hused, -⟩ := hclash
  -- what is in use at the later place goes on from the earlier one as the path does
  have hway : v ++ [.field m, k'] <+: u ++ [.field n, j] := by
    have hto : v ++ [.field m, k'] <+: u ++ [.field n] := by
      refine List.prefix_of_prefix_length_le hpre' ?_ (by simp; omega)
      exact (List.prefix_append (u ++ [.field n]) [k]).trans (by simpa using hpre)
    exact hto.trans ⟨[j], by simp⟩
  have hbefore := h.closed _ _ hway hused
  have hbefore' : used (v ++ [.field m] ++ [k']) := by simpa using hbefore
  have hother : used (v ++ [.field m] ++ [j']) := by simpa using hused'
  cases k' <;> cases j'
  · cases hkind'
  · exact hwhole ⟨_, _, hother, hbefore'⟩
  · exact hwhole ⟨_, _, hbefore', hother⟩
  · cases hkind'

end

namespace Graph

/-- The words with which the paths of the pairs begin. -/
theorem Reads.uses_eq {g : Graph} {S : Finset (Path × ActionId)} (h : g.Reads S) :
    g.Uses = fun v => ∃ e ∈ S, v <+: e.1.word := by
  funext v
  exact propext h.uses_iff

theorem initial_uses (g : Graph) : Initial g.Uses where
  closed u v hpre := by
    rintro ⟨q, hq, hv⟩
    exact ⟨q, hq, hpre.trans hv⟩
  path v := by
    rintro ⟨q, -, hv⟩
    exact ⟨q, hv⟩

/-- **A graph** is not torn. -/
theorem Built.not_torn {g : Graph} (h : g.Built) : ¬ Torn g.Uses := by
  rintro ⟨w, n, hmember, hfield⟩
  have hkinds := Forest.sameKind_labels (Forest.descend_tidy w h.sound.1) _ ((h.mem_labels w _).mpr hmember) _
    ((h.mem_labels w _).mpr hfield)
  cases hkinds

end Graph

/-- Some path of the pairs, or of the list, begins with `v`. -/
def Begins (S : Finset (Path × ActionId)) (paths : List Path) (v : List Label) : Prop :=
  (∃ e ∈ S, v <+: e.1.word) ∨ ∃ p ∈ paths, v <+: p.word

namespace Graph

variable {g : Graph} {S : Finset (Path × ActionId)} {paths : List Path} {a : ActionId}

/-- What is refused leaves the graph as it is. -/
theorem record_failed {e : Error} (he : ((Graph.record paths a).outcome g).1 = .error e) :
    ((Graph.record paths a).outcome g).2 = g := by
  rw [Graph.record_eq] at he ⊢
  cases hi : g.insert paths a with
  | error e' => rfl
  | ok g' =>
    rw [hi] at he
    cases he

theorem Built.record_error (h : g.Built) {e : Error} :
    ((Graph.record paths a).outcome g).1 = .error e ↔ ∃ n, e = .shapeConflict n ∧ FirstClash n g.Uses paths := by
  rw [← h.insert_eq_error (a := a), Graph.record_eq]
  cases g.insert paths a <;> simp

theorem Reads.joined (h : g.Reads S) (paths : List Path) : Joined g.Uses paths = Begins S paths := by
  rw [h.uses_eq]
  rfl

/-- **Paths are recorded** exactly if they do not tear. -/
theorem Reads.record_ok (h : g.Reads S) : ((Graph.record paths a).outcome g).1 = .ok () ↔ ¬ Torn (Begins S paths) := by
  rw [← h.joined, ← exists_firstClash g.initial_uses h.built.not_torn]
  cases hr : ((Graph.record paths a).outcome g).1 with
  | ok u =>
    refine iff_of_true rfl ?_
    rintro ⟨n, hn⟩
    have hrefused := (h.built.record_error (a := a)).mpr ⟨n, rfl, hn⟩
    cases hr.symm.trans hrefused
  | error e =>
    obtain ⟨n, -, hn⟩ := h.built.record_error.mp hr
    simpa using ⟨n, hn⟩

end Graph

/-- **Paths are refused** exactly if they tear. Whatever has been done to a graph before,
paths are recorded in it exactly if no word with which a path in the graph or in the list
begins goes on both to a member and to a property. If they are refused, the error names
the property at which the first of the paths that tears leaves the graph and the paths
before it; it is a property the path goes on from, and the first such on its way from the
root. Then the graph is what it was. The order of the paths has no bearing on whether
they are recorded. -/
theorem paths_refused (edits : List Graph.Edit) (paths : List Path) (a : ActionId) :
    let g := (Graph.edited edits).1
    let S := (Graph.edited edits).2
    let out := (Graph.record paths a).outcome g
    (out.1 = .ok () ↔ ¬ ∃ w n, Begins S paths (w ++ [.member]) ∧ Begins S paths (w ++ [.field n])) ∧
    (∀ e, out.1 = .error e ↔ ∃ done p rest u n, paths = done ++ p :: rest ∧ e = .shapeConflict n ∧
      (¬ ∃ w m, Begins S done (w ++ [.member]) ∧ Begins S done (w ++ [.field m])) ∧
      p.ClashesAfter (Begins S done) u n ∧ ∀ v m, v.length < u.length → ¬ p.ClashesAfter (Begins S done) v m) ∧
    (∀ e, out.1 = .error e → out.2 = g) ∧
    ∀ paths', paths'.Perm paths → (((Graph.record paths' a).outcome g).1 = .ok () ↔ out.1 = .ok ()) := by
  intro g S out
  have h : g.Reads S := Graph.edited_reads edits
  have hinitial := g.initial_uses
  have hwhole := h.built.not_torn
  refine ⟨h.record_ok, fun e => ?_, fun e he => Graph.record_failed he, fun paths' hperm => ?_⟩
  · rw [h.built.record_error]
    simp only [firstClash_iff hinitial hwhole, h.joined]
    constructor
    · rintro ⟨n, rfl, done, p, rest, u, rfl, hdone, hclash⟩
      refine ⟨done, p, rest, u, n, rfl, rfl, hdone, hclash, fun v m hshort => ?_⟩
      rw [← h.joined] at hdone hclash ⊢
      exact hclash.first (hinitial.joined done) hdone hshort
    · rintro ⟨done, p, rest, u, n, rfl, rfl, hdone, hclash, -⟩
      exact ⟨n, rfl, done, p, rest, u, rfl, hdone, hclash⟩
  · have hsame : Begins S paths' = Begins S paths := by
      funext v
      simp only [Begins, hperm.mem_iff]
    rw [h.record_ok, h.record_ok, hsame]

end LiveRules
