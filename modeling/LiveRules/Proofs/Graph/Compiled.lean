/-
# What a compiled plan says

A plan is read along words: a property leads to the plan below an object, and a
property followed by `member` to the plan for a collection's members. Read so, the
plan of a graph is the graph: what a property fires is everything recorded at the
property's word or beyond it, and what a change of membership fires is everything
recorded at the collection's members or beyond them.

For a binder the words are the trigger paths of its live rules. So its plan has a
property exactly where such a path goes through, and every list in the plan holds the
live rules with a path through its word, each once and in order of registration.

Key definitions: `Watch`, `Plan.watch?`, `Rule.passes`, `Roster.through`.
Key theorems: `Forest.watch?_compile`, `Kept.recorded`, `plan_reads_roster`.
-/
import LiveRules.Proofs.Firing.Triggers
import LiveRules.Proofs.Roster
import Mathlib.Data.List.Sort

namespace LiveRules

/-! ### Reading a plan -/

/-- What is watched below the value of a property. -/
inductive Shape (α : Type)
  | value
  | object (below : Plan α)
  | collection (membership : List α) (item : Plan α)

def Shape.isObject {α : Type} : Shape α → Bool
  | .object _ => true
  | _ => false

def Shape.isCollection {α : Type} : Shape α → Bool
  | .collection _ _ => true
  | _ => false

/-- What a plan has for one property. -/
structure Watch (α : Type) where
  fire : List α
  shape : Shape α

namespace Plan

variable {α : Type}

def find? (name : String) : Plan α → Option (Watch α)
  | .nil => none
  | .value n fire next => if n = name then some ⟨fire, .value⟩ else next.find? name
  | .object n fire below next => if n = name then some ⟨fire, .object below⟩ else next.find? name
  | .collection n fire membership item next =>
    if n = name then some ⟨fire, .collection membership item⟩ else next.find? name

/-- The plan at the end of a word, if the word leads to objects. -/
def at? : List Label → Plan α → Option (Plan α)
  | [], p => some p
  | .member :: _, _ => none
  | .field n :: w, p =>
    match (p.find? n).map Watch.shape, w with
    | some (.object below), w => below.at? w
    | some (.collection _ item), .member :: v => item.at? v
    | _, _ => none

/-- What the plan has for the property `name` of the objects at the end of `w`. -/
def watch? (p : Plan α) (w : List Label) (name : String) : Option (Watch α) :=
  (p.at? w).bind (·.find? name)

end Plan

/-! ### The plan of a forest -/

namespace Forest

/-- What is recorded at the label `k`, and what is below it. -/
def tree? (k : Label) : Forest → Option (List ActionId × Forest)
  | .nil => none
  | .node l as below next => if l = k then some (as, below) else next.tree? k

theorem tree?_eq_none {k : Label} : ∀ {f : Forest}, f.tree? k = none ↔ k ∉ f.labels
  | .nil => by simp [tree?, labels]
  | .node l as below next => by
    rw [tree?, labels, List.mem_cons]
    by_cases hlk : l = k
    · simp [hlk]
    · simp [hlk, Ne.symm hlk, tree?_eq_none (f := next)]

theorem isSome_tree? {k : Label} {f : Forest} : (f.tree? k).isSome = true ↔ k ∈ f.labels := by
  rw [← not_iff_not, Bool.not_eq_true, Option.isSome_eq_false_iff, Option.isNone_iff_eq_none, tree?_eq_none]

theorem descend_of_not_mem {k : Label} {w : List Label} : ∀ {f : Forest}, k ∉ f.labels → f.descend (k :: w) = .nil
  | .nil, _ => rfl
  | .node l as below next, h => by
    rw [labels, List.mem_cons, not_or] at h
    rw [descend, if_neg (Ne.symm h.1), descend_of_not_mem h.2]

theorem descend_tidy (w : List Label) {f : Forest} (hf : f.Tidy) : (f.descend w).Tidy := by
  induction f generalizing w with
  | nil => cases w <;> exact hf
  | node l as below next ihb ihn =>
    cases w with
    | nil => exact hf
    | cons k w =>
      rw [descend]
      split
      · exact ihb w hf.2.2.2.2.1
      · exact ihn (k :: w) hf.2.2.2.2.2

section

variable {f : Forest} {k : Label} {as : List ActionId} {below : Forest}

theorem descend_of_tree (h : f.tree? k = some (as, below)) (w : List Label) : f.descend (k :: w) = below.descend w := by
  induction f with
  | nil => cases h
  | node l bs inside next _ ihn =>
    rw [tree?] at h
    rw [descend]
    by_cases hlk : l = k
    · rw [if_pos hlk] at h ⊢
      cases h
      rfl
    · rw [if_neg hlk] at h ⊢
      exact ihn h

theorem actionsAt_of_tree (h : f.tree? k = some (as, below)) :
    f.actionsAt k [] = as ∧ ∀ j v, f.actionsAt k (j :: v) = below.actionsAt j v := by
  induction f with
  | nil => cases h
  | node l bs inside next _ ihn =>
    rw [tree?] at h
    by_cases hlk : l = k
    · rw [if_pos hlk] at h
      cases h
      exact ⟨by simp [actionsAt, hlk], fun j v => by simp [actionsAt, hlk]⟩
    · rw [if_neg hlk] at h
      obtain ⟨hhere, hbelow⟩ := ihn h
      exact ⟨by simp [actionsAt, hlk, hhere], fun j v => by simp [actionsAt, hlk, hbelow]⟩

theorem tidy_of_tree (hf : f.Tidy) (h : f.tree? k = some (as, below)) :
    below.Tidy ∧ (k = .member → .member ∉ below.labels) := by
  induction f with
  | nil => cases h
  | node l bs inside next _ ihn =>
    rw [tree?] at h
    by_cases hlk : l = k
    · rw [if_pos hlk] at h
      cases h
      exact ⟨hf.2.2.2.2.1, hlk ▸ hf.2.2.2.1⟩
    · rw [if_neg hlk] at h
      exact ihn hf.2.2.2.2.2 h

/-- **The ids of a fire list**: what is recorded at the label or below it. -/
theorem mem_fireIds (hf : f.Tidy) (h : f.tree? k = some (as, below)) {a : ActionId} :
    a ∈ unionIds as below.gather ↔ ∃ v, a ∈ f.actionsAt k v := by
  obtain ⟨hhere, hbelow⟩ := actionsAt_of_tree h
  rw [mem_unionIds, mem_gather (tidy_of_tree hf h).1]
  constructor
  · rintro (ha | ⟨j, v, ha⟩)
    · exact ⟨[], hhere ▸ ha⟩
    · exact ⟨j :: v, (hbelow j v).symm ▸ ha⟩
  · rintro ⟨v, ha⟩
    cases v with
    | nil => exact Or.inl (hhere ▸ ha)
    | cons j v => exact Or.inr ⟨j, v, hbelow j v ▸ ha⟩

end

variable {α : Type} (resolve : ActionId → Option α)

/-- What the forest below a property makes of its value. -/
def shape : Forest → Shape α
  | .nil => .value
  | .node .member bs item _ => .collection (fireList resolve bs item) (item.compile resolve)
  | .node (.field n) as below next => .object ((node (.field n) as below next).compile resolve)

def watchOf (t : List ActionId × Forest) : Watch α :=
  ⟨fireList resolve t.1 t.2, t.2.shape resolve⟩

theorem find?_compile (n : String) : ∀ {f : Forest}, .member ∉ f.labels →
    (f.compile resolve).find? n = (f.tree? (.field n)).map (watchOf resolve)
  | .nil, _ => rfl
  | .node .member _ _ _, h => absurd List.mem_cons_self h
  | .node (.field m) as below next, h => by
    have ih := find?_compile n (f := next) fun hm => h (List.mem_cons_of_mem _ hm)
    have hplan : ((node (.field m) as below next).compile resolve).find? n =
        if m = n then some (watchOf resolve (as, below)) else (next.compile resolve).find? n := by
      cases below with
      | nil => rfl
      | node l bs inside nx => cases l <;> rfl
    rw [hplan, ih, tree?]
    by_cases hmn : m = n
    · simp [hmn]
    · simp [hmn]

/-- **Reading a forest's plan** along a word is going down the forest. -/
theorem watch?_compile (n : String) : ∀ (w : List Label) {f : Forest}, f.Open →
    (f.compile resolve).watch? w n = ((f.descend w).tree? (.field n)).map (watchOf resolve)
  | [], f, hf => by
    rw [descend_nil]
    exact find?_compile resolve n hf.2
  | .member :: w, f, hf => by
    rw [descend_of_not_mem hf.2]
    rfl
  | .field m :: w, f, hf => by
    unfold Plan.watch?
    rw [Plan.at?.eq_def]
    simp only
    rw [find?_compile resolve m hf.2]
    cases ht : f.tree? (.field m) with
    | none =>
      rw [descend_of_not_mem (tree?_eq_none.mp ht)]
      rfl
    | some t =>
      obtain ⟨as, below⟩ := t
      rw [descend_of_tree ht]
      have hb : below.Tidy := (tidy_of_tree hf.1 ht).1
      cases below with
      | nil =>
        have hnil : (nil : Forest).descend w = nil := by cases w <;> rfl
        rw [hnil]
        rfl
      | node l bs inside nx =>
        have hkinds : ∀ k, l.sameKind k = false → k ∉ (node l bs inside nx).labels := by
          intro k hk hmem
          rw [sameKind_labels hb l List.mem_cons_self k hmem] at hk
          cases hk
        cases l with
        | field q =>
          exact watch?_compile n w ⟨hb, hkinds .member rfl⟩
        | member =>
          cases w with
          | nil =>
            rw [descend_nil, tree?_eq_none.mpr (hkinds (.field n) rfl)]
            rfl
          | cons k v =>
            cases k with
            | field q =>
              rw [descend_of_not_mem (hkinds (.field q) rfl)]
              rfl
            | member =>
              rw [descend, if_pos rfl]
              exact watch?_compile n v ⟨hb.2.2.2.2.1, hb.2.2.2.1 rfl⟩

/-- A property stands in a plan once. -/
theorem place?_inj {f : Forest} (hf : f.Open) {n : String} {fire fire' : List α} {i j : Nat}
    (hi : (f.compile resolve).place? i = some (n, fire)) (hj : (f.compile resolve).place? j = some (n, fire')) :
    i = j := by
  induction f generalizing i j with
  | nil => cases hi
  | node l as below next _ ihn =>
    cases l with
    | member => exact absurd List.mem_cons_self hf.2
    | field m =>
      cases i <;> cases j <;> simp only [place?_compile_zero, place?_compile_succ] at hi hj
      case zero.zero => rfl
      case zero.succ =>
        cases hi
        exact absurd rfl (hf.ne_of_place hj)
      case succ.zero =>
        cases hj
        exact absurd rfl (hf.ne_of_place hi)
      case succ.succ => rw [ihn hf.next hi hj]

/-- Every plan along a word is that of a forest of properties. -/
theorem at?_compile : ∀ (w : List Label) {f : Forest}, f.Open → ∀ {q : Plan α}, (f.compile resolve).at? w = some q →
    ∃ h : Forest, h.Open ∧ q = h.compile resolve
  | [], f, hf, q, hq => ⟨f, hf, (Option.some.inj hq).symm⟩
  | .member :: _, _, _, _, hq => nomatch hq
  | .field m :: w, f, hf, q, hq => by
    rw [Plan.at?.eq_def] at hq
    simp only at hq
    rw [find?_compile resolve m hf.2] at hq
    cases ht : f.tree? (.field m) with
    | none => simp [ht] at hq
    | some t =>
      obtain ⟨as, below⟩ := t
      rw [ht] at hq
      have hb : below.Tidy := (tidy_of_tree hf.1 ht).1
      cases below with
      | nil => cases hq
      | node l bs inside nx =>
        cases l with
        | field r =>
          refine at?_compile w ⟨hb, fun hmem => ?_⟩ hq
          cases sameKind_labels hb _ List.mem_cons_self _ hmem
        | member =>
          cases w with
          | nil => cases hq
          | cons k v =>
            cases k with
            | field r => cases hq
            | member => exact at?_compile v ⟨hb.2.2.2.2.1, hb.2.2.2.1 rfl⟩ hq

end Forest

/-! ### What is recorded through a word -/

/-- **Below a word** are the actions with a path that begins with it. -/
theorem Graph.Built.mem_below {graph : Graph} (hgraph : graph.Built) (w : List Label) (k : Label) {a : ActionId} :
    (∃ v, a ∈ (graph.top.descend w).actionsAt k v) ↔
      ∃ path : Path, a ∈ graph.actionsAt path ∧ w ++ [k] <+: path.word := by
  have hdescend : ∀ v, ∃ j u, w ++ k :: v = j :: u ∧
      (graph.top.descend w).actionsAt k v = graph.top.actionsAt j u := by
    intro v
    cases w with
    | nil => exact ⟨k, v, rfl, by rw [Forest.descend_nil]⟩
    | cons j u => exact ⟨j, u ++ k :: v, rfl, Forest.actionsAt_descend ..⟩
  constructor
  · rintro ⟨v, ha⟩
    obtain ⟨j, u, hword, heq⟩ := hdescend v
    rw [heq] at ha
    obtain ⟨path, hpath⟩ := hgraph.literate j u (List.ne_nil_of_mem ha)
    refine ⟨path, by simpa [Graph.actionsAt, hpath] using ha, v, ?_⟩
    rw [hpath, ← hword, List.append_assoc]
    rfl
  · rintro ⟨path, ha, v, hpath⟩
    obtain ⟨j, u, hword, heq⟩ := hdescend v
    refine ⟨v, ?_⟩
    have hsame : path.word = j :: u := by
      rw [← hpath, ← hword, List.append_assoc]
      rfl
    rw [heq]
    simpa [Graph.actionsAt, hsame] using ha

/-- A graph knows the actions on its lists. -/
theorem Forest.contains_eq_true {a : ActionId} : ∀ {f : Forest}, f.contains a = true ↔ a ∈ f.gather
  | .nil => by simp [contains, gather]
  | .node l as below next => by
    rw [gather, mem_unionIds, mem_unionIds, ← contains_eq_true, ← contains_eq_true]
    simp [contains, or_assoc]

/-! ### Live rules -/

/-- One of the rule's trigger paths begins with `u`. -/
def Rule.passes {α : Type} (r : Rule α) (u : List Label) : Bool :=
  match r.triggers with
  | .ok paths => paths.any fun p => u.isPrefixOf p.word
  | .error _ => false

/-- The live rules with a trigger path through `u`, in order of registration. -/
def Roster.through {α : Type} (L : Roster α) (u : List Label) : List (ActionId × α) :=
  (L.live.filter (·.rule.passes u)).map fun e => (e.id, e.rule.action)

theorem Rule.passes_iff {α : Type} {r : Rule α} {u : List Label} :
    r.passes u = true ↔ ∃ p, r.watches p = true ∧ u <+: p.word := by
  unfold passes watches
  cases r.triggers with
  | error e => simp
  | ok paths => simp

variable {κ : Type}

section

variable {b : Binder κ} {L : Roster (Action κ)} (h : Kept b L) (hbuilt : b.graph.Built)

include h

theorem Kept.mem_recorded {u : List Label} {a : ActionId} :
    (∃ path, a ∈ b.graph.actionsAt path ∧ u <+: path.word) ↔ a ∈ L.idsOf (·.passes u) := by
  simp only [Roster.mem_idsOf, Rule.passes_iff, h.graph]
  constructor
  · rintro ⟨path, ⟨e, he, hw, rfl⟩, hu⟩
    exact ⟨e, he, ⟨path, hw, hu⟩, rfl⟩
  · rintro ⟨e, he, ⟨path, hw, hu⟩, rfl⟩
    exact ⟨path, ⟨e, he, hw, rfl⟩, hu⟩

include hbuilt

/-- Some path goes through a word exactly if a live rule's does. -/
theorem Kept.recorded {w : List Label} {k : Label} :
    (∃ v, (b.graph.top.descend w).actionsAt k v ≠ []) ↔ ∃ e ∈ L.live, e.rule.passes (w ++ [k]) = true := by
  have hexists : (∃ e ∈ L.live, e.rule.passes (w ++ [k]) = true) ↔ ∃ a, a ∈ L.idsOf (·.passes (w ++ [k])) := by
    simp only [Roster.mem_idsOf]
    exact ⟨fun ⟨e, he, hp⟩ => ⟨e.id, e, he, hp, rfl⟩, fun ⟨_, e, he, hp, _⟩ => ⟨e, he, hp⟩⟩
  rw [hexists]
  constructor
  · rintro ⟨v, hv⟩
    obtain ⟨a, ha⟩ := List.exists_mem_of_ne_nil _ hv
    exact ⟨a, h.mem_recorded.mp ((hbuilt.mem_below w k).mp ⟨v, ha⟩)⟩
  · rintro ⟨a, ha⟩
    obtain ⟨v, hv⟩ := (hbuilt.mem_below w k).mpr (h.mem_recorded.mpr ha)
    exact ⟨v, List.ne_nil_of_mem hv⟩

theorem Kept.mem_labels {w : List Label} {k : Label} :
    k ∈ (b.graph.top.descend w).labels ↔ ∃ e ∈ L.live, e.rule.passes (w ++ [k]) = true := by
  rw [Forest.mem_labels_iff (Forest.descend_tidy w hbuilt.sound.1), h.recorded hbuilt]

/-- **A list of a binder's plan** is compiled to the live rules through its word. -/
theorem Kept.fireList_eq {w : List Label} {k : Label} {as : List ActionId} {below : Forest}
    (ht : (b.graph.top.descend w).tree? k = some (as, below)) :
    fireList b.registry.resolve as below = L.through (w ++ [k]) := by
  have hids : unionIds as below.gather = L.idsOf (·.passes (w ++ [k])) := by
    refine (unionIds_ascending (Forest.gather_ascending below)).eq_of_mem_iff
      (h.ascending.sublist (List.filter_sublist.map _)) fun {a} => ?_
    rw [Forest.mem_fireIds (Forest.descend_tidy w hbuilt.sound.1) ht, hbuilt.mem_below, h.mem_recorded]
  unfold fireList
  rw [hids, h.filterMap_resolve]
  rfl

omit h hbuilt in
theorem Roster.through_ne_nil {u : List Label} (hu : ∃ e ∈ L.live, e.rule.passes u = true) : L.through u ≠ [] := by
  obtain ⟨e, he, hp⟩ := hu
  exact List.ne_nil_of_mem (List.mem_map_of_mem (List.mem_filter.mpr ⟨he, hp⟩))

/-- Every id that the graph holds is that of a live rule. -/
theorem Kept.exists_of_contains {a : ActionId} (ha : b.graph.contains a = true) :
    ∃ e ∈ L.live, e.id = a ∧ b.registry.resolve a = some (a, e.rule.action) := by
  obtain ⟨k, v, hv⟩ := (Forest.mem_gather hbuilt.sound.1).mp (Forest.contains_eq_true.mp ha)
  obtain ⟨path, hpath⟩ := hbuilt.literate k v (List.ne_nil_of_mem hv)
  have hat : a ∈ b.graph.actionsAt path := by simpa [Graph.actionsAt, hpath] using hv
  rw [h.graph] at hat
  obtain ⟨e, he, -, rfl⟩ := Roster.mem_idsOf.mp hat
  exact ⟨e, he, rfl, h.resolve he⟩

/-- **A property of a binder's plan**, read off the live rules. -/
theorem Kept.watch?_plan (w : List Label) (n : String) :
    ((b.plan.watch? w n).isSome = true ↔ ∃ e ∈ L.live, e.rule.passes (w ++ [.field n]) = true) ∧
      ∀ x, b.plan.watch? w n = some x →
        x.fire = L.through (w ++ [.field n]) ∧
          (x.shape.isCollection = true ↔ ∃ e ∈ L.live, e.rule.passes (w ++ [.field n, .member]) = true) ∧
          (∀ membership item, x.shape = .collection membership item →
            membership = L.through (w ++ [.field n, .member])) ∧
          (x.shape.isObject = true ↔ ∃ m, ∃ e ∈ L.live, e.rule.passes (w ++ [.field n, .field m]) = true) := by
  have hwatch : b.plan.watch? w n =
      ((b.graph.top.descend w).tree? (.field n)).map (Forest.watchOf b.registry.resolve) :=
    Forest.watch?_compile _ n w hbuilt.sound
  rw [hwatch]
  constructor
  · rw [Option.isSome_map, ← h.mem_labels hbuilt, Forest.isSome_tree?]
  intro x hx
  obtain ⟨⟨as, below⟩, ht, rfl⟩ := Option.map_eq_some_iff.mp hx
  have hbelow : b.graph.top.descend (w ++ [.field n]) = below := by
    rw [← Forest.descend_descend, Forest.descend_of_tree ht, Forest.descend_nil]
  have htidy : below.Tidy := hbelow ▸ Forest.descend_tidy _ hbuilt.sound.1
  have hlabel : ∀ k, k ∈ below.labels ↔ ∃ e ∈ L.live, e.rule.passes (w ++ [.field n, k]) = true := by
    intro k
    have := h.mem_labels hbuilt (w := w ++ [.field n]) (k := k)
    rwa [hbelow, List.append_assoc] at this
  have hkinds := Forest.sameKind_labels htidy
  refine ⟨h.fireList_eq hbuilt ht, ?_⟩
  simp only [← hlabel]
  cases below with
  | nil => simp [Forest.watchOf, Forest.shape, Shape.isCollection, Shape.isObject, Forest.labels]
  | node l bs inside next =>
    have hl : l ∈ (Forest.node l bs inside next).labels := List.mem_cons_self
    cases l with
    | field q =>
      have hnone : .member ∉ (Forest.node (.field q) bs inside next).labels := by
        intro hm
        cases hkinds _ hl _ hm
      refine ⟨⟨fun hc => ?_, fun hm => absurd hm hnone⟩, fun membership item hc => ?_,
        ⟨fun _ => ⟨q, hl⟩, fun _ => rfl⟩⟩ <;>
        cases hc
    | member =>
      have hnone : ¬ ∃ m, .field m ∈ (Forest.node .member bs inside next).labels := by
        rintro ⟨m, hm⟩
        cases hkinds _ hl _ hm
      refine ⟨⟨fun _ => hl, fun _ => rfl⟩, fun membership item hc => ?_, ⟨fun hc => ?_, fun hm => absurd hm hnone⟩⟩ <;>
        cases hc
      have hitem : (b.graph.top.descend (w ++ [.field n])).tree? .member = some (bs, inside) := by
        rw [hbelow, Forest.tree?, if_pos rfl]
      have := h.fireList_eq hbuilt hitem
      rwa [List.append_assoc] at this

end

/-! ### Every history -/

theorem Binder.add_built {b b' : Binder κ} {rule : Rule (Action κ)} {a : ActionId} (hb : b.graph.Built)
    (h : b.add rule = .ok (a, b')) : b'.graph.Built := by
  unfold Binder.add Registry.add at h
  cases ht : rule.triggers with
  | error e => simp [ht, bind, Except.bind] at h
  | ok paths =>
    cases hg : (b.graph.eraseAll (b.registry.superseded rule)).insert paths b.registry.nextId with
    | error e => simp [ht, hg, bind, Except.bind] at h
    | ok g =>
      simp only [ht, hg, bind, Except.bind, pure, Except.pure, Except.ok.injEq, Prod.mk.injEq] at h
      obtain ⟨-, rfl⟩ := h
      exact .insert (hb.eraseAll _) hg

theorem Binder.addAll_built {rules : List (Rule (Action κ))} {b b' : Binder κ} (hb : b.graph.Built)
    (h : b.addAll rules = .ok b') : b'.graph.Built := by
  induction rules generalizing b with
  | nil =>
    cases h
    exact hb
  | cons r rules ih =>
    unfold Binder.addAll at h
    rw [List.foldlM_cons] at h
    cases hr : b.add r with
    | error e => simp [hr, bind, Except.bind, Except.map] at h
    | ok res =>
      simp only [hr, bind, Except.bind, Except.map] at h
      exact ih (Binder.add_built hb hr) h

/-- **Every operation** leaves a graph that was built by inserting and erasing. -/
theorem Binder.after_built {b : Binder κ} (hb : b.graph.Built) (op : Operation κ) : (b.after op).graph.Built := by
  cases op with
  | add rule key =>
    simp only [Binder.after]
    cases h : b.add (rule.withKey key) with
    | error e => exact hb
    | ok r => exact Binder.add_built hb h
  | bind p =>
    simp only [Binder.after]
    cases h : b.add p.rule with
    | error e => exact hb
    | ok r => exact Binder.add_built hb h
  | command c =>
    simp only [Binder.after]
    cases h : b.addAll c.rules with
    | error e => exact hb
    | ok b' => exact Binder.addAll_built hb h
  | remove key =>
    simp only [Binder.after, Binder.remove, Registry.remove]
    cases b.registry.keyed.get? key with
    | none => exact hb
    | some old => exact hb.eraseAll old
  | clone => exact hb
  | derive => exact hb

theorem history_built (ops : List (Operation κ)) : (history ops).1.graph.Built := by
  suffices key : ∀ s : Binder κ × Roster (Action κ), s.1.graph.Built →
      (ops.foldl (fun s op => (s.1.after op, s.2.after s.1 op)) s).1.graph.Built from key _ .empty
  induction ops with
  | nil => exact fun s h => h
  | cons op ops ih => exact fun s h => ih _ (Binder.after_built h op)

/-- **The plan is the roster.** Whatever operations have been made, the plan that is
compiled from a binder has a property at a word exactly if a live rule has a trigger
path through it, and once; what the property fires are the live rules with a path
through it, each once and in order of registration. Its value is watched as a
collection exactly if a path goes on to members, and then a change of membership fires
the live rules with such a path and no others; it is watched as an object exactly if a
path goes on to a property. Every id that the graph holds is known to the registry, so
nothing is left out, and no list of the plan is empty. -/
theorem plan_reads_roster (ops : List (Operation κ)) :
    let b := (history ops).1
    let L := (history ops).2
    L.ids.Pairwise (· < ·) ∧
    (∀ a, b.graph.contains a = true → ∃ e ∈ L.live, e.id = a ∧ b.registry.resolve a = some (a, e.rule.action)) ∧
    (∀ w q, b.plan.at? w = some q → ∀ i j n fire fire',
      q.place? i = some (n, fire) → q.place? j = some (n, fire') → i = j) ∧
    ∀ w n,
      ((b.plan.watch? w n).isSome = true ↔ ∃ e ∈ L.live, e.rule.passes (w ++ [.field n]) = true) ∧
      ∀ x, b.plan.watch? w n = some x →
        x.fire = L.through (w ++ [.field n]) ∧ x.fire ≠ [] ∧
        (x.shape.isCollection = true ↔ ∃ e ∈ L.live, e.rule.passes (w ++ [.field n, .member]) = true) ∧
        (∀ membership item, x.shape = .collection membership item →
          membership = L.through (w ++ [.field n, .member]) ∧ membership ≠ []) ∧
        (x.shape.isObject = true ↔ ∃ m, ∃ e ∈ L.live, e.rule.passes (w ++ [.field n, .field m]) = true) := by
  intro b L
  have hk : Kept b L := history_kept ops
  have hbuilt : b.graph.Built := history_built ops
  refine ⟨hk.ascending, fun a => hk.exists_of_contains hbuilt, fun w q hq i j n fire fire' hi hj => ?_, fun w n => ?_⟩
  · obtain ⟨f, hf, rfl⟩ := Forest.at?_compile b.registry.resolve w hbuilt.sound hq
    exact Forest.place?_inj b.registry.resolve hf hi hj
  · obtain ⟨hsome, hwatch⟩ := hk.watch?_plan hbuilt w n
    refine ⟨hsome, fun x hx => ?_⟩
    obtain ⟨hfire, hcollection, hmembership, hobject⟩ := hwatch x hx
    refine ⟨hfire, ?_, hcollection, fun membership item hshape => ?_, hobject⟩
    · exact hfire ▸ Roster.through_ne_nil (hsome.mp (hx ▸ rfl))
    · have heq := hmembership membership item hshape
      exact ⟨heq, heq ▸ Roster.through_ne_nil (hcollection.mp (hshape ▸ rfl))⟩

end LiveRules
