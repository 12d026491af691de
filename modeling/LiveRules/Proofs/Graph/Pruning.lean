/-
# Removing undoes inserting

An action is removed in two moves. First it is taken off every node that has it. Then,
from each of these nodes in turn, the nodes that are left *dead*, without action and
without children, go, one after the other towards the root, up to the first that is
not dead. Which of the nodes comes first is a matter of how they are kept. It does not
show: a node that is dead but not gone is always one that is still to be visited, or
the one just arrived at, so at the end no node is dead, and what is left is what
`erase` leaves in one pass.

So it does not matter, either, how the nodes came to be there. Inserting paths for an
action makes no difference to the graph without the action, and a graph that does not
have the action is what it was.

Key definitions: `Forest.strip`, `Forest.prune`, `Graph.removeCascade`.
Key theorems: `Forest.foldl_prune`, `Graph.removeCascade_eq`, `Forest.erase_insert`,
`removal_undoes_insertion`.
-/
import LiveRules.Graph.Printer
import LiveRules.Proofs.Graph.Refusal

namespace LiveRules

namespace Forest

/-- Takes `a` off every node, and leaves the nodes. -/
def strip (a : ActionId) : Forest → Forest
  | .nil => .nil
  | .node l as below next => .node l (as.filter (· ≠ a)) (below.strip a) (next.strip a)

/-- The words of the nodes that have `a`. -/
def holders (a : ActionId) : Forest → List (List Label)
  | .nil => []
  | .node l as below next =>
    (if a ∈ as then [[l]] else []) ++ (below.holders a).map (l :: ·) ++ next.holders a

/-- Drops the node at the end of a word, with what is below it. -/
def cut : List Label → Forest → Forest
  | _, .nil => .nil
  | [], f => f
  | [k], .node l as below next => if l = k then next else .node l as below (next.cut [k])
  | k :: j :: w, .node l as below next =>
    if l = k then .node l as (below.cut (j :: w)) next else .node l as below (next.cut (k :: j :: w))

/-- The node at the end of `u` and then `k` is there, without action and without children. -/
def IsDead (f : Forest) (u : List Label) (k : Label) : Prop :=
  (f.descend u).tree? k = some ([], .nil)

instance (f : Forest) (u : List Label) (k : Label) : Decidable (f.IsDead u k) :=
  inferInstanceAs (Decidable (_ = _))

/-- Drops the node at the end of a word, which is given from its end, if it is dead, and then
its parent, if that is dead, and so on. -/
def prune : List Label → Forest → Forest
  | [], f => f
  | k :: up, f => if f.IsDead up.reverse k then prune up (f.cut (up.reverse ++ [k])) else f

/-- The tree with this root, if it is not dead, beside `next`. -/
def keep (l : Label) (as : List ActionId) (below next : Forest) : Forest :=
  match as, below with
  | [], .nil => next
  | as, below => .node l as below next

/-- Drops every node that leads to no action. -/
def sweep : Forest → Forest
  | .nil => .nil
  | .node l as below next => keep l as below.sweep next.sweep

/-- Siblings have different labels. -/
def Distinct : Forest → Prop
  | .nil => True
  | .node l _ below next => l ∉ next.labels ∧ below.Distinct ∧ next.Distinct

/-! ### One node after the other -/

theorem erase_eq_sweep (a : ActionId) : ∀ f : Forest, f.erase a = (f.strip a).sweep
  | .nil => rfl
  | .node l as below next => by
    show keep l (as.filter (· ≠ a)) (below.erase a) (next.erase a) = _
    rw [strip, sweep, erase_eq_sweep a below, erase_eq_sweep a next]

theorem not_isDead_nil (u : List Label) (k : Label) : ¬ nil.IsDead u k := by
  cases u <;> simp [IsDead, descend, tree?]

theorem isDead_nil_iff {l k : Label} {as : List ActionId} {below next : Forest} :
    (node l as below next).IsDead [] k ↔ if l = k then as = [] ∧ below = nil else next.IsDead [] k := by
  rw [IsDead, descend_nil, tree?]
  by_cases hlk : l = k
  · simp [hlk]
  · simp [hlk, IsDead, descend_nil]

theorem isDead_cons_iff {l j k : Label} {as : List ActionId} {below next : Forest} {u : List Label} :
    (node l as below next).IsDead (j :: u) k ↔ if l = j then below.IsDead u k else next.IsDead (j :: u) k := by
  rw [IsDead, descend]
  by_cases hlj : l = j
  · simp [hlj, IsDead]
  · simp [hlj, IsDead]

/-- A dead node is the first one, or below it, or beside it. -/
theorem isDead_cases {l k : Label} {as : List ActionId} {below next : Forest} {u : List Label}
    (h : (node l as below next).IsDead u k) :
    (u = [] ∧ k = l ∧ as = [] ∧ below = nil) ∨ (∃ v, u = l :: v ∧ below.IsDead v k) ∨
      ((u ++ [k]).head? ≠ some l ∧ next.IsDead u k) := by
  cases u with
  | nil =>
    rw [isDead_nil_iff] at h
    by_cases hlk : l = k
    · rw [if_pos hlk] at h
      exact Or.inl ⟨rfl, hlk.symm, h⟩
    · rw [if_neg hlk] at h
      exact Or.inr (Or.inr ⟨by simpa using Ne.symm hlk, h⟩)
  | cons j u =>
    rw [isDead_cons_iff] at h
    by_cases hlj : l = j
    · rw [if_pos hlj] at h
      exact Or.inr (Or.inl ⟨u, by rw [hlj], h⟩)
    · rw [if_neg hlj] at h
      exact Or.inr (Or.inr ⟨by simpa using Ne.symm hlj, h⟩)

/-- What is dead beside the first node is dead. -/
theorem isDead_of_next {l k : Label} {as : List ActionId} {below next : Forest} {u : List Label}
    (hne : (u ++ [k]).head? ≠ some l) (h : next.IsDead u k) : (node l as below next).IsDead u k := by
  cases u with
  | nil =>
    have hlk : ¬ l = k := fun heq => hne (by simp [heq])
    rwa [isDead_nil_iff, if_neg hlk]
  | cons j u =>
    have hlj : ¬ l = j := fun heq => hne (by simp [heq])
    rwa [isDead_cons_iff, if_neg hlj]

/-- What is dead has a label at the top on its way. -/
theorem head_of_isDead {f : Forest} {u : List Label} {k : Label} (h : f.IsDead u k) :
    ∃ j ∈ f.labels, (u ++ [k]).head? = some j := by
  cases u with
  | nil =>
    refine ⟨k, ?_, rfl⟩
    by_contra hk
    rw [IsDead, descend_nil, tree?_eq_none.mpr hk] at h
    cases h
  | cons j u =>
    refine ⟨j, ?_, rfl⟩
    by_contra hj
    rw [IsDead, descend_of_not_mem hj] at h
    cases h

/-- **Dropping a dead node** makes no difference to what leads to an action. -/
theorem sweep_cut {f : Forest} {u : List Label} {k : Label} (h : f.IsDead u k) :
    (f.cut (u ++ [k])).sweep = f.sweep := by
  induction f generalizing u with
  | nil => rfl
  | node l as below next ihb ihn =>
    cases u with
    | nil =>
      rw [isDead_nil_iff] at h
      rw [List.nil_append, cut]
      by_cases hlk : l = k
      · rw [if_pos hlk] at h ⊢
        obtain ⟨rfl, rfl⟩ := h
        rfl
      · rw [if_neg hlk] at h ⊢
        have := ihn h
        rw [List.nil_append] at this
        rw [sweep, sweep, this]
    | cons j u =>
      obtain ⟨i, v, hv⟩ := List.exists_cons_of_ne_nil (show u ++ [k] ≠ [] by simp)
      rw [isDead_cons_iff] at h
      rw [List.cons_append, hv, cut, ← hv]
      by_cases hlj : l = j
      · rw [if_pos hlj] at h ⊢
        rw [sweep, sweep, ihb h]
      · rw [if_neg hlj] at h ⊢
        rw [sweep, sweep, ← List.cons_append, ihn h]

theorem labels_cut_subset (f : Forest) (w : List Label) : (f.cut w).labels ⊆ f.labels := by
  induction f generalizing w with
  | nil => cases w <;> simp [cut, labels]
  | node l as below next _ ihn =>
    rcases w with _ | ⟨k, _ | ⟨j, w⟩⟩
    · simp [cut]
    · rw [cut]
      split
      · exact fun i hi => List.mem_cons_of_mem _ hi
      · exact List.cons_subset_cons _ (ihn [k])
    · rw [cut]
      split
      · exact List.Subset.refl _
      · exact List.cons_subset_cons _ (ihn (k :: j :: w))

theorem cut_distinct {f : Forest} (hf : f.Distinct) (w : List Label) : (f.cut w).Distinct := by
  induction f generalizing w with
  | nil => cases w <;> trivial
  | node l as below next ihb ihn =>
    obtain ⟨hl, hb, hn⟩ := hf
    match w with
    | [] => exact ⟨hl, hb, hn⟩
    | [k] =>
      rw [cut]
      split
      · exact hn
      · exact ⟨fun h => hl (labels_cut_subset next [k] h), hb, ihn hn [k]⟩
    | k :: j :: w =>
      rw [cut]
      split
      · exact ⟨hl, ihb hb (j :: w), hn⟩
      · exact ⟨fun h => hl (labels_cut_subset next _ h), hb, ihn hn _⟩

/-- Dropping a node that is not at the top leaves something. -/
theorem cut_ne_nil {f : Forest} (hf : f ≠ nil) (k j : Label) (w : List Label) : f.cut (k :: j :: w) ≠ nil := by
  cases f with
  | nil => exact absurd rfl hf
  | node l as below next =>
    rw [cut]
    split <;> simp

/-- **Dropping a node** leaves dead what was dead, and at most kills its parent. -/
theorem isDead_cut {f : Forest} (hf : f.Distinct) {w v : List Label} {i : Label} (h : (f.cut w).IsDead v i) :
    (f.IsDead v i ∧ v ++ [i] ≠ w) ∨ ∃ k, w = v ++ [i] ++ [k] := by
  induction f generalizing w v with
  | nil =>
    have hnil : nil.cut w = nil := by cases w <;> rfl
    rw [hnil] at h
    exact absurd h (not_isDead_nil v i)
  | node l as below next ihb ihn =>
    obtain ⟨hl, hb, hn⟩ := hf
    match w with
    | [] => exact Or.inl ⟨h, by simp⟩
    | [k] =>
      rw [cut] at h
      by_cases hlk : l = k
      · -- the first node is gone, and its label is nowhere beside it
        rw [if_pos hlk] at h
        obtain ⟨j, hj, hhead⟩ := head_of_isDead h
        have hne : (v ++ [i]).head? ≠ some l := by
          rw [hhead]
          rintro heq
          cases heq
          exact hl hj
        refine Or.inl ⟨isDead_of_next hne h, fun heq => hne ?_⟩
        rw [heq, hlk]
        rfl
      · rw [if_neg hlk] at h
        rcases isDead_cases h with ⟨rfl, rfl, rfl, rfl⟩ | ⟨v, rfl, hdead⟩ | ⟨hne, hdead⟩
        · refine Or.inl ⟨isDead_nil_iff.mpr (by simp), by simpa using hlk⟩
        · refine Or.inl ⟨isDead_cons_iff.mpr (by simpa using hdead), by simp⟩
        · rcases ihn hn hdead with ⟨hdead, hother⟩ | hparent
          · exact Or.inl ⟨isDead_of_next hne hdead, hother⟩
          · exact Or.inr hparent
    | k :: j :: w =>
      rw [cut] at h
      by_cases hlk : l = k
      · subst hlk
        rw [if_pos rfl] at h
        rcases isDead_cases h with ⟨rfl, rfl, rfl, hnil⟩ | ⟨v, rfl, hdead⟩ | ⟨hne, hdead⟩
        · -- the first node was dead before, or what has been dropped was its only child
          cases w with
          | nil => exact Or.inr ⟨j, rfl⟩
          | cons m w =>
            have hbelow : below = nil := by
              by_contra hbelow
              exact cut_ne_nil hbelow j m w hnil
            exact Or.inl ⟨isDead_nil_iff.mpr (by simp [hbelow]), by simp⟩
        · rcases ihb hb hdead with ⟨hdead, hother⟩ | ⟨m, hparent⟩
          · exact Or.inl ⟨isDead_cons_iff.mpr (by simpa using hdead), by simpa using hother⟩
          · exact Or.inr ⟨m, by simp [hparent]⟩
        · refine Or.inl ⟨isDead_of_next hne hdead, fun heq => hne ?_⟩
          rw [heq]
          rfl
      · rw [if_neg hlk] at h
        rcases isDead_cases h with ⟨rfl, rfl, rfl, rfl⟩ | ⟨v, rfl, hdead⟩ | ⟨hne, hdead⟩
        · exact Or.inl ⟨isDead_nil_iff.mpr (by simp), by simp⟩
        · exact Or.inl ⟨isDead_cons_iff.mpr (by simpa using hdead), fun heq => hlk (List.cons.inj heq).1⟩
        · rcases ihn hn hdead with ⟨hdead, hother⟩ | hparent
          · exact Or.inl ⟨isDead_of_next hne hdead, hother⟩
          · exact Or.inr hparent

/-! ### All of them -/

/-- If no node is dead, none is dropped. -/
theorem sweep_of_none {f : Forest} (hf : f.Distinct) (h : ∀ u k, ¬ f.IsDead u k) : f.sweep = f := by
  induction f with
  | nil => rfl
  | node l as below next ihb ihn =>
    obtain ⟨hl, hb, hn⟩ := hf
    have hbelow : below.sweep = below := ihb hb fun u k hdead =>
      h (l :: u) k (isDead_cons_iff.mpr (by simpa using hdead))
    have hnext : next.sweep = next := ihn hn fun u k hdead => by
      obtain ⟨j, hj, hhead⟩ := head_of_isDead hdead
      refine h u k (isDead_of_next (fun heq => hl ?_) hdead)
      rw [hhead] at heq
      cases heq
      exact hj
    rw [sweep, hbelow, hnext]
    have hlive : as ≠ [] ∨ below ≠ nil := by
      by_contra hdead
      simp only [ne_eq, not_or, not_not] at hdead
      exact h [] l (isDead_nil_iff.mpr (by simp [hdead]))
    unfold keep
    split
    · simp at hlive
    · rfl

/-- **Pruning from a node** makes no difference to what leads to an action. If every dead
node is this one or one still to be visited, then afterwards every dead node is still to be
visited. -/
theorem prune_spec {f : Forest} (hf : f.Distinct) (w : List Label) {pending : List (List Label)}
    (h : ∀ u k, f.IsDead u k → u ++ [k] = w.reverse ∨ u ++ [k] ∈ pending) :
    (f.prune w).Distinct ∧ (f.prune w).sweep = f.sweep ∧ ∀ u k, (f.prune w).IsDead u k → u ++ [k] ∈ pending := by
  induction w generalizing f with
  | nil => exact ⟨hf, rfl, fun u k hdead => (h u k hdead).resolve_left (by simp)⟩
  | cons k up ih =>
    rw [prune]
    split
    · rename_i hdead
      obtain ⟨hdistinct, hsweep, hpending⟩ := ih (cut_distinct hf (up.reverse ++ [k])) fun v i hv => by
        rcases isDead_cut hf hv with ⟨hv, hother⟩ | ⟨m, hparent⟩
        · refine Or.inr ((h v i hv).resolve_left fun heq => hother ?_)
          rw [heq, List.reverse_cons]
        · exact Or.inl (List.append_inj' hparent rfl).1.symm
      exact ⟨hdistinct, hsweep.trans (sweep_cut hdead), hpending⟩
    · rename_i hdead
      refine ⟨hf, rfl, fun v i hv => (h v i hv).resolve_left fun heq => hdead ?_⟩
      rw [List.reverse_cons] at heq
      obtain ⟨rfl, hi⟩ := List.append_inj' heq rfl
      cases hi
      exact hv

theorem labels_strip (a : ActionId) : ∀ f : Forest, (f.strip a).labels = f.labels
  | .nil => rfl
  | .node l as below next => by rw [strip, labels, labels, labels_strip a next]

theorem strip_distinct (a : ActionId) {f : Forest} (hf : f.Tidy) : (f.strip a).Distinct := by
  induction f with
  | nil => trivial
  | node l as below next ihb ihn =>
    obtain ⟨⟨hl, -⟩, -, -, -, hb, hn⟩ := hf
    exact ⟨labels_strip a next ▸ hl, ihb hb, ihn hn⟩

/-- What is dead once `a` is off is a node that had it. -/
theorem mem_holders {a : ActionId} {f : Forest} (hf : f.Tidy) {u : List Label} {k : Label}
    (h : (f.strip a).IsDead u k) : u ++ [k] ∈ f.holders a := by
  induction f generalizing u with
  | nil => exact absurd h (not_isDead_nil u k)
  | node l as below next ihb ihn =>
    obtain ⟨-, -, hlead, -, hb, hn⟩ := hf
    rw [strip] at h
    rw [holders, List.mem_append, List.mem_append]
    rcases isDead_cases h with ⟨rfl, rfl, has, hbelow⟩ | ⟨v, rfl, hdead⟩ | ⟨-, hdead⟩
    · have hnil : below = nil := by
        cases below with
        | nil => rfl
        | node => cases hbelow
      obtain ⟨b, hmem⟩ := List.exists_mem_of_ne_nil _ (hlead.resolve_right (not_not.mpr hnil))
      have hb : b = a := by simpa using List.filter_eq_nil_iff.mp has b hmem
      exact Or.inl (Or.inl (by simp [← hb, hmem]))
    · exact Or.inl (Or.inr (List.mem_map_of_mem (ihb hb hdead)))
    · exact Or.inr (ihn hn hdead)

/-- **Pruning from every node** that had `a`, in whatever order, comes to what erasing `a`
comes to. -/
theorem foldl_prune {a : ActionId} {f : Forest} (hf : f.Tidy) {order : List (List Label)}
    (h : ∀ w ∈ f.holders a, w ∈ order) :
    order.foldl (fun f w => f.prune w.reverse) (f.strip a) = f.erase a := by
  suffices key : ∀ (order : List (List Label)) (f : Forest), f.Distinct → (∀ u k, f.IsDead u k → u ++ [k] ∈ order) →
      order.foldl (fun f w => f.prune w.reverse) f = f.sweep by
    rw [erase_eq_sweep]
    exact key order _ (strip_distinct a hf) fun u k hdead => h _ (mem_holders hf hdead)
  intro order
  induction order with
  | nil =>
    intro f hf hnone
    exact (sweep_of_none hf fun u k hdead => by simpa using hnone u k hdead).symm
  | cons w order ih =>
    intro f hf hpending
    obtain ⟨hdistinct, hsweep, hpending'⟩ := prune_spec hf w.reverse fun u k hdead => by
      rw [List.reverse_reverse]
      exact List.mem_cons.mp (hpending u k hdead)
    rw [List.foldl_cons, ih _ hdistinct hpending', hsweep]

/-! ### Inserting makes no difference -/

theorem filter_insertId (a : ActionId) : ∀ l : List ActionId, (insertId a l).filter (· ≠ a) = l.filter (· ≠ a)
  | [] => by simp [insertId]
  | b :: l => by
    have ih := filter_insertId a l
    unfold insertId
    split
    · simp
    · split
      · rfl
      · simp only [List.filter_cons, ih]

theorem erase_node (a : ActionId) (l : Label) (as : List ActionId) (below next : Forest) :
    (node l as below next).erase a = keep l (as.filter (· ≠ a)) (below.erase a) (next.erase a) := rfl

theorem erase_chain (a : ActionId) : ∀ (k : Label) (w : List Label), (chain a k w).erase a = nil
  | k, [] => by simp [chain, erase]
  | k, j :: w => by simp [chain, erase, erase_chain a j w]

/-- **Inserting a word** for `a` makes no difference without `a`. -/
theorem erase_insert {a : ActionId} {f f' : Forest} {k : Label} {w : List Label} (h : f.insert a k w = .ok f') :
    f'.erase a = f.erase a := by
  induction f generalizing f' k w with
  | nil =>
    simp only [insert, Except.ok.injEq] at h
    subst h
    exact erase_chain a k w
  | node l as below next ihb ihn =>
    unfold insert at h
    split at h
    · cases w with
      | nil =>
        simp only [Except.ok.injEq] at h
        subst h
        rw [erase_node, erase_node, filter_insertId]
      | cons j v =>
        simp only at h
        split at h
        · cases hb : below.insert a j v with
          | error e => simp [hb, Except.map] at h
          | ok b =>
            simp only [hb, Except.map, Except.ok.injEq] at h
            subst h
            rw [erase_node, erase_node, ihb hb]
        · simp at h
    · cases hn : next.insert a k w with
      | error e => simp [hn, Except.map] at h
      | ok n =>
        simp only [hn, Except.map, Except.ok.injEq] at h
        subst h
        rw [erase_node, erase_node, ihn hn]

/-- Erasing what is not there changes nothing. -/
theorem erase_of_not_contains {a : ActionId} {f : Forest} (hf : f.Tidy) (h : f.contains a = false) : f.erase a = f := by
  induction f with
  | nil => rfl
  | node l as below next ihb ihn =>
    obtain ⟨-, -, hlead, -, hb, hn⟩ := hf
    simp only [contains, Bool.or_eq_false_iff] at h
    obtain ⟨⟨has, hbelow⟩, hnext⟩ := h
    have hfilter : as.filter (· ≠ a) = as := by
      refine List.filter_eq_self.mpr fun b hmem => ?_
      have hne : b ≠ a := by
        rintro rfl
        simp [hmem] at has
      simpa using hne
    rw [erase_node, ihb hb hbelow, ihn hn hnext, hfilter]
    unfold keep
    split
    · simp at hlead
    · rfl

end Forest

namespace Graph

/-- The words of the nodes that have `a`. -/
def holders (g : Graph) (a : ActionId) : List (List Label) :=
  g.top.holders a

/-- Takes `a` off every node, and then prunes from each node that had it, in this order. -/
def removeCascade (g : Graph) (a : ActionId) (order : List (List Label)) : Graph :=
  ⟨order.foldl (fun f w => f.prune w.reverse) (g.top.strip a)⟩

variable {g g' : Graph} {a : ActionId}

/-- **Removing an action** node by node is erasing it, whichever node comes first. -/
theorem removeCascade_eq (hg : g.Sound) {order : List (List Label)} (horder : order.Perm (g.holders a)) :
    g.removeCascade a order = g.erase a := by
  unfold removeCascade erase
  rw [Forest.foldl_prune hg.1 fun w hw => horder.mem_iff.mpr hw]

theorem erase_insert {paths : List Path} (h : g.insert paths a = .ok g') : g'.erase a = g.erase a := by
  induction paths generalizing g with
  | nil =>
    cases h
    rfl
  | cons p ps ih =>
    unfold Graph.insert at h
    rw [List.foldlM_cons] at h
    cases hp : insertWord a g p.word with
    | error e => simp [hp, bind, Except.bind] at h
    | ok f =>
      simp only [hp, bind, Except.bind] at h
      rw [ih h]
      obtain ⟨n, w, hword⟩ := p.word_eq_cons
      rw [hword] at hp
      unfold insertWord at hp
      cases hi : g.top.insert a (.field n) w with
      | error e => simp [hi, Except.map] at hp
      | ok t =>
        simp only [hi, Except.map, Except.ok.injEq] at hp
        subst hp
        simp only [erase, Forest.erase_insert hi]

theorem erase_of_not_contains (hg : g.Sound) (h : g.contains a = false) : g.erase a = g := by
  unfold erase
  rw [Forest.erase_of_not_contains hg.1 h]

end Graph

/-- **Removing undoes inserting.** Whatever has been done to a graph, paths are recorded in
it for an action that it does not have, and none is refused. Then the action is removed: it
is taken off every node, and from each node that had it the dead nodes are pruned towards
the root, in whatever order these nodes are visited. What is left is the graph there was,
with the same nodes in the same order, each with the same actions and children of the same
kind. So it has the same text and the same number of nodes, and whatever paths are recorded
in it next are recorded or refused as they would have been, with the same error. -/
theorem removal_undoes_insertion (edits : List Graph.Edit) (paths : List Path) (a : ActionId) :
    let g := (Graph.edited edits).1
    let out := (Graph.record paths a).outcome g
    g.contains a = false → out.1 = .ok () → ∀ order, order.Perm (out.2.holders a) →
      let back := out.2.removeCascade a order
      back = g ∧ back.text = g.text ∧ back.size = g.size ∧
        ∀ later b, (Graph.record later b).outcome back = (Graph.record later b).outcome g := by
  intro g out hnew hok order horder back
  have hsound : g.Sound := (Graph.edited_reads edits).built.sound
  have hback : back = g := by
    have hout : out = (Graph.record paths a).outcome g := rfl
    rw [Graph.record_eq] at hout
    cases hi : g.insert paths a with
    | error e =>
      rw [hi] at hout
      simp [hout] at hok
    | ok g' =>
      rw [hi] at hout
      have hgraph : out.2 = g' := congrArg Prod.snd hout
      calc back = out.2.erase a := Graph.removeCascade_eq (hgraph ▸ Graph.insert_sound hsound hi) horder
        _ = g'.erase a := by rw [hgraph]
        _ = g.erase a := Graph.erase_insert hi
        _ = g := Graph.erase_of_not_contains hsound hnew
  exact ⟨hback, by rw [hback], by rw [hback], fun later b => by rw [hback]⟩

/-- A property that is watched, and a property of each member of a list. -/
def watched : List Graph.Edit :=
  [.add [⟨[.property "lamp"], by decide⟩, ⟨[.collection "rows", .property "width"], by decide⟩] 1]

/-- These paths go on from a property that is watched, come to one that is watched already,
and share the first steps of one another. -/
def overlapping : List Path :=
  [⟨[.property "lamp", .property "on"], by decide⟩, ⟨[.collection "rows", .property "width"], by decide⟩,
    ⟨[.collection "rows"], by decide⟩, ⟨[.property "one", .property "two"], by decide⟩,
    ⟨[.property "one"], by decide⟩]

/-- Five nodes get the action, three of which are new. One of the three is dead without it only
once another has gone. -/
theorem removal_undoes_insertion_overlapping :
    let g := (Graph.edited watched).1
    let out := (Graph.record overlapping 2).outcome g
    g.contains 2 = false ∧ out.1 = .ok () ∧ (out.2.holders 2).length = 5 ∧ out.2.size = 8 ∧ g.size = 5 ∧
      out.2.removeCascade 2 (out.2.holders 2) = g ∧ out.2.removeCascade 2 (out.2.holders 2).reverse = g := by
  have hnew : (Graph.edited watched).1.contains 2 = false := by decide
  have hok : ((Graph.record overlapping 2).outcome (Graph.edited watched).1).1 = .ok () := by rfl
  have hback := removal_undoes_insertion watched overlapping 2 hnew hok
  exact ⟨hnew, hok, by rfl, by rfl, by rfl, (hback _ (List.Perm.refl _)).1, (hback _ (List.reverse_perm _)).1⟩

end LiveRules
