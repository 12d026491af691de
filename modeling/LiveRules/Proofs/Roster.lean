/-
# A binder keeps a list of live rules

What a binder does can be said with one list, the *roster*: the live rules in
the order of their registration, each with its id. Registering a rule that may
override takes the rules of its key off the list, and puts the rule at the end
under an id that was never given out before; removing a key takes its rules
off. A binder keeps five tables instead (the actions, the ids of each key, the
two phases of what runs on attach, and the graph), and `Kept` says how each of
them is read off the roster. Every operation keeps them in step, so they are in
step for every history of a binder.

A copy goes on with a history of its own, which begins with that of the original.
An operation that fails leaves the binder as it was.

Key definitions: `Roster`, `Operation`, `history`, `Kept`.
Key theorems: `add_kept`, `remove_kept`, `after_kept`, `history_reads_roster`.
-/
import LiveRules.Binder
import LiveRules.Proofs.Graph.Lookup

namespace LiveRules

structure Entry (α : Type) where
  id : ActionId
  rule : Rule α

structure Roster (α : Type) where
  live : List (Entry α) := []
  /-- Every id given out so far, the newest first, to rules that are gone too. -/
  issued : List ActionId := []

/-- One of the rule's trigger paths is `p`. -/
def Rule.watches {α : Type} (r : Rule α) (p : Path) : Bool :=
  match r.triggers with
  | .ok paths => paths.contains p
  | .error _ => false

/-- The rule runs on attach, in this phase. -/
def Rule.runsIn {α : Type} (r : Rule α) (phase : AttachPhase) : Bool :=
  r.runOnAttach && r.phase = phase

/-- A new rule takes the place of another: it may override, and both have the same key. -/
def Rule.replaces {α β : Type} (new : Rule α) (old : Rule β) : Bool :=
  new.canOverride && new.key.isSome && old.key = new.key

namespace Roster

variable {α : Type}

def ids (L : Roster α) : List ActionId :=
  L.live.map (·.id)

/-- The ids of the live rules of a kind, in order of registration. -/
def idsOf (L : Roster α) (p : Rule α → Bool) : List ActionId :=
  (L.live.filter fun e => p e.rule).map (·.id)

def idsUnder (L : Roster α) (key : String) : List ActionId :=
  L.idsOf fun r => r.key = some key

/-- An id above the newest one. -/
def fresh (L : Roster α) : ActionId :=
  match L.issued with
  | [] => 0
  | newest :: _ => newest + 1

def add (L : Roster α) (rule : Rule α) : Roster α :=
  { live := (L.live.filter fun e => !rule.replaces e.rule) ++ [⟨L.fresh, rule⟩]
    issued := L.fresh :: L.issued }

def addAll (L : Roster α) (rules : List (Rule α)) : Roster α :=
  rules.foldl add L

def remove (L : Roster α) (key : String) : Roster α :=
  { L with live := L.live.filter fun e => e.rule.key ≠ some key }

def map {β : Type} (f : α → β) (L : Roster α) : Roster β :=
  { L with live := L.live.map fun e => ⟨e.id, e.rule.map f⟩ }

end Roster

/-! ### Reading tables after changing them -/

namespace Registry

variable {α : Type}

theorem foldl_forget (old : List ActionId) (r : Registry α) :
    old.foldl forget r =
      { r with
        actions := r.actions.filter (·.1 ∉ old)
        onAttach := r.onAttach.filter (· ∉ old)
        onSettle := r.onSettle.filter (· ∉ old) } := by
  induction old generalizing r with
  | nil => simp
  | cons a old ih =>
    rw [List.foldl_cons, ih]
    simp only [forget, Table.erase, List.filter_filter, Registry.mk.injEq, true_and]
    refine ⟨?_, ?_, ?_⟩ <;>
    · apply List.filter_congr
      intro x _
      simp [Bool.and_comm]

/-- The key's list is all that entering a key changes. -/
theorem enterKey_eq (r : Registry α) (rule : Rule α) (old : List ActionId) (a : ActionId) :
    r.enterKey rule old a =
      { r with
        keyed := match rule.key with
          | none => r.keyed
          | some key => r.keyed.set key ((r.keyedIds key).filter (fun b => !old.contains b) ++ [a]) } := by
  unfold enterKey
  cases rule.key <;> rfl

end Registry

/-! ### In step -/

variable {κ : Type}

/-- Each table of the binder is read off the roster. -/
structure Kept (b : Binder κ) (L : Roster (Action κ)) : Prop where
  next : b.registry.nextId = L.fresh
  ascending : L.ids.Pairwise (· < ·)
  spent : ∀ i ∈ L.issued, i < L.fresh
  issued : ∀ e ∈ L.live, e.id ∈ L.issued
  named : ∀ e ∈ L.live, e.rule.key ≠ some ""
  accepted : ∀ e ∈ L.live, ∃ paths, e.rule.triggers = .ok paths
  actions : b.registry.actions = L.live.map fun e => (e.id, e.rule.action)
  keyed : ∀ key, b.registry.keyed.get? key =
    if L.idsUnder key = [] then none else some (L.idsUnder key)
  onAttach : b.registry.onAttach = L.idsOf (·.runsIn .initial)
  onSettle : b.registry.onSettle = L.idsOf (·.runsIn .settle)
  sound : b.graph.Sound
  graph : ∀ p, b.graph.actionsAt p = L.idsOf (·.watches p)

namespace Roster

variable {α : Type} {L : Roster α}

theorem mem_idsOf {p : Rule α → Bool} {a : ActionId} :
    a ∈ L.idsOf p ↔ ∃ e ∈ L.live, p e.rule = true ∧ e.id = a := by
  simp [idsOf, and_assoc]

/-- Distinct ids: an entry is known by its id. -/
theorem mem_idsOf_id (h : L.ids.Pairwise (· < ·)) {p : Rule α → Bool} {e : Entry α} (he : e ∈ L.live) :
    e.id ∈ L.idsOf p ↔ p e.rule = true := by
  refine ⟨fun hm => ?_, fun hp => mem_idsOf.mpr ⟨e, he, hp, rfl⟩⟩
  obtain ⟨d, hd, hp, hid⟩ := mem_idsOf.mp hm
  have hinj := List.inj_on_of_nodup_map (h.imp fun {a b} (hab : a < b) => ne_of_lt hab)
  rwa [hinj hd he hid] at hp

theorem idsOf_filter (keep : Entry α → Bool) (issued : List ActionId) (p : Rule α → Bool)
    (q : ActionId → Bool) (hq : ∀ e ∈ L.live, keep e = q e.id) :
    ({ live := L.live.filter keep, issued } : Roster α).idsOf p = (L.idsOf p).filter q := by
  simp only [idsOf, List.filter_map, List.filter_filter]
  congr 1
  apply List.filter_congr
  intro e he
  simp [hq e he, Bool.and_comm]

theorem idsOf_append (live : List (Entry α)) (e : Entry α) (issued : List ActionId) (p : Rule α → Bool) :
    ({ live := live ++ [e], issued } : Roster α).idsOf p =
      ({ live, issued } : Roster α).idsOf p ++ if p e.rule = true then [e.id] else [] := by
  simp only [idsOf, List.filter_append, List.map_append]
  by_cases h : p e.rule = true <;> simp [h]

end Roster

theorem empty_kept : Kept ({} : Binder κ) {} where
  next := rfl
  ascending := List.Pairwise.nil
  spent := by simp
  issued := by simp
  named := by simp
  accepted := by simp
  actions := rfl
  keyed _ := rfl
  onAttach := rfl
  onSettle := rfl
  sound := Graph.empty_sound
  graph p := Graph.actionsAt_empty p

section

variable {b b' : Binder κ} {L : Roster (Action κ)} (h : Kept b L)

include h

theorem Kept.below : ∀ e ∈ L.live, e.id < L.fresh :=
  fun e he => h.spent _ (h.issued e he)

theorem Kept.keyedIds (key : String) : b.registry.keyedIds key = L.idsUnder key := by
  unfold Registry.keyedIds
  rw [h.keyed]
  split
  · rename_i he
    rw [he]
    rfl
  · rfl

/-- The ids that a rule supersedes are those of the entries it replaces. -/
theorem Kept.superseded (rule : Rule (Action κ)) :
    b.registry.superseded rule = L.idsOf fun r => rule.replaces r := by
  unfold Registry.superseded Rule.replaces
  cases hk : rule.key with
  | none => simp [Roster.idsOf]
  | some key =>
    cases rule.canOverride with
    | false => simp [Roster.idsOf]
    | true => simpa [Roster.idsUnder] using h.keyedIds key

theorem Kept.actions_filter {p : Rule (Action κ) → Bool} :
    b.registry.actions.filter (·.1 ∉ L.idsOf p) =
      (L.live.filter fun e => !p e.rule).map fun e => (e.id, e.rule.action) := by
  rw [h.actions, List.filter_map]
  congr 1
  apply List.filter_congr
  intro e he
  simp [Roster.mem_idsOf_id h.ascending he]

/-- The ids of a kind that are not among those of another. -/
theorem Kept.idsOf_filter {p : Rule (Action κ) → Bool} (q : Rule (Action κ) → Bool) (issued : List ActionId) :
    (L.idsOf q).filter (· ∉ L.idsOf p) =
      ({ live := L.live.filter fun e => !p e.rule, issued } : Roster (Action κ)).idsOf q := by
  symm
  apply Roster.idsOf_filter
  intro e he
  simp [Roster.mem_idsOf_id h.ascending he]

/-- **Registering a rule** keeps binder and roster in step, and the rule's id is
the one the roster gives it. -/
theorem add_kept {rule : Rule (Action κ)} {a : ActionId} (hnamed : rule.key ≠ some "")
    (ha : b.add rule = .ok (a, b')) : a = L.fresh ∧ Kept b' (L.add rule) := by
  unfold Binder.add Registry.add at ha
  cases ht : rule.triggers with
  | error e => simp [ht, bind, Except.bind] at ha
  | ok paths =>
  cases hg : (b.graph.eraseAll (b.registry.superseded rule)).insert paths b.registry.nextId with
  | error e => simp [ht, hg, bind, Except.bind] at ha
  | ok g =>
  simp only [ht, hg, bind, Except.bind, pure, Except.pure, Except.ok.injEq, Prod.mk.injEq] at ha
  obtain ⟨rfl, rfl⟩ := ha
  have hold := h.superseded rule
  set old := b.registry.superseded rule with hold'
  set kept : List (Entry (Action κ)) := L.live.filter fun e => !rule.replaces e.rule with hkept
  have hsub : ∀ e ∈ kept, e ∈ L.live := fun e he => (List.mem_filter.mp he).1
  have hfresh : ∀ e ∈ kept, e.id < L.fresh := fun e he => h.below e (hsub e he)
  have hadd : L.add rule = { live := kept ++ [⟨L.fresh, rule⟩], issued := L.fresh :: L.issued } := rfl
  have hids : ∀ q, (L.add rule).idsOf q =
      (L.idsOf q).filter (· ∉ old) ++ if q rule = true then [L.fresh] else [] := by
    intro q
    rw [hadd, Roster.idsOf_append, hold, h.idsOf_filter q (L.fresh :: L.issued)]
  have hnext : b.registry.nextId = L.fresh := h.next
  have hattach : ∀ phase,
      (if rule.runOnAttach ∧ rule.phase = phase then
        (L.idsOf (·.runsIn phase)).filter (· ∉ old) ++ [L.fresh]
      else (L.idsOf (·.runsIn phase)).filter (· ∉ old)) = (L.add rule).idsOf (·.runsIn phase) := by
    intro phase
    rw [hids]
    by_cases hr : rule.runOnAttach = true ∧ rule.phase = phase
    · simp [Rule.runsIn, hr.1, hr.2]
    · rw [if_neg hr, if_neg (by simpa [Rule.runsIn] using hr), List.append_nil]
  rw [Registry.foldl_forget, Registry.enterKey_eq]
  refine ⟨hnext, ?_⟩
  constructor
  case next =>
    show b.registry.nextId + 1 = L.fresh + 1
    rw [hnext]
  case ascending =>
    have := hids fun _ => true
    simp only [Roster.idsOf, List.filter_true, ↓reduceIte] at this
    unfold Roster.ids
    rw [this, List.pairwise_append]
    refine ⟨h.ascending.filter _, List.pairwise_singleton _ _, fun i hi j hj => ?_⟩
    obtain ⟨e, he, rfl⟩ := List.mem_map.mp (List.mem_of_mem_filter hi)
    rw [List.mem_singleton.mp hj]
    exact h.below e he
  case spent =>
    intro i hi
    rcases List.mem_cons.mp hi with rfl | hi
    · exact Nat.lt_succ_self _
    · exact Nat.lt_succ_of_lt (h.spent i hi)
  case issued =>
    intro e he
    rcases List.mem_append.mp he with he | he
    · exact List.mem_cons_of_mem _ (h.issued e (hsub e he))
    · rw [List.mem_singleton.mp he]
      exact List.mem_cons_self
  case named =>
    intro e he
    rcases List.mem_append.mp he with he | he
    · exact h.named e (hsub e he)
    · rw [List.mem_singleton.mp he]
      exact hnamed
  case accepted =>
    intro e he
    rcases List.mem_append.mp he with he | he
    · exact h.accepted e (hsub e he)
    · rw [List.mem_singleton.mp he]
      exact ⟨paths, ht⟩
  case actions =>
    show Table.set (b.registry.actions.filter fun e => decide (e.1 ∉ old)) b.registry.nextId rule.action = _
    rw [hold, h.actions_filter, hnext, hadd, Table.set_of_not_mem, List.map_append]
    · rfl
    · simp only [List.map_map, List.mem_map, not_exists, not_and]
      intro e he heq
      exact absurd heq (ne_of_lt (hfresh e he))
  case keyed =>
    intro key
    have hother : rule.key ≠ some key → (L.add rule).idsUnder key = L.idsUnder key := by
      intro hne
      have hkeep : ∀ i ∈ L.idsUnder key, decide (i ∉ old) = true := by
        intro i hi
        obtain ⟨e, he, hek, rfl⟩ := Roster.mem_idsOf.mp hi
        rw [hold, decide_eq_true_iff, Roster.mem_idsOf_id h.ascending he]
        simp only [decide_eq_true_eq] at hek
        simp [Rule.replaces, hek, Ne.symm hne]
      unfold Roster.idsUnder at hkeep ⊢
      rw [hids, List.filter_eq_self.mpr hkeep, if_neg (by simpa using hne), List.append_nil]
    cases hk : rule.key with
    | none => simp only [hother (by simp [hk]), h.keyed key, Registry.enterAction]
    | some name =>
      simp only [Registry.enterAction]
      rw [Table.get?_set]
      by_cases hn : name = key
      · subst hn
        have hnew : (L.add rule).idsUnder name = (L.idsUnder name).filter (· ∉ old) ++ [L.fresh] := by
          unfold Roster.idsUnder
          rw [hids, if_pos (by simp [hk])]
        rw [if_pos rfl, hnew, if_neg (by simp), hnext, ← h.keyedIds name]
        show some ((b.registry.keyedIds name).filter (fun i => !old.contains i) ++ [L.fresh]) = _
        simp
      · rw [if_neg hn, h.keyed key, hother (by simpa [hk] using hn)]
  case onAttach =>
    rw [← hattach, ← h.onAttach, ← hnext]
    rfl
  case onSettle =>
    rw [← hattach, ← h.onSettle, ← hnext]
    rfl
  case sound => exact Graph.insert_sound (Graph.eraseAll_sound h.sound old) hg
  case graph =>
    intro p
    have herased : ∀ q, (b.graph.eraseAll old).actionsAt q = (L.idsOf (·.watches q)).filter (· ∉ old) :=
      fun q => by rw [Graph.actionsAt_eraseAll h.sound, h.graph]
    have hless : ∀ q, ∀ i ∈ (b.graph.eraseAll old).actionsAt q, i < b.registry.nextId := by
      intro q i hi
      rw [herased] at hi
      obtain ⟨e, he, -, rfl⟩ := Roster.mem_idsOf.mp (List.mem_of_mem_filter hi)
      rw [hnext]
      exact h.below e he
    rw [Graph.actionsAt_insert hg hless, herased, hids, hnext]
    have hwatch : rule.watches p = paths.contains p := by simp [Rule.watches, ht]
    by_cases hp : p ∈ paths <;> simp [hwatch, hp]

/-- **Removing a key** keeps binder and roster in step, and it finds something
exactly if the roster has an entry with that key. -/
theorem remove_kept (key : String) :
    ((b.remove key).isSome = true ↔ ∃ e ∈ L.live, e.rule.key = some key) ∧
      Kept ((b.remove key).getD b) (L.remove key) := by
  have hmem : L.idsUnder key ≠ [] ↔ ∃ e ∈ L.live, e.rule.key = some key := by
    simp [Roster.idsUnder, Roster.idsOf]
  by_cases hempty : L.idsUnder key = []
  · have hnone : b.remove key = none := by
      simp [Binder.remove, Registry.remove, h.keyed key, hempty]
    have hall : ∀ e ∈ L.live, e.rule.key ≠ some key := by
      intro e he hk
      exact hmem.mpr ⟨e, he, hk⟩ hempty
    have hsame : L.remove key = L := by
      unfold Roster.remove
      rw [List.filter_eq_self.mpr (by simpa using hall)]
    rw [hnone, hsame]
    exact ⟨by simpa using hall, h⟩
  · set old := L.idsUnder key with hold
    have hsome : b.remove key = some
        { graph := b.graph.eraseAll old
          registry := old.foldl Registry.forget { b.registry with keyed := b.registry.keyed.erase key } } := by
      simp [Binder.remove, Registry.remove, h.keyed key, ← hold, hempty]
    have hids : ∀ q, (L.remove key).idsOf q = (L.idsOf q).filter (· ∉ old) := by
      intro q
      rw [hold]
      unfold Roster.idsUnder
      rw [h.idsOf_filter q L.issued]
      simp [Roster.remove]
    rw [hsome]
    refine ⟨by simpa using hmem.mp hempty, ?_⟩
    simp only [Option.getD_some, Registry.foldl_forget]
    have hsub : ∀ e ∈ (L.remove key).live, e ∈ L.live := fun e he => (List.mem_filter.mp he).1
    constructor
    case next => exact h.next
    case ascending => exact h.ascending.sublist (List.filter_sublist.map _)
    case spent => exact h.spent
    case issued => exact fun e he => h.issued e (hsub e he)
    case named => exact fun e he => h.named e (hsub e he)
    case accepted => exact fun e he => h.accepted e (hsub e he)
    case actions =>
      show (b.registry.actions.filter fun e => decide (e.1 ∉ old)) = _
      rw [hold]
      unfold Roster.idsUnder
      rw [h.actions_filter]
      simp [Roster.remove]
    case keyed =>
      intro other
      rw [Table.get?_erase]
      by_cases hk : key = other
      · subst hk
        simp [Roster.idsUnder, Roster.idsOf, Roster.remove]
      · have hsame : (L.remove key).idsUnder other = L.idsUnder other := by
          unfold Roster.idsUnder Roster.idsOf Roster.remove
          rw [List.filter_filter]
          congr 1
          apply List.filter_congr
          intro e _
          by_cases he : e.rule.key = some other <;> simp [he, Ne.symm hk]
        rw [if_neg hk, hsame]
        exact h.keyed other
    case onAttach => rw [hids, ← h.onAttach]
    case onSettle => rw [hids, ← h.onSettle]
    case sound => exact Graph.eraseAll_sound h.sound old
    case graph => exact fun p => by rw [Graph.actionsAt_eraseAll h.sound, h.graph, hids]

/-- A derived binder is in step with the same list, each action on the base. -/
theorem derive_kept : Kept b.derive (L.map .onBase) := by
  have hids : ∀ (p : Rule (Action κ) → Bool), (∀ r, p (r.map .onBase) = p r) →
      (L.map .onBase).idsOf p = L.idsOf p := by
    intro p hp
    simp only [Roster.idsOf, Roster.map, List.filter_map, List.map_map, Function.comp_def, hp]
  constructor
  case next => exact h.next
  case ascending =>
    have := h.ascending
    simpa [Roster.ids, Roster.map, Function.comp_def] using this
  case spent => exact h.spent
  case issued => simpa [Roster.map] using h.issued
  case named => simpa [Roster.map, Rule.map] using h.named
  case accepted => simpa [Roster.map, Rule.map] using h.accepted
  case actions =>
    simp [Binder.derive, Registry.map, Roster.map, h.actions, Function.comp_def, Rule.map]
  case keyed =>
    intro key
    unfold Roster.idsUnder
    rw [hids _ fun r => rfl]
    exact h.keyed key
  case onAttach => rw [hids _ fun r => rfl]; exact h.onAttach
  case onSettle => rw [hids _ fun r => rfl]; exact h.onSettle
  case sound => exact h.sound
  case graph => exact fun p => by rw [hids _ fun r => rfl]; exact h.graph p

end

/-! ### Histories -/

theorem withKey_key_ne {α : Type} (r : Rule α) (key : String) : (r.withKey key).key ≠ some "" := by
  unfold Rule.withKey
  by_cases hk : key = "" <;> simp [hk]

theorem PropertyBinding.rule_key_ne (p : PropertyBinding κ) : p.rule.key ≠ some "" :=
  withKey_key_ne { action := Action.assign p.source p.property } (p.key.getD p.target)

theorem CommandRules.key_ne (c : CommandRules κ) : ∀ r ∈ c.rules, r.key ≠ some "" := by
  have hkeyed : ∀ action, (c.keyed action).key ≠ some "" := fun action =>
    withKey_key_ne { action } (c.key.getD c.target)
  intro r hr
  simp only [CommandRules.rules, List.mem_cons, List.not_mem_nil, or_false] at hr
  rcases hr with rfl | rfl | rfl
  · exact hkeyed (.refresh c.binding.takesArgument c.property)
  · exact hkeyed (.create c.binding c.property)
  · exact hkeyed (.settle c.binding.takesArgument c.property)

/-- What can be done to a binder. -/
inductive Operation (κ : Type)
  /-- Any rule; the empty key is no key. -/
  | add (rule : Rule (Action κ)) (key : String)
  | bind (p : PropertyBinding κ)
  | command (c : CommandRules κ)
  | remove (key : String)
  /-- Goes on with a copy. -/
  | clone
  /-- Goes on with a copy for derived contexts. -/
  | derive

/-- The binder after an operation: as it was, if the operation fails. -/
def Binder.after (b : Binder κ) : Operation κ → Binder κ
  | .add rule key =>
    match b.add (rule.withKey key) with
    | .ok (_, b') => b'
    | .error _ => b
  | .bind p =>
    match b.add p.rule with
    | .ok (_, b') => b'
    | .error _ => b
  | .command c =>
    match b.addAll c.rules with
    | .ok b' => b'
    | .error _ => b
  | .remove key => (b.remove key).getD b
  | .clone => b
  | .derive => b.derive

/-- The roster after an operation on `b`, which says whether it succeeds. -/
def Roster.after (L : Roster (Action κ)) (b : Binder κ) : Operation κ → Roster (Action κ)
  | .add rule key => if (b.add (rule.withKey key)).isOk then L.add (rule.withKey key) else L
  | .bind p => if (b.add p.rule).isOk then L.add p.rule else L
  | .command c => if (b.addAll c.rules).isOk then L.addAll c.rules else L
  | .remove key => L.remove key
  | .clone => L
  | .derive => L.map .onBase

/-- The binder and the roster after a sequence of operations, from new ones on. -/
def history (ops : List (Operation κ)) : Binder κ × Roster (Action κ) :=
  ops.foldl (fun s op => (s.1.after op, s.2.after s.1 op)) ({}, {})

theorem addAll_kept {rules : List (Rule (Action κ))} {b b' : Binder κ} {L : Roster (Action κ)}
    (h : Kept b L) (hnamed : ∀ r ∈ rules, r.key ≠ some "") (hb : b.addAll rules = .ok b') :
    Kept b' (L.addAll rules) := by
  induction rules generalizing b L with
  | nil =>
    cases hb
    exact h
  | cons r rules ih =>
    unfold Binder.addAll at hb
    rw [List.foldlM_cons] at hb
    cases hr : b.add r with
    | error e => simp [hr, bind, Except.bind, Except.map] at hb
    | ok res =>
      obtain ⟨a, b₁⟩ := res
      simp only [hr, bind, Except.bind, Except.map] at hb
      exact ih (add_kept h (hnamed r List.mem_cons_self) hr).2
        (fun r' hr' => hnamed r' (List.mem_cons_of_mem _ hr')) hb

/-- **Every operation** keeps binder and roster in step. -/
theorem after_kept {b : Binder κ} {L : Roster (Action κ)} (h : Kept b L) (op : Operation κ) :
    Kept (b.after op) (L.after b op) := by
  cases op with
  | add rule key =>
    simp only [Binder.after, Roster.after]
    cases ha : b.add (rule.withKey key) with
    | error e => exact h
    | ok r => exact (add_kept h (withKey_key_ne rule key) ha).2
  | bind p =>
    simp only [Binder.after, Roster.after]
    cases ha : b.add p.rule with
    | error e => exact h
    | ok r => exact (add_kept h p.rule_key_ne ha).2
  | command c =>
    simp only [Binder.after, Roster.after]
    cases hc : b.addAll c.rules with
    | error e => exact h
    | ok b' => exact addAll_kept h c.key_ne hc
  | remove key => exact (remove_kept h key).2
  | clone => exact h
  | derive => exact derive_kept h

theorem history_kept (ops : List (Operation κ)) : Kept (history ops).1 (history ops).2 := by
  suffices key : ∀ s : Binder κ × Roster (Action κ), Kept s.1 s.2 →
      Kept (ops.foldl (fun s op => (s.1.after op, s.2.after s.1 op)) s).1
        (ops.foldl (fun s op => (s.1.after op, s.2.after s.1 op)) s).2 from key _ empty_kept
  induction ops with
  | nil => exact fun s h => h
  | cons op ops ih => exact fun s h => ih _ (after_kept h op)

theorem Kept.resolve {b : Binder κ} {L : Roster (Action κ)} (h : Kept b L) {e : Entry (Action κ)}
    (he : e ∈ L.live) : b.registry.resolve e.id = some (e.id, e.rule.action) := by
  have hnodup : (b.registry.actions.map (·.1)).Nodup := by
    rw [h.actions, List.map_map]
    exact h.ascending.imp fun {a b} (hab : a < b) => ne_of_lt hab
  have hmem : (e.id, e.rule.action) ∈ b.registry.actions := by
    rw [h.actions]
    exact List.mem_map_of_mem he
  simp [Registry.resolve, Registry.action?, Table.get?_of_mem hnodup hmem]

/-- Every id of a kind is known, and stands for the action it was registered with. -/
theorem Kept.filterMap_resolve {b : Binder κ} {L : Roster (Action κ)} (h : Kept b L)
    (p : Rule (Action κ) → Bool) :
    (L.idsOf p).filterMap b.registry.resolve =
      (L.live.filter fun e => p e.rule).map fun e => (e.id, e.rule.action) := by
  unfold Roster.idsOf
  rw [List.filterMap_map, ← List.filterMap_eq_map]
  apply List.filterMap_congr
  intro e he
  exact h.resolve (List.mem_of_mem_filter he)

/-- **The binder is the roster.** Whatever operations have been made, what can be
asked of the binder is what the roster says: the ids under a key, which ids there
are and how many, what runs on attach in either phase, which keys can be removed,
and what watches a path; and the next rule gets an id above all ids ever given. -/
theorem history_reads_roster (ops : List (Operation κ)) :
    let b := (history ops).1
    let L := (history ops).2
    L.ids.Pairwise (· < ·) ∧
    (∀ (rule : Rule (Action κ)) key a b', b.add (rule.withKey key) = .ok (a, b') →
      a = L.fresh ∧ ∀ i ∈ L.issued, i < a) ∧
    (∀ key, b.registry.keyedIds key = L.idsOf fun r => r.key = some key) ∧
    (∀ e ∈ L.live, e.rule.key ≠ some "") ∧
    (∀ a, b.registry.contains a = true ↔ a ∈ L.ids) ∧ b.registry.size = L.live.length ∧
    b.registry.onAttach = L.idsOf (·.runsIn .initial) ∧
    b.registry.onSettle = L.idsOf (·.runsIn .settle) ∧
    b.registry.attachRuns =
      (L.live.filter (·.rule.runsIn .initial) ++ L.live.filter (·.rule.runsIn .settle)).map
        (fun e => (e.id, e.rule.action)) ∧
    (∀ key, (b.remove key).isSome = true ↔ ∃ e ∈ L.live, e.rule.key = some key) ∧
    ∀ p, b.graph.actionsAt p = L.idsOf (·.watches p) := by
  intro b L
  have hk : Kept b L := history_kept ops
  refine ⟨hk.ascending, fun rule key a b' ha => ?_, hk.keyedIds, hk.named, fun a => ?_, ?_, hk.onAttach,
    hk.onSettle, ?_, fun key => (remove_kept hk key).1, hk.graph⟩
  · have hid := (add_kept hk (withKey_key_ne rule key) ha).1
    exact ⟨hid, hid ▸ hk.spent⟩
  · unfold Registry.contains Table.has
    rw [Table.isSome_get?, hk.actions, List.map_map]
    rfl
  · simp [Registry.size, hk.actions]
  · unfold Registry.attachRuns
    rw [hk.onAttach, hk.onSettle, hk.filterMap_resolve, hk.filterMap_resolve, List.map_append]

end LiveRules
