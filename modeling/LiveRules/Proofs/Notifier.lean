/-
# The two indexes of a notifier

A notifier finds its listeners by property and the property by subscription.
The two indexes agree: a subscription is for a property exactly if it is in
that property's list, and each list is in the order in which its subscriptions
were made, which is the order of their ids. Under that condition subscribing
puts one listener at the end of one list, and taking a subscription back takes
one listener out of one list.

A property that nobody listens to has no list. So the second index has as many
entries as the lists of the first have together.

Key definitions: `Notifier.Agrees`, `Notifier.Indexed`.
Key theorems: `Notifier.subscribe_agrees`, `Notifier.unsubscribe_agrees`,
`Notifier.listenersOf_unsubscribe`, `Notifier.Indexed.count_eq_sum`,
`Notifier.Agrees.unsubscribe_known`.
-/
import LiveRules.Notifier
import Mathlib.Algebra.BigOperators.Group.Finset.Basic
import Mathlib.Data.List.Nodup
import Mathlib.Tactic

namespace LiveRules
namespace Table

variable {κ ν : Type} [DecidableEq κ] {t : Table κ ν}

theorem nodup_set (h : (t.map (·.1)).Nodup) (k : κ) (v : ν) : ((t.set k v).map (·.1)).Nodup := by
  by_cases hk : k ∈ t.map (·.1)
  · have hsame : (t.set k v).map (·.1) = t.map (·.1) := by
      clear h
      induction t with
      | nil => cases hk
      | cons e t ih =>
        rw [set]
        split
        · rename_i heq
          simp [heq]
        · rename_i hne
          exact congrArg (e.1 :: ·) (ih ((List.mem_cons.mp hk).resolve_left (Ne.symm hne)))
    rwa [hsame]
  · rw [set_of_not_mem hk, List.map_append]
    exact h.append (List.nodup_singleton _) (List.disjoint_singleton.mpr hk)

theorem nodup_erase (h : (t.map (·.1)).Nodup) (k : κ) : ((t.erase k).map (·.1)).Nodup :=
  h.sublist (List.Sublist.map _ List.filter_sublist)

end Table

namespace Notifier

variable {α : Type} {n : Notifier α}

structure Agrees (n : Notifier α) : Prop where
  owner : ∀ id p, n.owners.get? id = some p ↔ ∃ l, (id, l) ∈ n.listenersOf p
  ascending : ∀ p, (n.listenersOf p).Pairwise fun a b => a.1 < b.1

theorem empty_agrees : ({} : Notifier α).Agrees where
  owner id p := by simp [Table.get?, listenersOf]
  ascending p := List.Pairwise.nil

@[simp] theorem listenersOf_subscribe (p q : String) (id : SubscriptionId) (l : α) :
    (n.subscribe p id l).listenersOf q =
      if p = q then n.listenersOf q ++ [(id, l)] else n.listenersOf q := by
  unfold subscribe listenersOf
  rw [Table.get?_set]
  by_cases h : p = q
  · subst h
    simp
  · simp [h]

theorem subscribe_agrees (h : n.Agrees) {id : SubscriptionId}
    (hnew : ∀ p, ∀ e ∈ n.listenersOf p, e.1 < id) (p : String) (l : α) : (n.subscribe p id l).Agrees where
  owner i q := by
    rw [listenersOf_subscribe]
    have howner : (n.subscribe p id l).owners.get? i = if id = i then some p else n.owners.get? i :=
      Table.get?_set ..
    rw [howner]
    by_cases hi : id = i
    · subst hi
      have hnone : ∀ l' q, (id, l') ∉ n.listenersOf q := fun l' q hm => lt_irrefl _ (hnew q _ hm)
      by_cases hq : p = q <;> simp [hq, hnone]
    · rw [if_neg hi, h.owner]
      by_cases hq : p = q <;> simp [hq, Ne.symm hi]
  ascending q := by
    rw [listenersOf_subscribe]
    split
    · refine List.pairwise_append.mpr ⟨h.ascending q, List.pairwise_singleton _ _, fun a ha b hb => ?_⟩
      rw [List.mem_singleton.mp hb]
      exact hnew q a ha
    · exact h.ascending q

/-- A subscription stands for one listener of one property. -/
theorem Agrees.single (h : n.Agrees) {id : SubscriptionId} {p q : String} {l k : α}
    (hl : (id, l) ∈ n.listenersOf p) (hk : (id, k) ∈ n.listenersOf q) : p = q ∧ l = k := by
  have hp := (h.owner id p).mpr ⟨l, hl⟩
  have hq := (h.owner id q).mpr ⟨k, hk⟩
  have hpq : p = q := Option.some.inj (hp.symm.trans hq)
  subst hpq
  refine ⟨rfl, ?_⟩
  have hnodup : ((n.listenersOf p).map (·.1)).Nodup := by
    rw [List.Nodup, List.pairwise_map]
    exact (h.ascending p).imp fun hab => ne_of_lt hab
  have := List.inj_on_of_nodup_map hnodup hl hk rfl
  exact (Prod.mk.inj this).2

theorem listener?_of_mem (h : n.Agrees) {id : SubscriptionId} {p : String} {l : α}
    (hl : (id, l) ∈ n.listenersOf p) : n.listener? id = some l := by
  have hnodup : ((n.listenersOf p).map (·.1)).Nodup := by
    rw [List.Nodup, List.pairwise_map]
    exact (h.ascending p).imp fun hab => ne_of_lt hab
  unfold listener?
  rw [(h.owner id p).mpr ⟨l, hl⟩, Option.bind_some]
  exact Table.get?_of_mem hnodup hl

theorem isLive_iff (h : n.Agrees) {id : SubscriptionId} :
    n.isLive id = true ↔ ∃ p l, (id, l) ∈ n.listenersOf p := by
  unfold isLive Table.has
  rw [Option.isSome_iff_exists]
  exact exists_congr fun p => h.owner id p

theorem owners_unsubscribe (id i : SubscriptionId) :
    (n.unsubscribe id).owners.get? i = if id = i then none else n.owners.get? i := by
  unfold unsubscribe
  cases hp : n.owners.get? id with
  | none =>
    by_cases hi : id = i
    · subst hi
      simp [hp]
    · simp [hi]
  | some p => exact Table.get?_erase ..

/-- Only the list of the property that the subscription is for is looked at. -/
theorem listenersOf_unsubscribe_of_owner (id : SubscriptionId) (q : String) : (n.unsubscribe id).listenersOf q =
    if n.owners.get? id = some q then (n.listenersOf q).filter (·.1 ≠ id) else n.listenersOf q := by
  unfold unsubscribe
  cases hp : n.owners.get? id with
  | none => simp
  | some p =>
    simp only
    set rest := (n.listenersOf p).filter fun e => e.1 ≠ id with hrest
    have hget : ∀ q, Table.get? (if rest.isEmpty then n.subscribers.erase p else n.subscribers.set p rest) q =
        if p = q then (if rest = [] then none else some rest) else n.subscribers.get? q := by
      intro q
      by_cases he : rest = []
      · simp only [he, List.isEmpty_nil, ↓reduceIte, Table.get?_erase]
      · simp only [he, List.isEmpty_iff, ↓reduceIte, Table.get?_set]
    by_cases hpq : p = q
    · subst hpq
      rw [listenersOf, hget, if_pos rfl, if_pos rfl, ← hrest]
      by_cases he : rest = [] <;> simp [he]
    · rw [if_neg fun heq => hpq (Option.some.inj heq), listenersOf, hget, if_neg hpq]
      rfl

theorem listenersOf_unsubscribe (h : n.Agrees) (id : SubscriptionId) (q : String) :
    (n.unsubscribe id).listenersOf q = (n.listenersOf q).filter (·.1 ≠ id) := by
  rw [listenersOf_unsubscribe_of_owner]
  split
  · rfl
  -- a list without the subscription is left as it is
  · rename_i hq
    refine (List.filter_eq_self.mpr fun e he => ?_).symm
    rw [decide_eq_true_eq]
    rintro rfl
    exact hq ((h.owner _ q).mpr ⟨e.2, he⟩)

theorem unsubscribe_agrees (h : n.Agrees) (id : SubscriptionId) : (n.unsubscribe id).Agrees where
  owner i q := by
    rw [listenersOf_unsubscribe h, owners_unsubscribe]
    by_cases hi : id = i
    · subst hi
      simp
    · rw [if_neg hi, h.owner]
      simp [Ne.symm hi]
  ascending q := by
    rw [listenersOf_unsubscribe h]
    exact (h.ascending q).filter _

/-- A known subscription is taken out of the list it is in, and nothing else is. -/
theorem Agrees.unsubscribe_known (h : n.Agrees) {id : SubscriptionId} {p : String} (hp : n.owners.get? id = some p) :
    ∃ before l after, n.listenersOf p = before ++ (id, l) :: after ∧
      (n.unsubscribe id).listenersOf p = before ++ after := by
  obtain ⟨l, hl⟩ := (h.owner id p).mp hp
  obtain ⟨before, after, hsplit⟩ := List.append_of_mem hl
  refine ⟨before, l, after, hsplit, ?_⟩
  have hascending := h.ascending p
  rw [hsplit, List.pairwise_append, List.pairwise_cons] at hascending
  obtain ⟨-, ⟨hafter, -⟩, hbefore⟩ := hascending
  have hkeep : ∀ es : List (SubscriptionId × α), (∀ e ∈ es, e.1 ≠ id) → es.filter (·.1 ≠ id) = es :=
    fun es hes => List.filter_eq_self.mpr fun e he => decide_eq_true (hes e he)
  rw [listenersOf_unsubscribe h, hsplit, List.filter_append, List.filter_cons_of_neg (by simp),
    hkeep before fun e he => (hbefore e he _ List.mem_cons_self).ne, hkeep after fun e he => (hafter e he).ne']

theorem unsubscribe_unknown {id : SubscriptionId} (h : n.owners.get? id = none) : n.unsubscribe id = n := by
  unfold unsubscribe
  rw [h]

/-! ### The lists and their number -/

/-- The indexes agree; no property has two lists or an empty one, and no subscription is
entered twice. -/
structure Indexed (n : Notifier α) : Prop extends Agrees n where
  lists : (n.subscribers.map (·.1)).Nodup
  nonempty : ∀ e ∈ n.subscribers, e.2 ≠ []
  entries : (n.owners.map (·.1)).Nodup

theorem empty_indexed : ({} : Notifier α).Indexed where
  toAgrees := empty_agrees
  lists := List.nodup_nil
  nonempty := by simp
  entries := List.nodup_nil

theorem subscribe_indexed (h : n.Indexed) {id : SubscriptionId} (hnew : ∀ p, ∀ e ∈ n.listenersOf p, e.1 < id)
    (p : String) (l : α) : (n.subscribe p id l).Indexed where
  toAgrees := subscribe_agrees h.toAgrees hnew p l
  lists := Table.nodup_set h.lists p _
  nonempty e he := by
    rcases Table.mem_set he with he | he
    · exact h.nonempty e he
    · rw [he]
      exact List.append_ne_nil_of_right_ne_nil _ (List.cons_ne_nil _ _)
  entries := Table.nodup_set h.entries id p

theorem unsubscribe_indexed (h : n.Indexed) (id : SubscriptionId) : (n.unsubscribe id).Indexed := by
  refine ⟨unsubscribe_agrees h.toAgrees id, ?_, ?_, ?_⟩ <;> unfold unsubscribe
  · split
    · exact h.lists
    · simp only
      split
      · exact Table.nodup_erase h.lists _
      · exact Table.nodup_set h.lists _ _
  · split
    · exact h.nonempty
    · simp only
      split
      · exact fun e he => h.nonempty e (List.mem_of_mem_filter he)
      · rename_i hrest
        intro e he
        rcases Table.mem_set he with he | he
        · exact h.nonempty e he
        · rw [he]
          exact fun hnil => hrest (List.isEmpty_iff.mpr hnil)
  · split
    · exact h.entries
    · exact Table.nodup_erase h.entries id

namespace Indexed

variable (h : n.Indexed)

include h

theorem listenersOf_eq {e : String × List (SubscriptionId × α)} (he : e ∈ n.subscribers) : n.listenersOf e.1 = e.2 := by
  unfold listenersOf
  rw [Table.get?_of_mem h.lists he, Option.getD_some]

/-- A property has a list exactly if somebody listens to it. -/
theorem mem_lists_iff {p : String} : p ∈ n.subscribers.map (·.1) ↔ n.countOf p ≠ 0 := by
  unfold countOf
  rw [ne_eq, List.length_eq_zero_iff]
  constructor
  · intro hp
    obtain ⟨e, he, rfl⟩ := List.mem_map.mp hp
    rw [h.listenersOf_eq he]
    exact h.nonempty e he
  · intro hne
    refine Table.isSome_get?.mp ?_
    unfold listenersOf at hne
    cases hget : n.subscribers.get? p with
    | none => simp [hget] at hne
    | some ls => rfl

/-- The ids in the second index are those in the lists of the first. -/
theorem ids_perm : (n.owners.map (·.1)).Perm (n.subscribers.flatMap fun e => e.2.map (·.1)) := by
  refine (List.perm_ext_iff_of_nodup h.entries ?_).mpr fun id => ?_
  · -- no id stands twice in a list, or in two lists
    refine List.nodup_flatMap.mpr ⟨fun e he => ?_, ?_⟩
    · rw [← h.listenersOf_eq he, List.Nodup, List.pairwise_map]
      exact (h.ascending e.1).imp fun hab => ne_of_lt hab
    · refine List.Pairwise.imp_of_mem ?_ (List.pairwise_map.mp h.lists)
      intro a b ha hb hab id hida hidb
      obtain ⟨⟨_, l⟩, hl, rfl⟩ := List.mem_map.mp hida
      obtain ⟨⟨_, k⟩, hk, heq⟩ := List.mem_map.mp hidb
      obtain rfl : _ = _ := heq
      rw [← h.listenersOf_eq ha] at hl
      rw [← h.listenersOf_eq hb] at hk
      exact hab (h.single hl hk).1
  · rw [← Table.isSome_get?, Option.isSome_iff_exists, List.mem_flatMap]
    constructor
    · rintro ⟨p, hp⟩
      obtain ⟨l, hl⟩ := (h.owner id p).mp hp
      have hlist : p ∈ n.subscribers.map (·.1) := by
        rw [h.mem_lists_iff, countOf, ne_eq, List.length_eq_zero_iff]
        exact List.ne_nil_of_mem hl
      obtain ⟨e, he, rfl⟩ := List.mem_map.mp hlist
      rw [h.listenersOf_eq he] at hl
      exact ⟨e, he, List.mem_map_of_mem hl⟩
    · rintro ⟨e, he, hid⟩
      obtain ⟨⟨_, l⟩, hl, rfl⟩ := List.mem_map.mp hid
      rw [← h.listenersOf_eq he] at hl
      exact ⟨e.1, (h.owner _ _).mpr ⟨l, hl⟩⟩

/-- **All subscriptions** are those of the properties that somebody listens to. -/
theorem count_eq_sum : n.count = ∑ p ∈ (n.subscribers.map (·.1)).toFinset, n.countOf p := by
  have hlength := h.ids_perm.length_eq
  rw [List.length_map, List.length_flatMap] at hlength
  rw [count, hlength, List.sum_toFinset _ h.lists, List.map_map]
  refine congrArg List.sum (List.map_congr_left fun e he => ?_)
  rw [List.length_map, Function.comp_apply, countOf, h.listenersOf_eq he]

/-- Taking a known subscription back leaves one less. -/
theorem count_unsubscribe {id : SubscriptionId} {p : String} (hp : n.owners.get? id = some p) :
    (n.unsubscribe id).count + 1 = n.count := by
  have hid : id ∈ n.owners.map (·.1) := Table.isSome_get?.mp (by rw [hp, Option.isSome_some])
  have howners : (n.unsubscribe id).owners = n.owners.erase id := by
    unfold unsubscribe
    rw [hp]
  have hkeys : (n.owners.erase id).map (·.1) = (n.owners.map (·.1)).erase id := by
    rw [h.entries.erase_eq_filter, Table.erase, List.filter_map]
    exact congrArg (List.map Prod.fst) (List.filter_congr fun e _ => Bool.eq_iff_iff.mpr (by simp))
  have hlength := congrArg List.length hkeys
  rw [List.length_map, List.length_erase_of_mem hid, List.length_map] at hlength
  have hpos : 0 < n.owners.length := List.length_pos_of_mem (List.mem_map.mp hid).choose_spec.1
  rw [count, count, howners, hlength]
  omega

end Indexed
end Notifier
end LiveRules
