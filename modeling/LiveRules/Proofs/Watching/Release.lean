/-
# Releasing watchers

Releasing a watcher leaves it dormant and takes its subscriptions off the
notifiers; nobody else's are touched. What is released with a watcher is all
that hangs below it, so that nothing bound is left hanging on a dormant one.

Key definitions: `World.Released`, `World.Under`.
Key theorems: `World.Shaped.mem_nodes`, `World.Grown.released`,
`World.Grown.unbind`.
-/
import LiveRules.Proofs.Watching.Books

namespace LiveRules
namespace World

variable {κ : Type}

/-- `g'` is `g` with the watchers `ws` dormant. -/
structure Released (g g' : World κ) (ws : List WatcherId) : Prop where
  outline : g'.outline = g.outline
  filed : g'.Filed
  trees : g'.trees = g.trees
  next : g'.nextSubscription = g.nextSubscription
  size : g'.watchers.size = g.watchers.size
  watchers : ∀ x : Nat, g'.watchers[x]? =
    if x ∈ ws then g.watchers[x]?.map Watcher.dormant else g.watchers[x]?
  listeners : ∀ s p, g'.listeners s p =
    (g.listeners s p).filter fun e => e.2.watcher?.all (decide <| · ∉ ws)
  changes : ∀ c, g'.listenersOfCollection c =
    (g.listenersOfCollection c).filter fun e => e.2.watcher?.all (decide <| · ∉ ws)

theorem Released.refl {g : World κ} (hg : g.Filed) : Released g g [] := by
  refine ⟨rfl, hg, rfl, rfl, rfl, by simp, fun s p => ?_, fun c => ?_⟩
  · exact (List.filter_eq_self.mpr fun e _ => by cases e.2.watcher? <;> simp).symm
  · exact (List.filter_eq_self.mpr fun e _ => by cases e.2.watcher? <;> simp).symm

theorem Released.trans {g₁ g₂ g₃ : World κ} {ws vs : List WatcherId} (h : Released g₁ g₂ ws)
    (h' : Released g₂ g₃ vs) : Released g₁ g₃ (ws ++ vs) := by
  refine ⟨h'.outline.trans h.outline, h'.filed, h'.trees.trans h.trees, h'.next.trans h.next,
    h'.size.trans h.size, fun x => ?_, fun s p => ?_, fun c => ?_⟩
  · rw [h'.watchers, h.watchers]
    by_cases h₁ : x ∈ ws <;> by_cases h₂ : x ∈ vs <;> simp [h₁, h₂, Function.comp_def]
  · rw [h'.listeners, h.listeners, List.filter_filter]
    refine List.filter_congr fun e _ => ?_
    cases e.2.watcher? <;> simp [Bool.and_comm]
  · rw [h'.changes, h.changes, List.filter_filter]
    refine List.filter_congr fun e _ => ?_
    cases e.2.watcher? <;> simp [Bool.and_comm]

/-- What is bound afterwards has not been released. -/
theorem Released.of_bound {g g' : World κ} {ws : List WatcherId} (h : Released g g' ws) {w : Nat} {x : Watcher κ}
    (hx : g'.watchers[w]? = some x) (ht : x.target.isSome = true) : w ∉ ws ∧ g.watchers[w]? = some x := by
  rw [h.watchers] at hx
  split at hx
  · obtain ⟨y, -, rfl⟩ := Option.map_eq_some_iff.mp hx
    simp at ht
  · rename_i hw
    exact ⟨hw, hx⟩

/-- The two accounts still agree when watchers have been released. -/
theorem Released.ledger {g g' : World κ} {ws : List WatcherId} (h : Released g g' ws) (hg : g.Ledger) :
    g'.Ledger := by
  have hkeep : ∀ {w : Nat}, w ∉ ws → g'.watchers[w]? = g.watchers[w]? := by
    intro w hw
    rw [h.watchers, if_neg hw]
  constructor
  case filed => exact h.filed
  case member =>
    intro s p id w i
    rw [h.listeners, List.mem_filter, hg.member]
    simp only [Listener.watcher?, Option.all_some, decide_eq_true_eq]
    constructor
    · rintro ⟨⟨t, batch, ⟨plan, site, b, hw, hid, hentry, rfl⟩, hhome⟩, hnot⟩
      refine ⟨b.subject, batch, ⟨plan, site, b, ?_, hid, hentry, rfl⟩, (home_congr h.outline ..).trans hhome⟩
      rw [hkeep hnot]
      exact hw
    · rintro ⟨t, batch, ⟨plan, site, b, hw, hid, hentry, rfl⟩, hhome⟩
      obtain ⟨hnot, hw'⟩ := h.of_bound hw rfl
      exact ⟨⟨b.subject, batch, ⟨plan, site, b, hw', hid, hentry, rfl⟩, (home_congr h.outline ..).symm.trans hhome⟩,
        hnot⟩
  case membership =>
    intro c id w
    rw [h.changes, List.mem_filter, hg.membership]
    simp only [ChangeListener.watcher?, Option.all_some, decide_eq_true_eq]
    constructor
    · rintro ⟨⟨item, batch, site, b, hw, hid, hc⟩, hnot⟩
      refine ⟨item, batch, site, b, ?_, hid, hc⟩
      rw [hkeep hnot]
      exact hw
    · rintro ⟨item, batch, site, b, hw, hid, hc⟩
      obtain ⟨hnot, hw'⟩ := h.of_bound hw rfl
      exact ⟨⟨item, batch, site, b, hw', hid, hc⟩, hnot⟩
  case fits =>
    intro w plan site b hw
    exact hg.fits (h.of_bound hw rfl).2
  case known =>
    intro w x v hw ht
    rw [hasValue_congr h.outline]
    exact hg.known (h.of_bound hw (by simp [ht])).2 ht

/-! ### One watcher -/

theorem unsubscribe_watchers (g : World κ) (s : Subject) (id : SubscriptionId) :
    (g.unsubscribe s id).watchers = g.watchers ∧ (g.unsubscribe s id).trees = g.trees := by
  unfold unsubscribe
  generalize g.reach s = ss
  induction ss generalizing g with
  | nil => exact ⟨rfl, rfl⟩
  | cons s ss ih =>
    rw [List.foldl_cons]
    obtain ⟨h₁, h₂⟩ := ih (g.modifyNotifier s (·.unsubscribe id))
    rw [h₁, h₂]
    cases s <;> exact ⟨rfl, rfl⟩

theorem foldl_unsubscribe_watchers (s : Subject) (ids : List SubscriptionId) (g : World κ) :
    (ids.foldl (fun g id => g.unsubscribe s id) g).watchers = g.watchers ∧
      (ids.foldl (fun g id => g.unsubscribe s id) g).trees = g.trees := by
  induction ids generalizing g with
  | nil => exact ⟨rfl, rfl⟩
  | cons id ids ih =>
    rw [List.foldl_cons, (ih _).1, (ih _).2]
    exact unsubscribe_watchers g s id

/-- Taking back several subscriptions made through one subject. -/
theorem foldl_unsubscribe (s : Subject) (ids : List SubscriptionId) :
    ∀ {g : World κ}, g.Filed → (∀ id ∈ ids, ∀ t q l, (id, l) ∈ g.listeners t q → t ∈ g.reach s) →
      let g' := ids.foldl (fun g id => g.unsubscribe s id) g
      g'.Filed ∧ g'.outline = g.outline ∧ g'.watchers = g.watchers ∧ g'.trees = g.trees ∧
        g'.nextSubscription = g.nextSubscription ∧
        (∀ c, g'.listenersOfCollection c = g.listenersOfCollection c) ∧
        ∀ t q, g'.listeners t q = (g.listeners t q).filter (·.1 ∉ ids) := by
  induction ids with
  | nil => exact fun hg _ => ⟨hg, rfl, rfl, rfl, rfl, fun _ => rfl, by simp⟩
  | cons id ids ih =>
    intro g hg hreach
    have hone := listeners_unsubscribe hg (hreach id List.mem_cons_self)
    have hreach' : ∀ k ∈ ids, ∀ t q l, (k, l) ∈ (g.unsubscribe s id).listeners t q →
        t ∈ (g.unsubscribe s id).reach s := by
      intro k hk t q l hl
      rw [hone] at hl
      rw [reach_congr (g.unsubscribe_outline s id)]
      exact hreach k (List.mem_cons_of_mem _ hk) t q l (List.mem_of_mem_filter hl)
    obtain ⟨h₁, h₂, h₃, h₄, h₅, h₆, h₇⟩ := ih (unsubscribe_filed hg s id) hreach'
    refine ⟨h₁, h₂.trans (g.unsubscribe_outline s id), h₃.trans (g.unsubscribe_watchers s id).1,
      h₄.trans (g.unsubscribe_watchers s id).2, h₅.trans (g.nextSubscription_unsubscribe s id),
      fun c => (h₆ c).trans (g.listenersOfCollection_unsubscribe s id c), fun t q => ?_⟩
    rw [List.foldl_cons, h₇, hone, List.filter_filter]
    refine List.filter_congr fun e _ => ?_
    by_cases he : e.1 = id <;> simp [he]

theorem getElem?_dormant {g : World κ} {w : Nat} {x : Watcher κ} (hx : g.watchers[w]? = some x) (y : Nat) :
    (g.watchers.setIfInBounds w x.dormant)[y]? =
      if y ∈ [w] then g.watchers[y]?.map Watcher.dormant else g.watchers[y]? := by
  rw [Array.getElem?_setIfInBounds]
  by_cases hy : w = y
  · subst hy
    rw [if_pos rfl, if_pos (Array.getElem?_eq_some_iff.mp hx).1, hx]
    simp
  · simp [hy, Ne.symm hy]

/-- Releasing a watcher makes it dormant. -/
theorem getElem?_release (g : World κ) (w y : Nat) :
    (g.release w).watchers[y]? = if y = w then g.watchers[y]?.map Watcher.dormant else g.watchers[y]? := by
  have hset : ∀ {x : Watcher κ}, g.watchers[w]? = some x → (g.watchers.setIfInBounds w x.dormant)[y]? =
      if y = w then g.watchers[y]?.map Watcher.dormant else g.watchers[y]? := by
    intro x hx
    simpa using getElem?_dormant hx y
  have hnothing : ∀ {o : Option (Watcher κ)}, g.watchers[w]? = o → o.map Watcher.dormant = o →
      g.watchers[y]? = if y = w then g.watchers[y]?.map Watcher.dormant else g.watchers[y]? := by
    intro o ho hsame
    split
    · rename_i hy
      rw [hy, ho, hsame]
    · rfl
  unfold release
  cases hx : g.watchers[w]? with
  | none => exact hnothing hx rfl
  | some x =>
    cases x with
    | object plan site bound =>
      cases bound with
      | none => exact hnothing hx rfl
      | some b =>
        simp only
        rw [(foldl_unsubscribe_watchers b.subject b.subscriptions _).1]
        exact hset hx
    | collection item membership site bound =>
      cases bound with
      | none => exact hnothing hx rfl
      | some b => exact hset hx

theorem getElem?_foldl_release (ws : List WatcherId) (y : Nat) (g : World κ) :
    (ws.foldl release g).watchers[y]? = if y ∈ ws then g.watchers[y]?.map Watcher.dormant else g.watchers[y]? := by
  induction ws generalizing g with
  | nil => rfl
  | cons w ws ih =>
    rw [List.foldl_cons, ih, getElem?_release]
    by_cases hw : y = w <;> by_cases hws : y ∈ ws <;> simp [hw, hws, Function.comp_def]

theorem release_trees (g : World κ) (w : WatcherId) : (g.release w).trees = g.trees := by
  unfold release
  split
  · rename_i plan site b _
    exact (foldl_unsubscribe_watchers b.subject b.subscriptions _).2
  · rfl
  · rfl

theorem unbind_trees (g : World κ) (w : WatcherId) : (g.unbind w).trees = g.trees := by
  unfold unbind
  induction g.nodes w generalizing g with
  | nil => rfl
  | cons v vs ih => rw [List.foldl_cons, ih, release_trees]

theorem foldl_unbind_trees (ws : List WatcherId) (g : World κ) : (ws.foldl unbind g).trees = g.trees := by
  induction ws generalizing g with
  | nil => rfl
  | cons w ws ih => rw [List.foldl_cons, ih, unbind_trees]

theorem all_not_mem_singleton (w : WatcherId) (o : Option WatcherId) :
    o.all (decide <| · ∉ [w]) = decide (o ≠ some w) := by
  cases o <;> simp

theorem Ledger.release {g : World κ} (hg : g.Ledger) (hs : g.Sane) (w : WatcherId) :
    Released g (g.release w) [w] := by
  have hfiled : ∀ ws, ({ g with watchers := ws } : World κ).Filed := fun ws =>
    ⟨hg.filed.agrees, hg.filed.older, hg.filed.single, hg.filed.changesOlder, hg.filed.changesAscending,
      hg.filed.changesSingle⟩
  unfold World.release
  split
  case h_1 plan site b hw =>
    set g₀ : World κ := { g with watchers := g.watchers.setIfInBounds w (.object plan site none) }
    have hreach : ∀ id ∈ b.subscriptions, ∀ t q l, (id, l) ∈ g₀.listeners t q → t ∈ g₀.reach b.subject := by
      intro id hid t q l hl
      rw [reach_congr (show g₀.outline = g.outline from rfl)]
      exact hg.reaches hs hw hid hl
    obtain ⟨h₁, h₂, h₃, h₄, h₅, h₆, h₇⟩ := foldl_unsubscribe b.subject b.subscriptions (hfiled _) hreach
    refine ⟨h₂, h₁, h₄, h₅, ?_, fun x => ?_, fun s p => ?_, fun c => ?_⟩
    · rw [h₃, Array.size_setIfInBounds]
    · rw [h₃]
      exact getElem?_dormant hw x
    · rw [h₇]
      refine List.filter_congr fun e he => ?_
      rw [all_not_mem_singleton, decide_eq_decide, not_iff_not]
      exact hg.mem_subscriptions hw he
    · rw [h₆]
      refine (List.filter_eq_self.mpr fun e he => ?_).symm
      rw [all_not_mem_singleton, decide_eq_true_eq]
      intro hew
      obtain ⟨item, batch, site', b', hw', -⟩ := hg.collection_of_listener he hew
      rw [hw] at hw'
      cases hw'
  case h_2 item batch site b hw =>
    set g₀ : World κ := { g with watchers := g.watchers.setIfInBounds w (.collection item batch site none) }
    refine ⟨g₀.unsubscribeChanges_outline b.collection b.subscription,
      unsubscribeChanges_filed (hfiled _) b.collection b.subscription, rfl, rfl, Array.size_setIfInBounds,
      fun x => getElem?_dormant hw x, fun s p => ?_, fun c => ?_⟩
    · rw [listeners_unsubscribeChanges]
      refine (List.filter_eq_self.mpr fun e he => ?_).symm
      rw [all_not_mem_singleton, decide_eq_true_eq]
      intro hew
      obtain ⟨plan, site', b', hw', -⟩ := hg.object_of_listener he hew
      rw [hw] at hw'
      cases hw'
    · rw [listenersOfCollection_unsubscribeChanges]
      have hfilter : (g.listenersOfCollection c).filter (fun e => e.2.watcher?.all (decide <| · ∉ [w])) =
          (g.listenersOfCollection c).filter (·.1 ≠ b.subscription) := by
        refine List.filter_congr fun e he => ?_
        rw [all_not_mem_singleton, decide_eq_decide, not_iff_not]
        exact (hg.eq_subscription hw he).symm
      rw [hfilter]
      split
      · rfl
      · rename_i hc
        refine (List.filter_eq_self.mpr fun e he => ?_).symm
        rw [decide_eq_true_eq]
        intro hid
        have hown : (e.1, .membership w) ∈ g.listenersOfCollection b.collection :=
          hg.membership.mpr ⟨item, batch, site, b, hw, hid.symm, rfl⟩
        exact hc (hg.filed.changesSingle hown he)
  case h_3 hobj hcoll =>
    -- the watcher is dormant already, or there is none
    have hdorm : ∀ x, g.watchers[w]? = some x → x.dormant = x ∧ x.target = none := by
      intro x hx
      cases x with
      | object plan site bound =>
        cases bound with
        | none => exact ⟨rfl, rfl⟩
        | some b => exact absurd hx (hobj plan site b)
      | collection item batch site bound =>
        cases bound with
        | none => exact ⟨rfl, rfl⟩
        | some b => exact absurd hx (hcoll item batch site b)
    refine ⟨rfl, hg.filed, rfl, rfl, rfl, fun x => ?_, fun s p => ?_, fun c => ?_⟩
    · split
      · rename_i hx
        obtain rfl := List.mem_singleton.mp hx
        cases hget : g.watchers[x]? with
        | none => rfl
        | some y => rw [Option.map_some, (hdorm y hget).1]
      · rfl
    · refine (List.filter_eq_self.mpr fun e he => ?_).symm
      rw [all_not_mem_singleton, decide_eq_true_eq]
      intro hew
      obtain ⟨plan, site, b, hw, -⟩ := hg.object_of_listener he hew
      exact hobj plan site b hw
    · refine (List.filter_eq_self.mpr fun e he => ?_).symm
      rw [all_not_mem_singleton, decide_eq_true_eq]
      intro hew
      obtain ⟨item, batch, site, b, hw, -⟩ := hg.collection_of_listener he hew
      exact hcoll item batch site b hw

/-! ### All below a watcher -/

/-- `w` hangs below `v`, or is `v`. -/
def Under (g : World κ) : WatcherId → WatcherId → Prop :=
  Relation.ReflTransGen fun v w => w ∈ g.listed v

theorem Under.head {g : World κ} {v w : WatcherId} :
    g.Under v w ↔ w = v ∨ ∃ c ∈ g.listed v, g.Under c w := by
  unfold Under
  rw [Relation.ReflTransGen.cases_head_iff]
  exact or_congr eq_comm Iff.rfl

theorem Under.mono {g g' : World κ} (h : ∀ {x y}, y ∈ g.listed x → y ∈ g'.listed x) {v w : WatcherId}
    (hu : g.Under v w) : g'.Under v w := by
  induction hu with
  | refl => exact .refl
  | tail _ hlast ih => exact ih.tail (h hlast)

/-- What hangs below a watcher is younger. -/
theorem Shaped.le_of_under {g : World κ} (hg : g.Shaped) {v w : WatcherId} (h : g.Under v w) : v ≤ w := by
  induction h with
  | refl => exact le_refl v
  | tail _ hlast ih => exact ih.trans (le_of_lt (hg.older hlast))

/-- What is listed below `w` is `w`, or what lists it hangs below `w`. -/
theorem Shaped.under_lister {g : World κ} (hg : g.Shaped) {w x y : WatcherId} (hy : y ∈ g.listed x)
    (h : g.Under w y) : y = w ∨ g.Under w x := by
  rcases Relation.ReflTransGen.cases_tail h with heq | ⟨z, hz, hyz⟩
  · exact Or.inl heq
  · exact Or.inr (hg.single hyz hy ▸ hz)

/-- A top hangs below nothing. -/
theorem Grown.eq_of_under_top {g : World κ} {tops : List WatcherId} (hg : g.Grown tops) {r v : WatcherId}
    (hr : r ∈ tops) (h : g.Under v r) : r = v := by
  rcases Relation.ReflTransGen.cases_tail h with heq | ⟨w, -, hlisted⟩
  · exact heq
  · exact absurd hlisted (hg.topmost hr)

/-- What is closed under listing contains all below what it contains. -/
theorem Under.mem_of_closed {g : World κ} {vs : List WatcherId} (hclosed : ∀ x ∈ vs, ∀ y ∈ g.listed x, y ∈ vs)
    {v w : WatcherId} (hv : v ∈ vs) (h : g.Under v w) : w ∈ vs := by
  induction h with
  | refl => exact hv
  | tail _ hlast ih => exact hclosed _ ih _ hlast

theorem listed_eq_reduceOption (g : World κ) {w : Nat} {plan site bound}
    (hw : g.watchers[w]? = some (.object plan site bound)) :
    g.listed w = (g.childrenOf w).reduceOption := by
  rw [listed_of_get hw]
  cases bound <;> simp [Watcher.listed, childrenOf, boundObject?, hw, List.reduceOption]

theorem listed_eq_items (g : World κ) {w : Nat} {item batch site bound}
    (hw : g.watchers[w]? = some (.collection item batch site bound)) :
    g.listed w = (g.watchedItems w).map (·.2) := by
  rw [listed_of_get hw]
  cases bound <;> simp [Watcher.listed, watchedItems, boundCollection?, hw]

section

variable {g : World κ} (hg : g.Shaped)

include hg

theorem Shaped.posted_children {w : Nat} {plan site bound}
    (hw : g.watchers[w]? = some (.object plan site bound)) (i : Nat) (c : Option WatcherId)
    (hc : (g.childrenOf w)[i]? = some c) : g.Posted c (plan.post? site i) := by
  cases bound with
  | none => simp [childrenOf, boundObject?, hw] at hc
  | some b =>
    refine hg.posts hw i c ?_
    simpa [childrenOf, boundObject?, hw] using hc

theorem Shaped.watchedItem {w : Nat} {item batch site bound}
    (hw : g.watchers[w]? = some (.collection item batch site bound)) {e : ObjectId × WatcherId}
    (he : e ∈ g.watchedItems w) : ∃ bound', g.watchers[e.2]? = some (.object item site bound') := by
  cases bound with
  | none => simp [watchedItems, boundCollection?, hw] at he
  | some b => exact hg.member hw (by simpa [watchedItems, boundCollection?, hw] using he)

/-- Going down a plan finds what hangs below. -/
theorem Shaped.mem_below {site : Attachment} (w : WatcherId) :
    ∀ (plan : WatchPlan κ) (cs : List (Option WatcherId)),
      (∀ i c, cs[i]? = some c → g.Posted c (plan.post? site i)) →
      (w ∈ g.below plan cs ↔ ∃ c ∈ cs.reduceOption, g.Under c w) := by
  intro plan
  induction plan with
  | nil =>
    intro cs hcs
    simp [below, reduceOption_eq_nil_of_posted hcs]
  | value n f next ih =>
    intro cs hcs
    cases cs with
    | nil => simp [below, List.reduceOption]
    | cons c cs =>
      obtain rfl : c = none := (hcs 0 c rfl).eq_none
      rw [below, List.reduceOption_cons_of_none]
      exact ih cs fun i d hd => hcs (i + 1) d hd
  | object n f inside next ihInside ih =>
    intro cs hcs
    cases cs with
    | nil => simp [below, List.reduceOption]
    | cons c cs =>
      have hnext := ih cs fun i d hd => hcs (i + 1) d hd
      obtain ⟨c, bound, rfl, hx⟩ := (hcs 0 c rfl).object
      have hinside := ihInside (g.childrenOf c) fun i d hd => hg.posted_children hx i d hd
      rw [← listed_eq_reduceOption g hx] at hinside
      rw [below, List.mem_append, hnext, List.reduceOption_cons_of_some]
      simp only [Option.toList_some, List.flatMap_cons, List.flatMap_nil, List.append_nil, List.mem_cons,
        hinside, exists_eq_or_imp]
      exact or_congr Under.head.symm Iff.rfl
  | collection n f m item next ihItem ih =>
    intro cs hcs
    cases cs with
    | nil => simp [below, List.reduceOption]
    | cons c cs =>
      have hnext := ih cs fun i d hd => hcs (i + 1) d hd
      obtain ⟨c, bound, rfl, hx⟩ := (hcs 0 c rfl).collection
      have hitem : ∀ e ∈ g.watchedItems c, (w ∈ e.2 :: g.below item (g.childrenOf e.2) ↔ g.Under e.2 w) := by
        intro e he
        obtain ⟨bound', hy⟩ := hg.watchedItem hx he
        have hbelow := ihItem (g.childrenOf e.2) fun i d hd => hg.posted_children hy i d hd
        rw [← listed_eq_reduceOption g hy] at hbelow
        rw [List.mem_cons, hbelow]
        exact Under.head.symm
      rw [below, List.mem_append, hnext, List.reduceOption_cons_of_some]
      simp only [Option.toList_some, List.flatMap_cons, List.flatMap_nil, List.append_nil, List.mem_cons,
        exists_eq_or_imp]
      refine or_congr ?_ Iff.rfl
      rw [Under.head, listed_eq_items g hx]
      refine or_congr Iff.rfl ?_
      simp only [List.mem_flatMap, List.mem_map, exists_exists_and_eq_and]
      exact exists_congr fun e => and_congr_right fun he => hitem e he

/-- **The nodes** of a watcher are those that hang below it. -/
theorem Shaped.mem_nodes {v w : WatcherId} (hv : v < g.watchers.size) : w ∈ g.nodes v ↔ g.Under v w := by
  have hget := Array.getElem?_eq_getElem hv
  unfold nodes
  cases hx : g.watchers[v] with
  | object plan site bound =>
    rw [hx] at hget
    have hbelow := hg.mem_below w plan (g.childrenOf v) fun i d hd => hg.posted_children hget i d hd
    rw [← listed_eq_reduceOption g hget] at hbelow
    rw [hget, List.mem_cons, hbelow]
    exact Under.head.symm
  | collection item batch site bound =>
    rw [hx] at hget
    -- a collection's watcher is like a child that is posted for it
    have hbelow := hg.mem_below w (.collection "" [] batch item .nil) [some v] (by
      intro i c hc
      cases i with
      | succ i => simp at hc
      | zero =>
        obtain rfl : some v = c := by simpa using hc
        exact ⟨_, hget, rfl⟩)
    simp only [below, Option.toList_some, List.flatMap_cons, List.flatMap_nil, List.append_nil,
      List.reduceOption_cons_of_some, List.reduceOption_nil, List.mem_singleton, exists_eq_left] at hbelow
    rw [hget]
    exact hbelow

end

/-! ### Unbinding -/

theorem Ledger.foldl_release (ws : List WatcherId) :
    ∀ {g : World κ}, g.Ledger → g.Sane → Released g (ws.foldl World.release g) ws := by
  induction ws with
  | nil => exact fun hg _ => Released.refl hg.filed
  | cons w ws ih =>
    intro g hg hs
    have hone := hg.release hs w
    exact hone.trans (ih (hone.ledger hg) (hs.congr hone.outline))

theorem Ledger.unbind {g : World κ} (hg : g.Ledger) (hs : g.Sane) (w : WatcherId) :
    Released g (g.unbind w) (g.nodes w) :=
  hg.foldl_release (g.nodes w) hs

/-- Nobody holds more than before. -/
theorem Released.ids {g g' : World κ} {ws : List WatcherId} (h : Released g g' ws) {w : WatcherId} {k : SubscriptionId}
    (hk : k ∈ g'.idsOf w) : k ∈ g.idsOf w := by
  unfold idsOf at hk ⊢
  rw [h.watchers] at hk
  by_cases hw : w ∈ ws
  · cases hx : g.watchers[w]? <;> simp [hw, hx] at hk
  · simpa [hw] using hk

/-- When all below is released too, what is left still hangs on the tops. -/
theorem Grown.released {g g' : World κ} {tops : List WatcherId} (hg : g.Grown tops) {ws : List WatcherId}
    (h : Released g g' ws) (hclosed : ∀ v ∈ ws, ∀ w ∈ g.listed v, w ∈ ws) : g'.Grown tops := by
  have hlisted : ∀ w, g'.listed w = if w ∈ ws then [] else g.listed w := by
    intro w
    unfold listed
    rw [h.watchers]
    by_cases hw : w ∈ ws
    · cases g.watchers[w]? <;> simp [hw]
    · simp [hw]
  have hmem : ∀ {v w}, w ∈ g'.listed v → w ∈ g.listed v := by
    intro v w hw
    rw [hlisted] at hw
    split at hw
    · cases hw
    · exact hw
  have hdorm : ∀ {w : Nat} {x}, g.watchers[w]? = some x →
      ∃ y, g'.watchers[w]? = some y ∧ y.dormant = x.dormant := by
    intro w x hx
    by_cases hw : w ∈ ws
    · exact ⟨x.dormant, by rw [h.watchers, if_pos hw, hx]; rfl, x.dormant_dormant⟩
    · exact ⟨x, by rw [h.watchers, if_neg hw, hx], rfl⟩
  refine { h.ledger hg.toLedger with
    paired := ?paired, posts := ?posts, items := ?items, nodup := ?nodup, single := ?single
    older := ?older, sane := ?sane, anchored := ?anchored, topmost := ?topmost
    children_younger := ?children_younger, items_younger := ?items_younger }
  case paired => exact fun hw => hg.paired (h.of_bound hw rfl).2
  case posts =>
    intro w plan site b hw i c hc
    exact (hg.posts (h.of_bound hw rfl).2 i c hc).mono hdorm
  case items =>
    intro w item batch site b hw e he
    obtain ⟨x, hx, hxd⟩ := hg.items (h.of_bound hw rfl).2 e he
    obtain ⟨y, hy, hyx⟩ := hdorm hx
    exact ⟨y, hy, hyx.trans hxd⟩
  case nodup =>
    intro w
    rw [hlisted]
    split
    · exact List.nodup_nil
    · exact hg.nodup w
  case single => exact fun hv hw => hg.single (hmem hv) (hmem hw)
  case older => exact fun hw => hg.older (hmem hw)
  case sane => exact hg.sane.congr h.outline
  case anchored =>
    rintro w ⟨x, hx, ht⟩
    obtain ⟨hw, hx⟩ := h.of_bound hx ht
    rcases hg.anchored ⟨x, hx, ht⟩ with htop | ⟨v, hv⟩
    · exact Or.inl htop
    · refine Or.inr ⟨v, ?_⟩
      rw [hlisted, if_neg fun hvws => hw (hclosed v hvws w hv)]
      exact hv
  case topmost => exact fun hw hv => hg.topmost hw (hmem hv)
  case children_younger =>
    intro w plan site b hw i c id hc hid k hk
    exact hg.children_younger (h.of_bound hw rfl).2 i c id hc hid k (h.ids hk)
  case items_younger =>
    intro w item batch site b hw e he k hk
    exact hg.items_younger (h.of_bound hw rfl).2 e he k (h.ids hk)

/-- **Unbinding** a watcher leaves all that hangs below it dormant, and the rest
as it was. -/
theorem Grown.unbind {g : World κ} {tops : List WatcherId} (hg : g.Grown tops) {w : WatcherId}
    (hw : w < g.watchers.size) : (g.unbind w).Grown tops ∧ Released g (g.unbind w) (g.nodes w) := by
  have hrel := hg.toLedger.unbind hg.sane w
  refine ⟨hg.released hrel fun v hv c hc => ?_, hrel⟩
  rw [hg.mem_nodes hw] at hv ⊢
  exact hv.tail hc

/-- The tops may be taken anew, as long as all that is bound hangs on them. -/
theorem Grown.retop {g : World κ} {tops tops' : List WatcherId} (hg : g.Grown tops)
    (hkeep : ∀ w ∈ tops, g.IsBound w → w ∈ tops') (hnew : ∀ w ∈ tops', ∀ v, w ∉ g.listed v) :
    g.Grown tops' := by
  refine { hg with anchored := ?anchored, topmost := ?topmost }
  case anchored =>
    intro w hw
    rcases hg.anchored hw with htop | hlisted
    · exact Or.inl (hkeep w htop hw)
    · exact Or.inr hlisted
  case topmost => exact fun hw hv => hnew _ hw _ hv

end World
end LiveRules
