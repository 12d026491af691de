/-
# The subscriptions of a tree

What the notifiers and the collections have on their lists for the watchers of a
tree, entry by entry, is what the watchers below its top hold, each once.

Key definitions: `World.subscriptionsOf`, `World.keptBy`.
Key theorems: `World.Shaped.nodes_nodup`, `World.Grown.subscriptionsOf_perm`,
`World.Grown.subscriptionCount_eq`.
-/
import LiveRules.Proofs.Machine.Delivering
import LiveRules.Proofs.Mirror.Expected

namespace LiveRules

variable {κ : Type}

/-- The properties a plan watches, in order. -/
def Plan.names {α : Type} : Plan α → List String
  | .nil => []
  | .value n _ next => n :: next.names
  | .object n _ _ next => n :: next.names
  | .collection n _ _ _ next => n :: next.names

theorem Plan.getElem?_names {α : Type} (plan : Plan α) (i : Nat) : plan.names[i]? = (plan.place? i).map (·.1) := by
  induction plan generalizing i with
  | nil => rfl
  | value n f next ih => cases i <;> simp [names, place?, ih]
  | object n f below next _ ih => cases i <;> simp [names, place?, ih]
  | collection n f m item next _ ih => cases i <;> simp [names, place?, ih]

theorem Plan.length_names {α : Type} (plan : Plan α) : plan.names.length = plan.length := by
  induction plan with
  | nil => rfl
  | value n f next ih => simp [names, length, ih]
  | object n f below next _ ih => simp [names, length, ih]
  | collection n f m item next _ ih => simp [names, length, ih]

namespace World

def subjects (g : World κ) : List Subject :=
  (List.range g.objects.size).map .object ++ (List.range g.commands.size).map .command

/-- The watcher belongs to the tree `t`. -/
def isPart (g : World κ) (t : TreeId) (w : WatcherId) : Bool :=
  g.watchers[w]?.map (·.site.tree) = some t

/-- The properties that `s` has listeners for. -/
def listenedTo (g : World κ) (s : Subject) : List String :=
  ((g.notifierOf s).subscribers.map (·.1)).dedup

/-- A listener that is a watcher of `t`, as a subscription to `p` that is entered at
`s`. -/
def asProperty (g : World κ) (t : TreeId) (s : Subject) (p : String) (e : SubscriptionId × Listener κ) :
    Option (SubscriptionId × Subscription) :=
  match e.2 with
  | .member w _ =>
    if g.isPart t w then some (e.1, .property s (g.watchers[w]?.bind Watcher.target) p) else none
  | .code _ _ => none

def asChanges (g : World κ) (t : TreeId) (c : CollectionId) (e : SubscriptionId × ChangeListener κ) :
    Option (SubscriptionId × Subscription) :=
  match e.2 with
  | .membership w => if g.isPart t w then some (e.1, .changes c) else none
  | .code _ => none

/-- All that notifiers and collections have on their lists for the watchers of `t`. -/
def subscriptionsOf (g : World κ) (t : TreeId) : List (SubscriptionId × Subscription) :=
  (g.subjects.flatMap fun s => (g.listenedTo s).flatMap fun p => (g.listeners s p).filterMap (g.asProperty t s p)) ++
    (List.range g.collections.size).flatMap fun c => (g.listenersOfCollection c).filterMap (g.asChanges t c)

/-- The same for the watchers with `q`, whatever their trees. -/
def asPropertyBy (g : World κ) (q : WatcherId → Bool) (s : Subject) (p : String) (e : SubscriptionId × Listener κ) :
    Option (SubscriptionId × Subscription) :=
  match e.2 with
  | .member w _ => if q w then some (e.1, .property s (g.watchers[w]?.bind Watcher.target) p) else none
  | .code _ _ => none

def asChangesBy (q : WatcherId → Bool) (c : CollectionId) (e : SubscriptionId × ChangeListener κ) :
    Option (SubscriptionId × Subscription) :=
  match e.2 with
  | .membership w => if q w then some (e.1, .changes c) else none
  | .code _ => none

def subscriptionsBy (g : World κ) (q : WatcherId → Bool) : List (SubscriptionId × Subscription) :=
  (g.subjects.flatMap fun s => (g.listenedTo s).flatMap fun p => (g.listeners s p).filterMap (g.asPropertyBy q s p)) ++
    (List.range g.collections.size).flatMap fun c => (g.listenersOfCollection c).filterMap (asChangesBy q c)

/-- All that notifiers and collections have on their lists for watchers. -/
def watcherSubscriptions (g : World κ) : List (SubscriptionId × Subscription) :=
  g.subscriptionsBy fun _ => true

/-- The subscriptions `ids` to the properties of a plan, made through `s`. -/
def madeThrough (g : World κ) (s : Subject) (plan : WatchPlan κ) (ids : List SubscriptionId) :
    List (SubscriptionId × Subscription) :=
  (ids.zip plan.names).map fun e => (e.1, g.subscriptionTo s e.2)

/-- The subscriptions a watcher holds itself. -/
def keptBy (g : World κ) (w : WatcherId) : List (SubscriptionId × Subscription) :=
  match g.watchers[w]? with
  | some (.object plan _ (some b)) => g.madeThrough b.subject plan b.subscriptions
  | some (.collection _ _ _ (some b)) => [(b.subscription, .changes b.collection)]
  | _ => []

/-! ### On the lists -/

theorem mem_subjects {g : World κ} {s : Subject} : s ∈ g.subjects ↔ g.hasValue s.value = true := by
  cases s <;> simp [subjects, Subject.value, hasValue, hasObject]

theorem mem_subjects_of_listener {g : World κ} {s : Subject} {p : String} {e : SubscriptionId × Listener κ}
    (he : e ∈ g.listeners s p) : s ∈ g.subjects := by
  rw [mem_subjects]
  by_contra hs
  have hnone : g.notifierOf s = {} := by
    cases s with
    | object o =>
      simp only [Subject.value, hasValue, hasObject, decide_eq_true_eq] at hs
      simp [notifierOf, hs]
    | command c =>
      simp only [Subject.value, hasValue, decide_eq_true_eq] at hs
      simp [notifierOf, hs]
  simp [listeners, hnone, Notifier.listenersOf, Table.get?] at he

theorem mem_listenedTo_of_listener {g : World κ} {s : Subject} {p : String} {e : SubscriptionId × Listener κ}
    (he : e ∈ g.listeners s p) : p ∈ g.listenedTo s := by
  unfold listenedTo
  rw [List.mem_dedup, ← Table.isSome_get?]
  unfold listeners Notifier.listenersOf at he
  cases hp : (g.notifierOf s).subscribers.get? p with
  | none => simp [hp] at he
  | some ls => rfl

theorem asPropertyBy_eq_some {g : World κ} {q : WatcherId → Bool} {s : Subject} {p : String}
    {l : SubscriptionId × Listener κ} {e : SubscriptionId × Subscription} : g.asPropertyBy q s p l = some e ↔
      ∃ w i, l.2 = .member w i ∧ q w = true ∧ e = (l.1, .property s (g.watchers[w]?.bind Watcher.target) p) := by
  obtain ⟨id, k⟩ := l
  cases k with
  | code k context => simp [asPropertyBy]
  | member w i =>
    simp only [asPropertyBy]
    constructor
    · intro h
      split at h
      · rename_i hpart
        exact ⟨w, i, rfl, hpart, (Option.some.inj h).symm⟩
      · cases h
    · rintro ⟨v, j, hl, hpart, rfl⟩
      cases hl
      exact if_pos hpart

theorem asChangesBy_eq_some {q : WatcherId → Bool} {c : CollectionId} {l : SubscriptionId × ChangeListener κ}
    {e : SubscriptionId × Subscription} : asChangesBy q c l = some e ↔
      ∃ w, l.2 = .membership w ∧ q w = true ∧ e = (l.1, .changes c) := by
  obtain ⟨id, k⟩ := l
  cases k with
  | code k => simp [asChangesBy]
  | membership w =>
    simp only [asChangesBy]
    constructor
    · intro h
      split at h
      · rename_i hpart
        exact ⟨w, rfl, hpart, (Option.some.inj h).symm⟩
      · cases h
    · rintro ⟨v, hl, hpart, rfl⟩
      cases hl
      exact if_pos hpart

theorem mem_subscriptionsBy {g : World κ} {q : WatcherId → Bool} {id : SubscriptionId} {e : Subscription} :
    (id, e) ∈ g.subscriptionsBy q ↔
      (∃ s p w i, (id, Listener.member w i) ∈ g.listeners s p ∧ q w = true ∧
        e = .property s (g.watchers[w]?.bind Watcher.target) p) ∨
      ∃ c w, (id, ChangeListener.membership w) ∈ g.listenersOfCollection c ∧ q w = true ∧ e = .changes c := by
  unfold subscriptionsBy
  simp only [List.mem_append, List.mem_flatMap, List.mem_filterMap, asPropertyBy_eq_some, asChangesBy_eq_some]
  refine or_congr ⟨?_, ?_⟩ ⟨?_, ?_⟩
  · rintro ⟨s, -, p, -, ⟨i, l⟩, hl, w, j, rfl, hpart, heq⟩
    cases heq
    exact ⟨s, p, w, j, hl, hpart, rfl⟩
  · rintro ⟨s, p, w, i, hl, hpart, rfl⟩
    exact ⟨s, mem_subjects_of_listener hl, p, mem_listenedTo_of_listener hl, _, hl, w, i, rfl, hpart, rfl⟩
  · rintro ⟨c, -, ⟨i, l⟩, hl, w, rfl, hpart, heq⟩
    cases heq
    exact ⟨c, w, hl, hpart, rfl⟩
  · rintro ⟨c, w, hl, hpart, rfl⟩
    refine ⟨c, ?_, _, hl, w, rfl, hpart, rfl⟩
    rw [List.mem_range]
    by_contra hc
    simp [listenersOfCollection, hc] at hl

theorem nodup_filterMap {α β : Type} {ls : List (SubscriptionId × α)} (h : (ls.map (·.1)).Nodup)
    {f : SubscriptionId × α → Option (SubscriptionId × β)} (hf : ∀ {e b}, f e = some b → b.1 = e.1) :
    (ls.filterMap f).Nodup := by
  rw [List.Nodup, List.pairwise_map] at h
  rw [List.Nodup, List.pairwise_filterMap]
  refine h.imp fun {a a'} hne b hb b' hb' heq => hne ?_
  rw [← hf hb, ← hf hb', heq]

/-- A subscription is on one list only, and once. -/
theorem Filed.subscriptionsBy_nodup {g : World κ} (hg : g.Filed) (q : WatcherId → Bool) :
    (g.subscriptionsBy q).Nodup := by
  have hlisteners : ∀ s p, ((g.listeners s p).map (·.1)).Nodup := by
    intro s p
    rw [List.Nodup, List.pairwise_map]
    exact ((hg.agrees s).ascending p).imp fun hab => ne_of_lt hab
  have hchanges : ∀ c, ((g.listenersOfCollection c).map (·.1)).Nodup := by
    intro c
    rw [List.Nodup, List.pairwise_map]
    exact (hg.changesAscending c).imp fun hab => ne_of_lt hab
  have hsubjects : g.subjects.Nodup := by
    refine List.nodup_append.mpr ⟨List.nodup_range.map fun _ _ h => Subject.object.inj h,
      List.nodup_range.map fun _ _ h => Subject.command.inj h, fun a ha b hb => ?_⟩
    obtain ⟨o, -, rfl⟩ := List.mem_map.mp ha
    obtain ⟨c, -, rfl⟩ := List.mem_map.mp hb
    simp
  unfold subscriptionsBy
  refine List.nodup_append.mpr ⟨?_, ?_, fun a ha b hb => ?_⟩
  · refine List.nodup_flatMap.mpr ⟨fun s _ => List.nodup_flatMap.mpr ⟨fun p _ => ?_, ?_⟩, ?_⟩
    · refine nodup_filterMap (hlisteners s p) fun {e b} heb => ?_
      obtain ⟨w, i, -, -, rfl⟩ := asPropertyBy_eq_some.mp heb
      rfl
    · refine (List.nodup_dedup _).imp fun {p q} hpq => ?_
      intro e he he'
      obtain ⟨l, -, hl⟩ := List.mem_filterMap.mp he
      obtain ⟨l', -, hl'⟩ := List.mem_filterMap.mp he'
      obtain ⟨w, i, -, -, rfl⟩ := asPropertyBy_eq_some.mp hl
      obtain ⟨w', i', -, -, heq⟩ := asPropertyBy_eq_some.mp hl'
      simp only [Prod.mk.injEq, Subscription.property.injEq] at heq
      exact hpq heq.2.2.2
    · refine hsubjects.imp fun {s s'} hss => ?_
      intro e he he'
      obtain ⟨p, -, he⟩ := List.mem_flatMap.mp he
      obtain ⟨p', -, he'⟩ := List.mem_flatMap.mp he'
      obtain ⟨l, -, hl⟩ := List.mem_filterMap.mp he
      obtain ⟨l', -, hl'⟩ := List.mem_filterMap.mp he'
      obtain ⟨w, i, -, -, rfl⟩ := asPropertyBy_eq_some.mp hl
      obtain ⟨w', i', -, -, heq⟩ := asPropertyBy_eq_some.mp hl'
      simp only [Prod.mk.injEq, Subscription.property.injEq] at heq
      exact hss heq.2.1
  · refine List.nodup_flatMap.mpr ⟨fun c _ => ?_, ?_⟩
    · refine nodup_filterMap (hchanges c) fun {e b} heb => ?_
      obtain ⟨w, -, -, rfl⟩ := asChangesBy_eq_some.mp heb
      rfl
    · refine List.nodup_range.imp fun {c d} hcd => ?_
      intro e he he'
      obtain ⟨l, -, hl⟩ := List.mem_filterMap.mp he
      obtain ⟨l', -, hl'⟩ := List.mem_filterMap.mp he'
      obtain ⟨w, -, -, rfl⟩ := asChangesBy_eq_some.mp hl
      obtain ⟨w', -, -, heq⟩ := asChangesBy_eq_some.mp hl'
      simp only [Prod.mk.injEq, Subscription.changes.injEq] at heq
      exact hcd heq.2
  · obtain ⟨s, -, ha⟩ := List.mem_flatMap.mp ha
    obtain ⟨p, -, ha⟩ := List.mem_flatMap.mp ha
    obtain ⟨l, -, hl⟩ := List.mem_filterMap.mp ha
    obtain ⟨c, -, hb⟩ := List.mem_flatMap.mp hb
    obtain ⟨l', -, hl'⟩ := List.mem_filterMap.mp hb
    obtain ⟨w, i, -, -, rfl⟩ := asPropertyBy_eq_some.mp hl
    obtain ⟨w', -, -, rfl⟩ := asChangesBy_eq_some.mp hl'
    simp

/-! ### Down a tree -/

/-- Going down a plan is going down from each watcher it posts. -/
theorem below_eq {g : World κ} {site : Attachment} :
    ∀ (plan : WatchPlan κ) (cs : List (Option WatcherId)),
      (∀ i c, cs[i]? = some c → g.Posted c (plan.post? site i)) →
      g.below plan cs = cs.reduceOption.flatMap g.nodes := by
  intro plan
  induction plan with
  | nil =>
    intro cs hcs
    rw [reduceOption_eq_nil_of_posted hcs]
    rfl
  | value n f next ih =>
    intro cs hcs
    cases cs with
    | nil => rfl
    | cons c cs =>
      obtain rfl : c = none := (hcs 0 c rfl).eq_none
      rw [below, List.reduceOption_cons_of_none]
      exact ih cs fun i d hd => hcs (i + 1) d hd
  | object n f inside next _ ih =>
    intro cs hcs
    cases cs with
    | nil => rfl
    | cons c cs =>
      obtain ⟨c, bound, rfl, hx⟩ := (hcs 0 c rfl).object
      rw [below, List.reduceOption_cons_of_some, List.flatMap_cons, ih cs fun i d hd => hcs (i + 1) d hd]
      simp [nodes, hx]
  | collection n f m item next _ ih =>
    intro cs hcs
    cases cs with
    | nil => rfl
    | cons c cs =>
      obtain ⟨c, bound, rfl, hx⟩ := (hcs 0 c rfl).collection
      rw [below, List.reduceOption_cons_of_some, List.flatMap_cons, ih cs fun i d hd => hcs (i + 1) d hd]
      simp [nodes, hx]

section

variable {g : World κ} (hg : g.Shaped)

include hg

/-- A watcher, and all below those right below it. -/
theorem Shaped.nodes_eq {w : Nat} {x : Watcher κ} (hw : g.watchers[w]? = some x) :
    g.nodes w = w :: (g.listed w).flatMap g.nodes := by
  cases x with
  | object plan site bound =>
    rw [listed_eq_reduceOption g hw, ← below_eq plan _ fun i c hc => hg.posted_children hw i c hc]
    simp only [nodes, hw]
  | collection item batch site bound =>
    rw [listed_eq_items g hw, List.flatMap_map]
    have hitems : ∀ e ∈ g.watchedItems w, e.2 :: g.below item (g.childrenOf e.2) = g.nodes e.2 := by
      intro e he
      obtain ⟨bound', hy⟩ := hg.watchedItem hw he
      simp only [nodes, hy]
    rw [← List.flatMap_congr hitems]
    simp only [nodes, hw]

/-- What hangs below two watchers hangs one below the other. -/
theorem Shaped.under_total {v w x : WatcherId} (hv : g.Under v x) (hw : g.Under w x) : g.Under v w ∨ g.Under w v := by
  induction hw with
  | refl => exact Or.inl hv
  | @tail y z hwy hz ih =>
    rcases hg.under_lister hz hv with heq | hvy
    · exact Or.inr (heq ▸ Relation.ReflTransGen.tail hwy hz)
    · exact ih hvy

/-- Nothing hangs below two watchers side by side. -/
theorem Shaped.siblings_apart {u v w x : WatcherId} (hv : v ∈ g.listed u) (hw : w ∈ g.listed u) (hne : v ≠ w)
    (hvx : g.Under v x) (hwx : g.Under w x) : False := by
  have hbelow : ∀ {v w}, v ∈ g.listed u → w ∈ g.listed u → v ≠ w → ¬ g.Under v w := by
    intro v w hv hw hne hvw
    rcases hg.under_lister hw hvw with heq | hvu
    · exact hne heq.symm
    · exact absurd (hg.older hv) (not_lt.mpr (hg.le_of_under hvu))
  rcases hg.under_total hvx hwx with hvw | hwv
  · exact hbelow hv hw hne hvw
  · exact hbelow hw hv (Ne.symm hne) hwv

theorem Shaped.mem_listed_lt {v w : WatcherId} (h : w ∈ g.listed v) : w < g.watchers.size := by
  obtain ⟨x, y, -, hy, -⟩ := hg.exists_listed h
  exact (Array.getElem?_eq_some_iff.mp hy).1

/-- **Down a tree** each watcher is met once. -/
theorem Shaped.nodes_nodup (w : Nat) : (g.nodes w).Nodup := by
  induction hn : g.watchers.size - w using Nat.strong_induction_on generalizing w with
  | _ n ih =>
    cases hx : g.watchers[w]? with
    | none => simp [nodes, hx]
    | some x =>
      have hwlt : w < g.watchers.size := (Array.getElem?_eq_some_iff.mp hx).1
      have hmem : ∀ {c v}, c ∈ g.listed w → v ∈ g.nodes c → g.Under c v :=
        fun hc hv => (hg.mem_nodes (hg.mem_listed_lt hc)).mp hv
      rw [hg.nodes_eq hx, List.nodup_cons]
      constructor
      · intro hw
        obtain ⟨c, hc, hwc⟩ := List.mem_flatMap.mp hw
        exact absurd (hg.older hc) (not_lt.mpr (hg.le_of_under (hmem hc hwc)))
      · refine List.nodup_flatMap.mpr ⟨fun c hc => ?_, ?_⟩
        · have hlt := hg.older hc
          exact ih (g.watchers.size - c) (hn ▸ Nat.sub_lt_sub_left hwlt hlt) c rfl
        · refine (hg.nodup w).imp_of_mem fun {c d} hc hd hne => ?_
          intro v hvc hvd
          exact hg.siblings_apart hc hd hne (hmem hc hvc) (hmem hd hvd)

end

/-! ### What watchers keep -/

theorem mem_madeThrough {g : World κ} {s : Subject} {plan : WatchPlan κ} {ids : List SubscriptionId}
    {id : SubscriptionId} {e : Subscription} : (id, e) ∈ g.madeThrough s plan ids ↔
      ∃ (i : Nat) (name : String) (batch : Batch κ), plan.place? i = some (name, batch) ∧ ids[i]? = some id ∧
        e = g.subscriptionTo s name := by
  unfold madeThrough
  rw [List.mem_map]
  constructor
  · rintro ⟨⟨j, n⟩, hmem, heq⟩
    obtain ⟨i, hi⟩ := List.mem_iff_getElem?.mp hmem
    obtain ⟨hid, hname⟩ := List.getElem?_zip_eq_some.mp hi
    rw [Plan.getElem?_names] at hname
    obtain ⟨⟨name, batch⟩, hentry, rfl⟩ := Option.map_eq_some_iff.mp hname
    cases heq
    exact ⟨i, name, batch, hentry, hid, rfl⟩
  · rintro ⟨i, name, batch, hentry, hid, rfl⟩
    refine ⟨(id, name), List.mem_iff_getElem?.mpr ⟨i, ?_⟩, rfl⟩
    rw [List.getElem?_zip_eq_some, Plan.getElem?_names, hentry]
    exact ⟨hid, rfl⟩

theorem length_madeThrough {g : World κ} {s : Subject} {plan : WatchPlan κ} {ids : List SubscriptionId}
    (h : ids.length ≤ plan.length) : (g.madeThrough s plan ids).length = ids.length := by
  simp [madeThrough, Plan.length_names, h]

section

variable {g : World κ} {tops : List WatcherId} (hg : g.Grown tops)

include hg

/-- All below a watcher belong to the same tree. -/
theorem Grown.site_of_under {v w : Nat} {x : Watcher κ} (hv : g.watchers[v]? = some x) (h : g.Under v w) :
    ∃ y, g.watchers[w]? = some y ∧ y.site = x.site := by
  induction h with
  | refl => exact ⟨x, hv, rfl⟩
  | tail _ hlast ih =>
    obtain ⟨y, hy, hsite⟩ := ih
    obtain ⟨y', z, hy', hz, hzy⟩ := hg.exists_listed hlast
    rw [hy] at hy'
    cases hy'
    exact ⟨z, hz, hzy.trans hsite⟩

/-- What is on the lists for a watcher is what it keeps. -/
theorem Grown.mem_keptBy {w : WatcherId} {id : SubscriptionId} {e : Subscription} : (id, e) ∈ g.keptBy w ↔
    (∃ s p i, (id, Listener.member w i) ∈ g.listeners s p ∧ e = .property s (g.watchers[w]?.bind Watcher.target) p) ∨
      ∃ c, (id, ChangeListener.membership w) ∈ g.listenersOfCollection c ∧ e = .changes c := by
  constructor
  · intro he
    unfold keptBy at he
    split at he
    · rename_i plan site b hw
      obtain ⟨i, name, batch, hentry, hid, rfl⟩ := mem_madeThrough.mp he
      refine Or.inl ⟨g.home b.subject name, name, i, ?_, ?_⟩
      · exact hg.member.mpr ⟨b.subject, batch, ⟨plan, site, b, hw, hid, hentry, rfl⟩, rfl⟩
      · rw [hw]
        rfl
    · rename_i item batch site b hw
      cases List.mem_singleton.mp he
      exact Or.inr ⟨b.collection, hg.membership.mpr ⟨item, batch, site, b, hw, rfl, rfl⟩, rfl⟩
    · cases he
  · rintro (⟨s, p, i, hm, rfl⟩ | ⟨c, hm, rfl⟩)
    · obtain ⟨t, batch, ⟨plan, site, b, hw, hid, hentry, rfl⟩, rfl⟩ := hg.member.mp hm
      simp only [keptBy, hw]
      exact mem_madeThrough.mpr ⟨i, p, batch, hentry, hid, rfl⟩
    · obtain ⟨item, batch, site, b, hw, rfl, rfl⟩ := hg.membership.mp hm
      simp only [keptBy, hw]
      exact List.mem_singleton_self _

omit hg in
theorem bound_of_mem_keptBy {w : WatcherId} {e : SubscriptionId × Subscription} (he : e ∈ g.keptBy w) :
    g.IsBound w := by
  unfold keptBy at he
  split at he
  · rename_i hw
    exact ⟨_, hw, rfl⟩
  · rename_i hw
    exact ⟨_, hw, rfl⟩
  · cases he

theorem Grown.keptBy_nodup (w : WatcherId) : (g.keptBy w).Nodup := by
  unfold keptBy
  split
  · rename_i plan site b hw
    refine List.Nodup.of_map (·.1) ?_
    have hids : b.subscriptions.Nodup := by
      refine List.nodup_iff_getElem?_ne_getElem?.mpr fun i j hij hj heq => ?_
      have hi := List.getElem?_eq_getElem hj
      obtain ⟨-, hij'⟩ := hg.same_place hw hw (heq.trans hi) hi
      exact absurd hij' (ne_of_lt hij)
    have hmap : (g.madeThrough b.subject plan b.subscriptions).map (·.1) = b.subscriptions := by
      rw [madeThrough, List.map_map]
      refine (List.map_congr_left (g := Prod.fst) fun _ _ => rfl).trans ?_
      exact List.map_fst_zip (by rw [Plan.length_names]; exact hg.fits hw)
    rwa [hmap]
  · exact List.nodup_singleton _
  · exact List.nodup_nil

/-- No two watchers keep the same subscription, and none keeps it twice. -/
theorem Grown.flatMap_keptBy_nodup {ws : List WatcherId} (hws : ws.Nodup) : (ws.flatMap g.keptBy).Nodup := by
  refine List.nodup_flatMap.mpr ⟨fun w _ => hg.keptBy_nodup w, hws.imp fun {v w} hne => ?_⟩
  rintro ⟨id, e⟩ hv hw
  rcases hg.mem_keptBy.mp hv with ⟨s, p, i, hm, rfl⟩ | ⟨c, hm, rfl⟩ <;>
    rcases hg.mem_keptBy.mp hw with ⟨s', p', j, hn, heq⟩ | ⟨d, hn, heq⟩
  · cases (hg.filed.entry hm hn).2.2
    exact hne rfl
  · cases heq
  · cases heq
  · cases (hg.filed.changesEntry hm hn).2
    exact hne rfl

/-- **What is on the lists for the watchers with `q`** is what those keep that are bound, each
subscription once. -/
theorem Grown.subscriptionsBy_perm {q : WatcherId → Bool} {ws : List WatcherId} (hws : ws.Nodup)
    (hq : ∀ w, g.IsBound w → (q w = true ↔ w ∈ ws)) : (g.subscriptionsBy q).Perm (ws.flatMap g.keptBy) := by
  refine (List.perm_ext_iff_of_nodup (hg.filed.subscriptionsBy_nodup q) (hg.flatMap_keptBy_nodup hws)).mpr
    fun ⟨id, e⟩ => ?_
  rw [mem_subscriptionsBy, List.mem_flatMap]
  constructor
  · rintro (⟨s, p, w, i, hm, hw, rfl⟩ | ⟨c, w, hm, hw, rfl⟩)
    · have hkept := hg.mem_keptBy.mpr (Or.inl ⟨s, p, i, hm, rfl⟩)
      exact ⟨w, (hq w (bound_of_mem_keptBy hkept)).mp hw, hkept⟩
    · have hkept := hg.mem_keptBy.mpr (Or.inr ⟨c, hm, rfl⟩)
      exact ⟨w, (hq w (bound_of_mem_keptBy hkept)).mp hw, hkept⟩
  · rintro ⟨w, hw, hkept⟩
    have hw := (hq w (bound_of_mem_keptBy hkept)).mpr hw
    rcases hg.mem_keptBy.mp hkept with ⟨s, p, i, hm, rfl⟩ | ⟨c, hm, rfl⟩
    · exact Or.inl ⟨s, p, w, i, hm, hw, rfl⟩
    · exact Or.inr ⟨c, w, hm, hw, rfl⟩

/-- The count that a tree answers with. -/
theorem Grown.subscriptionCount_eq (t : TreeId) :
    g.subscriptionCount t = ((g.treeRoot t).toList.flatMap fun r => (g.nodes r).flatMap g.keptBy).length := by
  have hown : ∀ w, g.ownSubscriptions w = (g.keptBy w).length := by
    intro w
    unfold ownSubscriptions keptBy
    cases hw : g.watchers[w]? with
    | none => rfl
    | some x =>
      cases x with
      | object plan site bound =>
        cases bound with
        | none => rfl
        | some b => exact (length_madeThrough (hg.fits hw)).symm
      | collection item membership site bound => cases bound <;> rfl
  have hfold : ∀ (ws : List WatcherId) (n : Nat),
      ws.foldl (fun n w => n + g.ownSubscriptions w) n = n + (ws.flatMap g.keptBy).length := by
    intro ws
    induction ws with
    | nil => exact fun n => rfl
    | cons w ws ih =>
      intro n
      rw [List.foldl_cons, ih, hown, List.flatMap_cons, List.length_append, Nat.add_assoc]
  unfold subscriptionCount
  rw [hfold, Nat.zero_add, List.flatMap_assoc]

end

section

variable {g : World κ} (hg : g.Grown g.roots) (hrooted : g.Rooted)

include hg hrooted

/-- A bound watcher hangs below the top of its tree. -/
theorem Grown.root_of_part {t : TreeId} {w : WatcherId} (hw : g.IsBound w) (hpart : g.isPart t w = true) :
    ∃ (tree : Tree κ) (r : Nat), g.trees[t]? = some tree ∧ tree.root = some r ∧ w ∈ g.nodes r := by
  obtain ⟨r, hr, hunder⟩ := hg.hangs hw
  obtain ⟨t', tree, htree, hroot⟩ := mem_roots.mp hr
  obtain ⟨context, b, hx, -⟩ := hrooted t' tree r htree hroot
  obtain ⟨y, hy, hsite⟩ := hg.site_of_under hx hunder
  have ht : t' = t := by
    unfold isPart at hpart
    rw [hy, decide_eq_true_eq, Option.map_some, hsite] at hpart
    exact Option.some.inj hpart
  exact ⟨tree, r, ht ▸ htree, hroot, (hg.mem_nodes (hrooted.lt_size hr)).mpr hunder⟩

theorem Grown.part_of_mem_nodes {t : Nat} {tree : Tree κ} {r w : Nat} (ht : g.trees[t]? = some tree)
    (hr : tree.root = some r) (hw : w ∈ g.nodes r) : g.isPart t w = true := by
  obtain ⟨context, b, hx, -⟩ := hrooted t tree r ht hr
  have hunder := (hg.mem_nodes (hrooted.lt_size (mem_roots.mpr ⟨t, tree, ht, hr⟩))).mp hw
  obtain ⟨y, hy, hsite⟩ := hg.site_of_under hx hunder
  unfold isPart
  rw [hy, Option.map_some, hsite]
  exact decide_eq_true rfl

/-- **The subscriptions of a tree** are those its watchers keep, each once. -/
theorem Grown.subscriptionsOf_perm {t : Nat} {tree : Tree κ} {r : Nat} (ht : g.trees[t]? = some tree)
    (hr : tree.root = some r) : (g.subscriptionsOf t).Perm ((g.nodes r).flatMap g.keptBy) := by
  refine hg.subscriptionsBy_perm (q := g.isPart t) (hg.nodes_nodup r) fun w hw =>
    ⟨fun hpart => ?_, hg.part_of_mem_nodes hrooted ht hr⟩
  obtain ⟨tree', r', ht', hr', hmem⟩ := hg.root_of_part hrooted hw hpart
  rw [ht] at ht'
  cases ht'
  rw [hr] at hr'
  cases hr'
  exact hmem

/-- The attached trees have no watcher in common. -/
theorem Grown.planted_nodup : g.planted.Nodup := by
  refine List.nodup_flatMap.mpr ⟨fun r _ => hg.nodes_nodup r, List.pairwise_filterMap.mpr ?_⟩
  refine List.pairwise_iff_getElem.mpr fun i j hi hj hij r hr r' hr' x hx hx' => ?_
  have htree : ∀ {k : Nat} (hk : k < g.trees.toList.length) {q : Nat}, (g.trees.toList[k]).root = some q →
      x ∈ g.nodes q → g.isPart k x = true := by
    intro k hk q hq hxq
    have hget : g.trees[k]? = some g.trees.toList[k] := by
      rw [← Array.getElem?_toList]
      exact List.getElem?_eq_getElem hk
    exact hg.part_of_mem_nodes hrooted hget hq hxq
  have hi' := htree hi hr hx
  have hj' := htree hj hr' hx'
  unfold isPart at hi' hj'
  rw [decide_eq_true_eq] at hi' hj'
  exact absurd (Option.some.inj (hi'.symm.trans hj')) (ne_of_lt hij)

/-- **All that watchers are subscribed to** is what the watchers of the attached trees
keep, each subscription once. -/
theorem Grown.watcherSubscriptions_perm : g.watcherSubscriptions.Perm (g.planted.flatMap g.keptBy) := by
  refine hg.subscriptionsBy_perm (q := fun _ => true) (hg.planted_nodup hrooted) fun w hw => ⟨fun _ => ?_, fun _ => rfl⟩
  obtain ⟨r, hr, hunder⟩ := hg.hangs hw
  exact List.mem_flatMap.mpr ⟨r, hr, (hg.mem_nodes (hrooted.lt_size hr)).mpr hunder⟩

/-- A tree that is not attached holds nothing. -/
theorem Grown.subscriptionsOf_nil {t : TreeId} (ht : g.isAttached t = false) : g.subscriptionsOf t = [] := by
  refine (hg.subscriptionsBy_perm (q := g.isPart t) List.nodup_nil fun w hw => ⟨fun hpart => ?_, by simp⟩).eq_nil
  obtain ⟨tree, r, htree, hr, -⟩ := hg.root_of_part hrooted hw hpart
  simp [isAttached, treeRoot, htree, hr] at ht

end

end World

end LiveRules
