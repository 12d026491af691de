/-
# Growing watchers

A watcher that binds subscribes to one property after the other and has a
watcher made below it for each value its plan looks into. Each of these moves
changes the books of one watcher, and none of them upsets a `Grown` world, even
while watchers are bound to some of their properties only.

Key definitions: `World.Rebooked`, `World.subscribeMember`,
`World.openCollection`, `World.enlist`.
Key theorems: `World.Grown.rebooked`, `World.Grown.subscribeMember`,
`World.Grown.openObject`, `World.Grown.openCollection`, `World.Grown.rebookItems`.
-/
import LiveRules.Proofs.Watching.Release

namespace LiveRules

/-- One more subscription, with a watcher below it if the plan asks for one. -/
def BoundObject.join (b : BoundObject) (id : SubscriptionId) (child : Option WatcherId) : BoundObject :=
  { b with subscriptions := b.subscriptions ++ [id], children := b.children ++ [child] }

namespace World

variable {κ : Type}

/-- `g'` is `g` with the books of `w` turned from `x` to `y`, which hang on `tops`
and `tops'`. What `y` says is sound by itself. -/
structure Rebooked (g g' : World κ) (tops tops' : List WatcherId) (w : WatcherId) (x y : Watcher κ) : Prop where
  outline : g'.outline = g.outline
  filed : g'.Filed
  get : g.watchers[w]? = some x
  watchers : ∀ v : Nat, g'.watchers[v]? = if v = w then some y else g.watchers[v]?
  same : y.dormant = x.dormant
  others : ∀ {s p} {id : SubscriptionId} {v i : Nat}, v ≠ w →
    ((id, Listener.member v i) ∈ g'.listeners s p ↔ (id, Listener.member v i) ∈ g.listeners s p)
  changesOthers : ∀ {c} {id : SubscriptionId} {v : Nat}, v ≠ w →
    ((id, ChangeListener.membership v) ∈ g'.listenersOfCollection c ↔
      (id, ChangeListener.membership v) ∈ g.listenersOfCollection c)
  member : ∀ {s p} {id : SubscriptionId} {i : Nat}, (id, Listener.member w i) ∈ g'.listeners s p ↔
    ∃ plan site b batch, y = .object plan site (some b) ∧ b.subscriptions[i]? = some id ∧
      plan.place? i = some (p, batch) ∧ g.home b.subject p = s
  membership : ∀ {c} {id : SubscriptionId}, (id, ChangeListener.membership w) ∈ g'.listenersOfCollection c ↔
    ∃ item batch site b, y = .collection item batch site (some b) ∧ b.subscription = id ∧ b.collection = c
  object : ∀ {plan site b}, y = .object plan site (some b) →
    b.subscriptions.length ≤ plan.length ∧ b.children.length = b.subscriptions.length ∧
      ∀ i c, b.children[i]? = some c → g.Posted c (plan.post? site i)
  collection : ∀ {item batch site b}, y = .collection item batch site (some b) →
    ∀ e ∈ b.items, ∃ z, g.watchers[e.2]? = some z ∧ z.dormant = .object item site none
  known : ∀ {v}, y.target = some v → g.hasValue v = true
  nodup : y.listed.Nodup
  listed : ∀ c ∈ y.listed, c ∈ x.listed ∨ w < c ∧ c ∉ tops' ∧ ∀ v, c ∉ g.listed v
  unlisted : ∀ c ∈ x.listed, c ∈ y.listed ∨ c ∈ tops'
  anchored : x.target.isSome = true ∨ w ∈ tops' ∨ ∃ v, w ∈ g.listed v
  keeps : ∀ c ∈ tops, c ∈ tops' ∨ c ∈ y.listed
  topmost : ∀ c ∈ tops', c ∈ tops ∨ c ∈ x.listed ∧ c ∉ y.listed
  fresh : ∀ k ∈ y.ids, k ∈ x.ids ∨ g.nextSubscription ≤ k
  children_younger : ∀ {plan site b}, y = .object plan site (some b) →
    ∀ (i c : Nat) id, b.children[i]? = some (some c) → b.subscriptions[i]? = some id →
      ∀ k ∈ g.idsOf c, id < k
  items_younger : ∀ {item batch site b}, y = .collection item batch site (some b) →
    ∀ e ∈ b.items, ∀ k ∈ g.idsOf e.2, b.subscription < k

/-- Ids that a watcher lists have been given out. -/
theorem Ledger.ids_lt {g : World κ} (hg : g.Ledger) {w : WatcherId} {k : SubscriptionId} (hk : k ∈ g.idsOf w) :
    k < g.nextSubscription := by
  cases hx : g.watchers[w]? with
  | none => simp [idsOf, hx] at hk
  | some x =>
    rw [idsOf_of_get hx] at hk
    cases x with
    | object plan site bound =>
      cases bound with
      | none => simp [Watcher.ids] at hk
      | some b =>
        obtain ⟨i, hi⟩ := List.getElem?_of_mem hk
        obtain ⟨p, batch, -, hm⟩ := hg.exists_entry hx hi
        exact hg.filed.older _ _ _ hm
    | collection item batch site bound =>
      cases bound with
      | none => simp [Watcher.ids] at hk
      | some b =>
        obtain rfl : k = b.subscription := by simpa [Watcher.ids] using hk
        exact hg.filed.changesOlder b.collection _ (hg.membership.mpr ⟨item, batch, site, b, hx, rfl, rfl⟩)

section

variable {g g' : World κ} {tops tops' : List WatcherId} {w : WatcherId} {x y : Watcher κ}
  (h : Rebooked g g' tops tops' w x y)

include h

theorem Rebooked.self : g'.watchers[w]? = some y := by
  rw [h.watchers, if_pos rfl]

theorem Rebooked.eq_of_get {z : Watcher κ} (hz : g'.watchers[w]? = some z) : z = y :=
  Option.some.inj (hz.symm.trans h.self)

theorem Rebooked.other {v : Nat} (hv : v ≠ w) : g'.watchers[v]? = g.watchers[v]? := by
  rw [h.watchers, if_neg hv]

theorem Rebooked.listed_eq (v : WatcherId) : g'.listed v = if v = w then y.listed else g.listed v := by
  unfold World.listed
  rw [h.watchers]
  split <;> rfl

theorem Rebooked.listed_before : g.listed w = x.listed :=
  listed_of_get h.get

theorem Rebooked.exists_dormant {v : Nat} {z : Watcher κ} (hz : g.watchers[v]? = some z) :
    ∃ z', g'.watchers[v]? = some z' ∧ z'.dormant = z.dormant := by
  by_cases hv : v = w
  · subst hv
    rw [h.get] at hz
    obtain rfl := Option.some.inj hz
    exact ⟨y, h.self, h.same⟩
  · exact ⟨z, by rw [h.other hv, hz], rfl⟩

theorem Rebooked.posted {c : Option WatcherId} {post} (hc : g.Posted c post) : g'.Posted c post :=
  hc.mono h.exists_dormant

/-- What is listed under somebody else's subscription may hold new ones, but no older ones. -/
theorem Rebooked.idsOf_younger (hg : g.Ledger) {v c : WatcherId} {k id : SubscriptionId} (hid : id ∈ g.idsOf v)
    (hk : ∀ k ∈ g.idsOf c, id < k) (hk' : k ∈ g'.idsOf c) : id < k := by
  by_cases hcw : c = w
  · subst hcw
    rw [idsOf_of_get h.self] at hk'
    rcases h.fresh k hk' with hk' | hk'
    · exact hk k (by rwa [idsOf_of_get h.get])
    · exact lt_of_lt_of_le (hg.ids_lt hid) hk'
  · exact hk k (by rwa [idsOf, h.other hcw] at hk')

/-- What the watcher lists, nobody else has listed. -/
theorem Rebooked.not_mem_listed (hg : g.Shaped) {v c : WatcherId} (hv : v ≠ w) (hc : c ∈ y.listed) :
    c ∉ g.listed v := by
  intro hcv
  rcases h.listed c hc with hcx | ⟨-, -, hnot⟩
  · exact hv (hg.single hcv (h.listed_before ▸ hcx))
  · exact hnot v hcv

theorem Rebooked.lt_of_mem_listed (hg : g.Shaped) {c : WatcherId} (hc : c ∈ y.listed) : w < c := by
  rcases h.listed c hc with hcx | ⟨hlt, -, -⟩
  · exact hg.older (h.listed_before ▸ hcx)
  · exact hlt

theorem Rebooked.ledger (hg : g.Ledger) : g'.Ledger := by
  constructor
  case filed => exact h.filed
  case member =>
    intro s p id v i
    by_cases hv : v = w
    · subst hv
      rw [h.member]
      constructor
      · rintro ⟨plan, site, b, batch, rfl, hid, hentry, hhome⟩
        exact ⟨b.subject, batch, ⟨plan, site, b, h.self, hid, hentry, rfl⟩, (home_congr h.outline ..).trans hhome⟩
      · rintro ⟨t, batch, ⟨plan, site, b, hw, hid, hentry, rfl⟩, hhome⟩
        exact ⟨plan, site, b, batch, (h.eq_of_get hw).symm, hid, hentry, (home_congr h.outline ..).symm.trans hhome⟩
    · rw [h.others hv, hg.member]
      refine exists_congr fun t => exists_congr fun batch => and_congr ?_ ?_
      · unfold Subscribed
        rw [h.other hv]
      · rw [home_congr h.outline]
  case membership =>
    intro c id v
    by_cases hv : v = w
    · subst hv
      rw [h.membership]
      constructor
      · rintro ⟨item, batch, site, b, rfl, hid, hc⟩
        exact ⟨item, batch, site, b, h.self, hid, hc⟩
      · rintro ⟨item, batch, site, b, hw, hid, hc⟩
        exact ⟨item, batch, site, b, (h.eq_of_get hw).symm, hid, hc⟩
    · rw [h.changesOthers hv, hg.membership, h.other hv]
  case fits =>
    intro v plan site b hv
    by_cases hvw : v = w
    · subst hvw
      exact (h.object (h.eq_of_get hv).symm).1
    · exact hg.fits ((h.other hvw).symm.trans hv)
  case known =>
    intro v z t hz ht
    rw [hasValue_congr h.outline]
    by_cases hvw : v = w
    · subst hvw
      exact h.known (h.eq_of_get hz ▸ ht)
    · exact hg.known ((h.other hvw).symm.trans hz) ht

theorem Rebooked.shaped (hg : g.Shaped) : g'.Shaped := by
  constructor
  case paired =>
    intro v plan site b hv
    by_cases hvw : v = w
    · subst hvw
      exact (h.object (h.eq_of_get hv).symm).2.1
    · exact hg.paired ((h.other hvw).symm.trans hv)
  case posts =>
    intro v plan site b hv i c hc
    by_cases hvw : v = w
    · subst hvw
      exact h.posted ((h.object (h.eq_of_get hv).symm).2.2 i c hc)
    · exact h.posted (hg.posts ((h.other hvw).symm.trans hv) i c hc)
  case items =>
    intro v item batch site b hv e he
    have hitem : ∃ z, g.watchers[e.2]? = some z ∧ z.dormant = .object item site none := by
      by_cases hvw : v = w
      · subst hvw
        exact h.collection (h.eq_of_get hv).symm e he
      · exact hg.items ((h.other hvw).symm.trans hv) e he
    obtain ⟨z, hz, hzd⟩ := hitem
    obtain ⟨z', hz', hd⟩ := h.exists_dormant hz
    exact ⟨z', hz', hd.trans hzd⟩
  case nodup =>
    intro v
    rw [h.listed_eq]
    split
    · exact h.nodup
    · exact hg.nodup v
  case single =>
    intro u v c hu hv
    rw [h.listed_eq] at hu hv
    split at hu <;> split at hv
    · rename_i h₁ h₂
      rw [h₁, h₂]
    · rename_i h₂
      exact absurd hv (h.not_mem_listed hg h₂ hu)
    · rename_i h₁ h₂
      exact absurd hu (h.not_mem_listed hg h₁ hv)
    · exact hg.single hu hv
  case older =>
    intro v c hc
    rw [h.listed_eq] at hc
    split at hc
    · rename_i hv
      subst hv
      exact h.lt_of_mem_listed hg hc
    · exact hg.older hc

/-- Every watcher that hangs somewhere still does. -/
theorem Rebooked.hangs {v : WatcherId} (hv : v ∈ tops ∨ ∃ u, v ∈ g.listed u) : v ∈ tops' ∨ ∃ u, v ∈ g'.listed u := by
  rcases hv with htop | ⟨u, hu⟩
  · exact (h.keeps v htop).imp id fun hv => ⟨w, by rwa [h.listed_eq, if_pos rfl]⟩
  · by_cases huw : u = w
    · subst huw
      rcases h.unlisted v (h.listed_before ▸ hu) with hv | hv
      · exact Or.inr ⟨u, by rwa [h.listed_eq, if_pos rfl]⟩
      · exact Or.inl hv
    · exact Or.inr ⟨u, by rwa [h.listed_eq, if_neg huw]⟩

/-- What the watcher lists has the ids it had. -/
theorem Rebooked.idsOf_listed (hg : g.Shaped) {c : WatcherId} (hc : c ∈ y.listed) : g'.idsOf c = g.idsOf c := by
  have hcw : c ≠ w := (h.lt_of_mem_listed hg hc).ne'
  rw [idsOf, idsOf, h.other hcw]

end

/-- **New books** for one watcher, sound by themselves, upset nothing. -/
theorem Grown.rebooked {g g' : World κ} {tops tops' : List WatcherId} {w : WatcherId} {x y : Watcher κ}
    (hg : g.Grown tops) (h : Rebooked g g' tops tops' w x y) : g'.Grown tops' := by
  constructor
  case toLedger => exact h.ledger hg.toLedger
  case toShaped => exact h.shaped hg.toShaped
  case sane => exact hg.sane.congr h.outline
  case anchored =>
    rintro v ⟨z, hz, ht⟩
    by_cases hvw : v = w
    · subst hvw
      rcases h.anchored with hbound | htop | hlist
      · exact h.hangs (hg.anchored ⟨x, h.get, hbound⟩)
      · exact Or.inl htop
      · exact h.hangs (Or.inr hlist)
    · exact h.hangs (hg.anchored ⟨z, (h.other hvw).symm.trans hz, ht⟩)
  case topmost =>
    intro c v hc hcv
    rw [h.listed_eq] at hcv
    split at hcv
    · rcases h.topmost c hc with htop | ⟨-, hnot⟩
      · rcases h.listed c hcv with hcx | ⟨-, hnot, -⟩
        · exact hg.topmost htop (h.listed_before ▸ hcx)
        · exact hnot hc
      · exact hnot hcv
    · rename_i hv
      rcases h.topmost c hc with htop | ⟨hcx, -⟩
      · exact hg.topmost htop hcv
      · exact hv (hg.single hcv (h.listed_before ▸ hcx))
  case children_younger =>
    intro v plan site b hv i c id hc hid k hk
    have hlisted : c ∈ (Watcher.object plan site (some b)).listed :=
      List.reduceOption_mem_iff.mpr (List.mem_of_getElem? hc)
    by_cases hvw : v = w
    · subst hvw
      obtain rfl := h.eq_of_get hv
      rw [h.idsOf_listed hg.toShaped hlisted] at hk
      exact h.children_younger rfl i c id hc hid k hk
    · have hv' := (h.other hvw).symm.trans hv
      refine h.idsOf_younger hg.toLedger (v := v) ?_ (hg.children_younger hv' i c id hc hid) hk
      rw [idsOf_of_get hv']
      exact List.mem_of_getElem? hid
  case items_younger =>
    intro v item batch site b hv e he k hk
    by_cases hvw : v = w
    · subst hvw
      obtain rfl := h.eq_of_get hv
      rw [h.idsOf_listed hg.toShaped (List.mem_map_of_mem he)] at hk
      exact h.items_younger rfl e he k hk
    · have hv' := (h.other hvw).symm.trans hv
      refine h.idsOf_younger hg.toLedger (v := v) ?_ (hg.items_younger hv' e he) hk
      rw [idsOf_of_get hv']
      exact List.mem_singleton_self _

/-! ### The moves -/

theorem getElem?_bindObject {g : World κ} {w : Nat} {plan site bound}
    (hw : g.watchers[w]? = some (.object plan site bound)) (b : BoundObject) (v : Nat) :
    (g.bindObject w b).watchers[v]? =
      if v = w then some (.object plan site (some b)) else g.watchers[v]? := by
  simp only [bindObject, Array.getElem?_modify]
  by_cases hv : v = w
  · subst hv
    simp [hw]
  · simp [hv, Ne.symm hv]

theorem getElem?_bindCollection {g : World κ} {w : Nat} {item batch site bound}
    (hw : g.watchers[w]? = some (.collection item batch site bound)) (b : BoundCollection) (v : Nat) :
    (g.bindCollection w b).watchers[v]? =
      if v = w then some (.collection item batch site (some b)) else g.watchers[v]? := by
  simp only [bindCollection, Array.getElem?_modify]
  by_cases hv : v = w
  · subst hv
    simp [hw]
  · simp [hv, Ne.symm hv]

theorem getElem?_addWatcher (g : World κ) (x : Watcher κ) (v : Nat) :
    (g.addWatcher x).watchers[v]? = if v = g.watchers.size then some x else g.watchers[v]? := by
  simp only [addWatcher, Array.getElem?_push]

/-- Books opened on a subject, with nothing entered yet. -/
def opened (s : Subject) : BoundObject :=
  { subject := s, subscriptions := [], children := [] }

theorem enterListener_watchers (g : World κ) (s : Subject) (p : String) (l : Listener κ) :
    (g.enterListener s p l).watchers = g.watchers := by
  cases s <;> rfl

theorem getElem?_concat {α : Type} {l : List α} {a b : α} {i : Nat} (h : (l ++ [a])[i]? = some b) :
    l[i]? = some b ∨ i = l.length ∧ b = a := by
  rcases lt_or_ge i l.length with hi | hi
  · exact Or.inl ((List.getElem?_append_left hi).symm.trans h)
  · rw [List.getElem?_append_right hi] at h
    obtain ⟨h0, rfl⟩ := List.getElem?_eq_some_iff.mp h
    simp only [List.length_cons, List.length_nil] at h0
    exact Or.inr ⟨by omega, List.getElem_singleton ..⟩

/-- Subscribes `w` to its next property and enters that in its books. -/
def subscribeMember (g : World κ) (w : WatcherId) (b : BoundObject) (name : String)
    (child : Option WatcherId) : World κ :=
  (g.enterListener (g.home b.subject name) name (.member w b.subscriptions.length)).bindObject w
    (b.join g.nextSubscription child)

/-- Subscribes `w` to the changes of a collection, none of whose members it
watches yet. -/
def openCollection (g : World κ) (w : WatcherId) (c : CollectionId) : World κ :=
  (g.enterChangeListener c (.membership w)).bindCollection w
    { collection := c, subscription := g.nextSubscription, items := [] }

/-- Enters a member and its watcher in the books of `w`. -/
def enlist (g : World κ) (w : WatcherId) (b : BoundCollection) (e : ObjectId × WatcherId) : World κ :=
  g.bindCollection w { b with items := b.items ++ [e] }

/-- A watcher that is bound to nothing holds nothing. -/
theorem holds_nothing {x : Watcher κ} (hx : x.target = none) : x.listed = [] ∧ x.ids = [] ∧ x.dormant = x := by
  cases x with
  | object plan site bound =>
    cases bound with
    | none => exact ⟨rfl, rfl, rfl⟩
    | some b => cases hx
  | collection item batch site bound =>
    cases bound with
    | none => exact ⟨rfl, rfl, rfl⟩
    | some b => cases hx

theorem listed_addWatcher {g : World κ} {x : Watcher κ} (hx : x.target = none) (w : WatcherId) :
    (g.addWatcher x).listed w = g.listed w := by
  unfold listed
  rw [getElem?_addWatcher]
  split
  · rename_i hw
    rw [hw, Array.getElem?_size]
    exact (holds_nothing hx).1
  · rfl

theorem idsOf_addWatcher {g : World κ} {x : Watcher κ} (hx : x.target = none) (w : WatcherId) :
    (g.addWatcher x).idsOf w = g.idsOf w := by
  unfold idsOf
  rw [getElem?_addWatcher]
  split
  · rename_i hw
    rw [hw, Array.getElem?_size]
    exact (holds_nothing hx).2.1
  · rfl

theorem Shaped.lt_of_mem_listed {g : World κ} (hg : g.Shaped) {v w : WatcherId} (h : w ∈ g.listed v) :
    w < g.watchers.size := by
  obtain ⟨-, y, -, hy, -⟩ := hg.exists_listed h
  exact (Array.getElem?_eq_some_iff.mp hy).1

section

variable {g : World κ} {tops : List WatcherId} (hg : g.Grown tops)

include hg

theorem Grown.addWatcher {x : Watcher κ} (hx : x.target = none) : (g.addWatcher x).Grown tops := by
  have hget : ∀ {w : Nat} {y}, (g.addWatcher x).watchers[w]? = some y → y.target.isSome = true →
      g.watchers[w]? = some y := by
    intro w y hy ht
    rw [getElem?_addWatcher] at hy
    split at hy
    · obtain rfl := Option.some.inj hy
      simp [hx] at ht
    · exact hy
  have hkeep : ∀ {w : Nat} {y}, g.watchers[w]? = some y → (g.addWatcher x).watchers[w]? = some y := by
    intro w y hy
    rw [getElem?_addWatcher, if_neg (ne_of_lt (Array.getElem?_eq_some_iff.mp hy).1), hy]
  constructor
  case toLedger =>
    constructor
    case filed => exact ⟨hg.filed.agrees, hg.filed.older, hg.filed.single, hg.filed.changesOlder,
      hg.filed.changesAscending, hg.filed.changesSingle⟩
    case member =>
      intro s p id w i
      refine (hg.member (s := s) (p := p)).trans (exists_congr fun t => exists_congr fun batch => and_congr ?_ ?_)
      swap
      · rw [home_congr (g.addWatcher_outline x)]
      constructor
      · rintro ⟨plan, site, b, hw, hrest⟩
        exact ⟨plan, site, b, hkeep hw, hrest⟩
      · rintro ⟨plan, site, b, hw, hrest⟩
        exact ⟨plan, site, b, hget hw rfl, hrest⟩
    case membership =>
      intro c id w
      refine (hg.membership (c := c)).trans ?_
      constructor
      · rintro ⟨item, batch, site, b, hw, hrest⟩
        exact ⟨item, batch, site, b, hkeep hw, hrest⟩
      · rintro ⟨item, batch, site, b, hw, hrest⟩
        exact ⟨item, batch, site, b, hget hw rfl, hrest⟩
    case fits => exact fun hw => hg.fits (hget hw rfl)
    case known => exact fun hw ht => hg.known (hget hw (by simp [ht])) ht
  case toShaped =>
    constructor
    case paired => exact fun hw => hg.paired (hget hw rfl)
    case posts => exact fun hw i c hc => (hg.posts (hget hw rfl) i c hc).mono fun hy => ⟨_, hkeep hy, rfl⟩
    case items =>
      intro w item batch site b hw e he
      obtain ⟨y, hy, hd⟩ := hg.items (hget hw rfl) e he
      exact ⟨y, hkeep hy, hd⟩
    case nodup =>
      intro w
      rw [listed_addWatcher hx]
      exact hg.nodup w
    case single =>
      intro v w c hv hw
      rw [listed_addWatcher hx] at hv hw
      exact hg.single hv hw
    case older =>
      intro w c hc
      rw [listed_addWatcher hx] at hc
      exact hg.older hc
  case sane => exact hg.sane.congr rfl
  case anchored =>
    rintro w ⟨y, hy, ht⟩
    refine (hg.anchored ⟨y, hget hy ht, ht⟩).imp id fun ⟨v, hv⟩ => ⟨v, ?_⟩
    rwa [listed_addWatcher hx]
  case topmost =>
    intro w v hw hv
    rw [listed_addWatcher hx] at hv
    exact hg.topmost hw hv
  case children_younger =>
    intro w plan site b hw i c id hc hid k hk
    rw [idsOf_addWatcher hx] at hk
    exact hg.children_younger (hget hw rfl) i c id hc hid k hk
  case items_younger =>
    intro w item batch site b hw e he k hk
    rw [idsOf_addWatcher hx] at hk
    exact hg.items_younger (hget hw rfl) e he k hk

/-- A watcher of an object may open its books at once, on what it is to follow. -/
theorem Grown.openObject {w : Nat} {plan site} (hw : g.watchers[w]? = some (.object plan site none))
    {s : Subject} (hs : g.hasValue s.value = true) (hw' : w ∈ tops ∨ ∃ v, w ∈ g.listed v) :
    (g.bindObject w (opened s)).Grown tops := by
  refine hg.rebooked (w := w) (x := .object plan site none) (y := .object plan site (some (opened s))) ?_
  constructor
  case outline => rfl
  case filed => exact ⟨hg.filed.agrees, hg.filed.older, hg.filed.single, hg.filed.changesOlder,
    hg.filed.changesAscending, hg.filed.changesSingle⟩
  case get => exact hw
  case watchers => exact getElem?_bindObject hw _
  case same => rfl
  case others => exact fun _ => Iff.rfl
  case changesOthers => exact fun _ => Iff.rfl
  case member =>
    intro t p id i
    refine (hg.member (s := t) (p := p)).trans ?_
    constructor
    · rintro ⟨u, batch, ⟨plan', site', b, hb, -⟩, -⟩
      rw [hw] at hb
      cases hb
    · rintro ⟨plan', site', b, batch, hy, hid, -⟩
      cases hy
      simp [opened] at hid
  case membership =>
    intro c id
    refine (hg.membership (c := c)).trans ?_
    constructor
    · rintro ⟨item, batch, site', b, hb, -⟩
      rw [hw] at hb
      cases hb
    · rintro ⟨item, batch, site', b, hy, -⟩
      cases hy
  case object =>
    intro plan' site' b hy
    cases hy
    simp [opened]
  case collection =>
    intro item batch site' b hy
    cases hy
  case known =>
    intro v hv
    obtain rfl : s.value = v := Option.some.inj hv
    exact hs
  case nodup => exact List.nodup_nil
  case listed => exact fun c hc => absurd hc List.not_mem_nil
  case unlisted => exact fun c hc => absurd hc List.not_mem_nil
  case anchored => exact Or.inr hw'
  case keeps => exact fun c hc => Or.inl hc
  case topmost => exact fun c hc => Or.inl hc
  case fresh => exact fun k hk => absurd hk List.not_mem_nil
  case children_younger =>
    intro plan' site' b hy i c id hc
    cases hy
    simp [opened] at hc
  case items_younger =>
    intro item batch site' b hy
    cases hy

/-- A watcher of an object may subscribe to the next property of its plan, and have
a dormant watcher below it. -/
theorem Grown.subscribeMember {w : Nat} {plan site b} (hw : g.watchers[w]? = some (.object plan site (some b)))
    {name : String} {batch : Batch κ} (hentry : plan.place? b.subscriptions.length = some (name, batch))
    {child : Option WatcherId} (hpost : g.Posted child (plan.post? site b.subscriptions.length))
    (hnew : ∀ c, child = some c → w < c ∧ c ∉ tops ∧ (∀ v, c ∉ g.listed v) ∧ g.idsOf c = []) :
    (g.subscribeMember w b name child).Grown tops := by
  set s := g.home b.subject name with hs
  have hknown : g.hasValue b.subject.value = true := hg.known hw rfl
  have hhome : g.hasValue s.value = true := hg.sane.hasValue_home hknown name
  have hlist : ∀ t q, (g.subscribeMember w b name child).listeners t q =
      if s = t ∧ name = q then g.listeners t q ++ [(g.nextSubscription, .member w b.subscriptions.length)]
      else g.listeners t q := listeners_enterListener g hhome name _
  have hlt : b.subscriptions.length < plan.length :=
    (plan.place?_isSome _).mp (by rw [hentry]; rfl)
  have hpaired := hg.paired hw
  have hfiled := enterListener_filed hg.filed hhome name (.member w b.subscriptions.length)
  have hlist' : ∀ {v i : Nat} {id : SubscriptionId} {t q},
      (id, Listener.member v i) ∈ (g.subscribeMember w b name child).listeners t q ↔
        (id, Listener.member v i) ∈ g.listeners t q ∨
          (s = t ∧ name = q) ∧ id = g.nextSubscription ∧ v = w ∧ i = b.subscriptions.length := by
    intro v i id t q
    rw [hlist]
    split
    · rename_i h
      simp [h]
    · rename_i h
      simp [h]
  refine hg.rebooked (w := w) (x := .object plan site (some b))
    (y := .object plan site (some (b.join g.nextSubscription child))) ?_
  constructor
  case outline => exact g.enterListener_outline s name _
  case filed => exact ⟨hfiled.agrees, hfiled.older, hfiled.single, hfiled.changesOlder, hfiled.changesAscending,
    hfiled.changesSingle⟩
  case get => exact hw
  case watchers =>
    intro v
    have hw' : (g.enterListener s name (.member w b.subscriptions.length)).watchers[w]? =
        some (.object plan site (some b)) := by rw [enterListener_watchers, hw]
    rw [World.subscribeMember, getElem?_bindObject hw', enterListener_watchers]
  case same => rfl
  case others =>
    intro t q id v i hv
    rw [hlist']
    simp [hv]
  case changesOthers =>
    intro c id v hv
    have : (g.subscribeMember w b name child).listenersOfCollection c = g.listenersOfCollection c :=
      g.listenersOfCollection_enterListener s name _ c
    rw [this]
  case member =>
    intro t q id i
    rw [hlist', hg.member]
    constructor
    · rintro (⟨u, batch', ⟨plan', site', b', hb', hid, hentry', rfl⟩, hhome'⟩ | ⟨⟨rfl, rfl⟩, rfl, -, rfl⟩)
      · rw [hw] at hb'
        cases hb'
        refine ⟨plan, site, _, batch', rfl, ?_, hentry', hhome'⟩
        exact (List.getElem?_append_left (List.getElem?_eq_some_iff.mp hid).1).trans hid
      · exact ⟨plan, site, _, batch, rfl, List.getElem?_concat_length, hentry, rfl⟩
    · rintro ⟨plan', site', b', batch', hy, hid, hentry', hhome'⟩
      cases hy
      rcases getElem?_concat hid with hid | ⟨rfl, rfl⟩
      · exact Or.inl ⟨b.subject, batch', ⟨plan, site, b, hw, hid, hentry', rfl⟩, hhome'⟩
      · rw [hentry] at hentry'
        cases hentry'
        exact Or.inr ⟨⟨hhome', rfl⟩, rfl, rfl, rfl⟩
  case membership =>
    intro c id
    have : (g.subscribeMember w b name child).listenersOfCollection c = g.listenersOfCollection c :=
      g.listenersOfCollection_enterListener s name _ c
    rw [this, hg.membership]
    constructor
    · rintro ⟨item, batch', site', b', hb', -⟩
      rw [hw] at hb'
      cases hb'
    · rintro ⟨item, batch', site', b', hy, -⟩
      cases hy
  case object =>
    intro plan' site' b' hy
    cases hy
    refine ⟨?_, ?_, fun i c hc => ?_⟩
    · simpa [BoundObject.join] using hlt
    · simp [BoundObject.join, hpaired]
    · rcases getElem?_concat hc with hc | ⟨rfl, rfl⟩
      · exact hg.posts hw i c hc
      · rw [hpaired]
        exact hpost
  case collection =>
    intro item batch' site' b' hy
    cases hy
  case known => exact fun hv => hg.known hw hv
  case nodup =>
    have hnodup : b.children.reduceOption.Nodup := by
      have := hg.nodup w
      rwa [listed_of_get hw] at this
    cases child with
    | none => simpa [Watcher.listed, BoundObject.join, List.reduceOption_append] using hnodup
    | some c =>
      have hnot : c ∉ b.children.reduceOption := by
        have := (hnew c rfl).2.2.1 w
        rwa [listed_of_get hw] at this
      simp only [Watcher.listed, BoundObject.join, List.reduceOption_append, List.reduceOption_cons_of_some,
        List.reduceOption_nil]
      exact List.nodup_append.mpr ⟨hnodup, List.nodup_singleton c, fun a ha d hd => by
        rw [List.mem_singleton.mp hd]; exact fun h => hnot (h ▸ ha)⟩
  case listed =>
    intro c hc
    rw [Watcher.listed, List.reduceOption_mem_iff] at hc
    rcases List.mem_append.mp hc with hc | hc
    · exact Or.inl (List.reduceOption_mem_iff.mpr hc)
    · have := hnew c (List.mem_singleton.mp hc).symm
      exact Or.inr ⟨this.1, this.2.1, this.2.2.1⟩
  case unlisted =>
    intro c hc
    rw [Watcher.listed, List.reduceOption_mem_iff] at hc
    exact Or.inl (List.reduceOption_mem_iff.mpr (List.mem_append_left _ hc))
  case anchored => exact Or.inl rfl
  case keeps => exact fun c hc => Or.inl hc
  case topmost => exact fun c hc => Or.inl hc
  case fresh =>
    intro k hk
    rcases List.mem_append.mp hk with hk | hk
    · exact Or.inl hk
    · exact Or.inr (List.mem_singleton.mp hk).ge
  case children_younger =>
    intro plan' site' b' hy i c id hc hid k hk
    cases hy
    rcases getElem?_concat hc with hc | ⟨-, hc⟩
    · refine hg.children_younger hw i c id hc ?_ k hk
      have hi : i < b.subscriptions.length := hpaired ▸ (List.getElem?_eq_some_iff.mp hc).1
      exact (List.getElem?_append_left hi).symm.trans hid
    · rw [(hnew c hc.symm).2.2.2] at hk
      cases hk
  case items_younger =>
    intro item batch' site' b' hy
    cases hy

/-- A watcher of a collection may subscribe to its changes. -/
theorem Grown.openCollection {w : Nat} {item batch site}
    (hw : g.watchers[w]? = some (.collection item batch site none)) {c : CollectionId}
    (hc : g.hasValue (.collection c) = true) (hw' : w ∈ tops ∨ ∃ v, w ∈ g.listed v) :
    (g.openCollection w c).Grown tops := by
  have hlist : ∀ {d} {id : SubscriptionId} {v : Nat},
      (id, ChangeListener.membership v) ∈ (g.openCollection w c).listenersOfCollection d ↔
        (id, ChangeListener.membership v) ∈ g.listenersOfCollection d ∨
          c = d ∧ id = g.nextSubscription ∧ v = w := by
    intro d id v
    have : (g.openCollection w c).listenersOfCollection d = _ :=
      listenersOfCollection_enterChangeListener hg.filed hc (.membership w) d
    rw [this]
    split
    · rename_i h
      simp [h]
    · rename_i h
      simp [h]
  have hfiled := enterChangeListener_filed hg.filed hc (.membership w)
  have hlisteners : ∀ s p, (g.openCollection w c).listeners s p = g.listeners s p :=
    g.listeners_enterChangeListener c (.membership w)
  refine hg.rebooked (w := w) (x := .collection item batch site none)
    (y := .collection item batch site (some ⟨c, g.nextSubscription, []⟩)) ?_
  constructor
  case outline => exact g.enterChangeListener_outline c _
  case filed => exact ⟨hfiled.agrees, hfiled.older, hfiled.single, hfiled.changesOlder, hfiled.changesAscending,
    hfiled.changesSingle⟩
  case get => exact hw
  case watchers => exact getElem?_bindCollection (g := g.enterChangeListener c (.membership w)) hw _
  case same => rfl
  case others =>
    intro s p id v i _
    rw [hlisteners]
  case changesOthers =>
    intro d id v hv
    rw [hlist]
    simp [hv]
  case member =>
    intro s p id i
    rw [hlisteners, hg.member]
    constructor
    · rintro ⟨t, batch', ⟨plan', site', b', hb', -⟩, -⟩
      rw [hw] at hb'
      cases hb'
    · rintro ⟨plan', site', b', batch', hy, -⟩
      cases hy
  case membership =>
    intro d id
    rw [hlist, hg.membership]
    constructor
    · rintro (⟨item', batch', site', b', hb', -⟩ | ⟨rfl, rfl, -⟩)
      · rw [hw] at hb'
        cases hb'
      · exact ⟨item, batch, site, _, rfl, rfl, rfl⟩
    · rintro ⟨item', batch', site', b', hy, rfl, rfl⟩
      cases hy
      exact Or.inr ⟨rfl, rfl, rfl⟩
  case object =>
    intro plan' site' b' hy
    cases hy
  case collection =>
    intro item' batch' site' b' hy e he
    cases hy
    cases he
  case known =>
    intro v hv
    obtain rfl : Value.collection c = v := Option.some.inj hv
    exact hc
  case nodup => exact List.nodup_nil
  case listed => exact fun d hd => absurd hd List.not_mem_nil
  case unlisted => exact fun d hd => absurd hd List.not_mem_nil
  case anchored => exact Or.inr hw'
  case keeps => exact fun c hc => Or.inl hc
  case topmost => exact fun c hc => Or.inl hc
  case fresh => exact fun k hk => Or.inr (List.mem_singleton.mp hk).ge
  case children_younger =>
    intro plan' site' b' hy
    cases hy
  case items_younger =>
    intro item' batch' site' b' hy e he
    cases hy
    cases he

/-- The members that a watcher of a collection has entered may change, as long as
those struck off become tops and those added have been subscribed to later, if at all. -/
theorem Grown.rebookItems {tops' : List WatcherId} {w : Nat} {item batch site b}
    (hw : g.watchers[w]? = some (.collection item batch site (some b)))
    {items : List (ObjectId × WatcherId)} (hnodup : (items.map (·.2)).Nodup)
    (hitems : ∀ e ∈ items, e ∈ b.items ∨ w < e.2 ∧ e.2 ∉ tops' ∧ (∀ v, e.2 ∉ g.listed v) ∧
      (∀ k ∈ g.idsOf e.2, b.subscription < k) ∧ ∃ x, g.watchers[e.2]? = some x ∧ x.dormant = .object item site none)
    (hleft : ∀ e ∈ b.items, e.2 ∈ items.map (·.2) ∨ e.2 ∈ tops')
    (hkeeps : ∀ c ∈ tops, c ∈ tops' ∨ c ∈ items.map (·.2))
    (htops : ∀ c ∈ tops', c ∈ tops ∨ c ∈ b.items.map (·.2) ∧ c ∉ items.map (·.2)) :
    (g.bindCollection w { b with items }).Grown tops' := by
  refine hg.rebooked (w := w) (x := .collection item batch site (some b))
    (y := .collection item batch site (some { b with items })) ?_
  constructor
  case outline => rfl
  case filed => exact ⟨hg.filed.agrees, hg.filed.older, hg.filed.single, hg.filed.changesOlder,
    hg.filed.changesAscending, hg.filed.changesSingle⟩
  case get => exact hw
  case watchers => exact getElem?_bindCollection hw _
  case same => rfl
  case others => exact fun _ => Iff.rfl
  case changesOthers => exact fun _ => Iff.rfl
  case member =>
    intro s p id i
    refine (hg.member (s := s) (p := p)).trans ?_
    constructor
    · rintro ⟨t, batch', ⟨plan', site', b', hb', -⟩, -⟩
      rw [hw] at hb'
      cases hb'
    · rintro ⟨plan', site', b', batch', hy, -⟩
      cases hy
  case membership =>
    intro c id
    refine (hg.membership (c := c)).trans ?_
    constructor
    · rintro ⟨item', batch', site', b', hb', hid, hc⟩
      rw [hw] at hb'
      cases hb'
      exact ⟨item, batch, site, _, rfl, hid, hc⟩
    · rintro ⟨item', batch', site', b', hy, hid, hc⟩
      cases hy
      exact ⟨item, batch, site, b, hw, hid, hc⟩
  case object =>
    intro plan' site' b' hy
    cases hy
  case collection =>
    intro item' batch' site' b' hy e he
    cases hy
    rcases hitems e he with he | ⟨-, -, -, -, hx⟩
    · exact hg.items hw e he
    · exact hx
  case known => exact fun hv => hg.known hw hv
  case nodup => exact hnodup
  case listed =>
    intro c hc
    obtain ⟨e, he, rfl⟩ := List.mem_map.mp hc
    rcases hitems e he with he | ⟨hlt, htop, hnot, -⟩
    · exact Or.inl (List.mem_map_of_mem he)
    · exact Or.inr ⟨hlt, htop, hnot⟩
  case unlisted =>
    intro c hc
    obtain ⟨e, he, rfl⟩ := List.mem_map.mp hc
    exact hleft e he
  case anchored => exact Or.inl rfl
  case keeps => exact hkeeps
  case topmost => exact htops
  case fresh => exact fun k hk => Or.inl hk
  case children_younger =>
    intro plan' site' b' hy
    cases hy
  case items_younger =>
    intro item' batch' site' b' hy e he k hk
    cases hy
    rcases hitems e he with he | ⟨-, -, -, hids, -⟩
    · exact hg.items_younger hw e he k hk
    · exact hids k hk

end

end World
end LiveRules
