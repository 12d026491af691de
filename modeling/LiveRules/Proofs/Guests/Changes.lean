/-
# Changes with guests around

In a world with guests and in the one without, the same may happen, or only the guests
do something. Either way the one world goes on hosting the guests that are idle in the
other.

Key theorems: `World.Hosts.enterListener`, `World.Hosts.unsubscribe`,
`World.Hosts.unbind`, `World.Hosts.dispose`, and the same for guests.
-/
import LiveRules.Proofs.Guests.Hosting
import LiveRules.Proofs.Watching.Regather

namespace LiveRules

variable {κ : Type} {G : Guests κ} {M N : Matching}

/-! ### Notifiers -/

namespace Notifier.Hosts

variable {n n' : Notifier (Listener κ)} (h : n.Hosts M n')

include h

theorem subscribe (p : String) {l l' : Listener κ} (hl : l.Matched M l') :
    (n.subscribe p M.ids.size l).Hosts M.pairId (n'.subscribe p M.ids.bound l') where
  listeners q := by
    have hlater := (h.mono M.le_pairId).listeners q
    rw [listenersOf_subscribe, listenersOf_subscribe]
    split
    · exact hlater.append (.one ⟨M.ids.pairs_new, hl.mono M.le_pairId⟩)
    · exact hlater
  owners a b hab := by
    have howner := h.owners a b (M.ids.le_pair.meets hab)
    have hnew := M.ids.new_iff_of_meets hab
    simp only [Notifier.subscribe, Table.get?_set, hnew, howner]

theorem subscribeGuest (p : String) {l' : Listener κ} (hl : l'.Guest M) :
    n.Hosts M.hostId (n'.subscribe p M.ids.bound l') where
  listeners q := by
    have hlater := (h.mono M.le_hostId).listeners q
    rw [listenersOf_subscribe]
    split
    · have hend := hlater.append (.other (y := (M.ids.bound, l')) ⟨M.ids.stray_new, hl.mono M.le_hostId⟩ .nil)
      rwa [List.append_nil] at hend
    · exact hlater
  owners a b hab := by
    have howner := h.owners a b (M.ids.le_host.meets hab)
    simp only [Notifier.subscribe, Table.get?_set, if_neg (M.ids.bound_ne_of_meets hab), howner]

theorem unsubscribe {i j : SubscriptionId} (hij : M.ids.Pairs i j) : (n.unsubscribe i).Hosts M (n'.unsubscribe j) where
  listeners q := by
    rw [listenersOf_unsubscribe_of_owner, listenersOf_unsubscribe_of_owner, h.owners i j (Or.inl hij)]
    split
    · refine (h.listeners q).filter fun e e' he => ?_
      have hsame : e'.1 = j ↔ e.1 = i := (he.1.eq_iff hij).symm
      simp only [ne_eq, hsame]
    · exact h.listeners q
  owners a b hab := by
    have hsame : i = a ↔ j = b := hij.eq_iff_of_meets hab
    simp only [owners_unsubscribe, hsame, h.owners a b hab]

theorem unsubscribeGuest {j : SubscriptionId} (hj : M.ids.Stray j) : n.Hosts M (n'.unsubscribe j) where
  listeners q := by
    rw [listenersOf_unsubscribe_of_owner]
    split
    · have hkept := (h.listeners q).filter (p := fun _ => true) (q := fun e => decide (e.1 ≠ j)) fun e e' he => by
        simpa using (hj.ne_of_pairs he.1).symm
      rwa [List.filter_true] at hkept
    · exact h.listeners q
  owners a b hab := by
    rw [owners_unsubscribe, if_neg (hj.ne_of_meets hab), h.owners a b hab]

end Notifier.Hosts

namespace World

/-! ### Parts of a world -/

/-- Only listeners may differ, and the number of the next subscription. -/
structure Relisted (g k : World κ) : Prop where
  outline : k.outline = g.outline
  watchers : k.watchers = g.watchers
  trees : k.trees = g.trees

theorem Relisted.refl (g : World κ) : g.Relisted g :=
  ⟨rfl, rfl, rfl⟩

theorem relisted_modifyNotifier (g : World κ) (s : Subject) (f : Notifier (Listener κ) → Notifier (Listener κ)) :
    g.Relisted (g.modifyNotifier s f) :=
  ⟨g.modifyNotifier_outline s f, by cases s <;> rfl, by cases s <;> rfl⟩

theorem relisted_enterListener (g : World κ) (s : Subject) (p : String) (l : Listener κ) :
    g.Relisted (g.enterListener s p l) :=
  ⟨g.enterListener_outline s p l, g.enterListener_watchers s p l, by cases s <;> rfl⟩

theorem relisted_enterChangeListener (g : World κ) (c : CollectionId) (l : ChangeListener κ) :
    g.Relisted (g.enterChangeListener c l) :=
  ⟨g.enterChangeListener_outline c l, rfl, rfl⟩

theorem relisted_unsubscribeChanges (g : World κ) (c : CollectionId) (id : SubscriptionId) :
    g.Relisted (g.unsubscribeChanges c id) :=
  ⟨g.unsubscribeChanges_outline c id, rfl, rfl⟩

section

variable {g g' : World κ} (h : g.Hosts G M g')

include h

theorem Hosts.relisten {k k' : World κ} (hMN : M ≤ N) (hwatchers : N.watchers = M.watchers) (hknown : N.known = M.known)
    (hk : g.Relisted k) (hk' : g'.Relisted k') (hnext : k.nextSubscription = N.ids.size)
    (hbound : k'.nextSubscription = N.ids.bound) (hnotifier : ∀ s, (k.notifierOf s).Hosts N (k'.notifierOf s))
    (hchanges : ∀ c, Woven (N.Entry (ChangeListener.Matched N)) (N.Foreign (ChangeListener.Guest N))
      (k.listenersOfCollection c) (k'.listenersOfCollection c)) : k.Hosts G N k' where
  outline := hk'.outline.trans (h.outline.trans hk.outline.symm)
  known v hv := (hasValue_congr hk'.outline v).trans (h.known v (hknown ▸ hv))
  next := hnext
  bound := hbound
  notifier := hnotifier
  changes := hchanges
  size := by rw [hk.watchers, h.size, hwatchers]
  extent := by rw [hk'.watchers, h.extent, hwatchers]
  watcher a b hab := by
    rw [hk.watchers, hk'.watchers]
    exact optionRel_mono (fun _ _ => Watcher.Matched.mono hMN) (h.watcher a b (hwatchers ▸ hab))
  guest b hb x hx := by
    rw [hk'.watchers] at hx
    exact (h.guest b (hwatchers ▸ hb) x hx).mono hMN
  made := by rw [hk.trees]; exact h.made
  forest := by rw [hk.trees, hk'.trees]; exact h.forest
  tree t ht := by
    rw [hk.trees, hk'.trees]
    exact optionRel_mono (fun _ _ => Tree.Matched.mono hMN) (h.tree t ht)
  hosted t ht := by
    rw [hk.trees, hk'.trees]
    exact optionRel_mono (fun _ _ => Tree.Hosts.mono hMN) (h.hosted t ht)

theorem Hosts.changes_mono (hMN : M ≤ N) (c : CollectionId) :
    Woven (N.Entry (ChangeListener.Matched N)) (N.Foreign (ChangeListener.Guest N))
      (g.listenersOfCollection c) (g'.listenersOfCollection c) :=
  (h.changes c).mono (fun _ _ => Matching.Entry.mono hMN fun _ _ => ChangeListener.Matched.mono hMN)
    fun _ => Matching.Foreign.mono hMN fun _ => ChangeListener.Guest.mono hMN

/-! ### Listening to properties -/

theorem Hosts.enterListener (s : Subject) (p : String) {l l' : Listener κ} (hl : l.Matched M l') :
    (g.enterListener s p l).Hosts G M.pairId (g'.enterListener s p l') := by
  refine h.relisten M.le_pairId rfl rfl (relisted_enterListener ..) (relisted_enterListener ..) ?_ ?_ (fun t => ?_)
    fun c => ?_
  · exact (congrArg Nat.succ h.next).trans M.ids.size_pair.symm
  · exact congrArg Nat.succ h.bound
  · have hleft : (g.enterListener s p l).notifierOf t = _ :=
      g.notifierOf_modifyNotifier s t (·.subscribe p g.nextSubscription l)
    have hright : (g'.enterListener s p l').notifierOf t = _ :=
      g'.notifierOf_modifyNotifier s t (·.subscribe p g'.nextSubscription l')
    rw [hleft, hright, h.hasValue, h.next, h.bound]
    split
    · exact (h.notifier t).subscribe p hl
    · exact (h.notifier t).mono M.le_pairId
  · rw [listenersOfCollection_enterListener, listenersOfCollection_enterListener]
    exact h.changes_mono M.le_pairId c

theorem Hosts.enterListener_guest (s : Subject) (p : String) {l' : Listener κ} (hl : l'.Guest M) :
    g.Hosts G M.hostId (g'.enterListener s p l') := by
  refine h.relisten M.le_hostId rfl rfl (.refl g) (relisted_enterListener ..) h.next ?_ (fun t => ?_) fun c => ?_
  · exact congrArg Nat.succ h.bound
  · have hright : (g'.enterListener s p l').notifierOf t = _ :=
      g'.notifierOf_modifyNotifier s t (·.subscribe p g'.nextSubscription l')
    rw [hright, h.bound]
    split
    · exact (h.notifier t).subscribeGuest p hl
    · exact (h.notifier t).mono M.le_hostId
  · rw [listenersOfCollection_enterListener]
    exact h.changes_mono M.le_hostId c

theorem Hosts.unsubscribe (s : Subject) {i j : SubscriptionId} (hij : M.ids.Pairs i j) :
    (g.unsubscribe s i).Hosts G M (g'.unsubscribe s j) := by
  unfold World.unsubscribe
  rw [reach_congr h.outline]
  generalize g.reach s = ss
  induction ss generalizing g g' with
  | nil => exact h
  | cons s ss ih =>
    refine ih (h.relisten le_rfl rfl rfl (relisted_modifyNotifier ..) (relisted_modifyNotifier ..) ?_ ?_ (fun t => ?_)
      fun c => ?_)
    · cases s <;> exact h.next
    · cases s <;> exact h.bound
    · rw [notifierOf_modifyNotifier, notifierOf_modifyNotifier, h.hasValue]
      split
      · exact (h.notifier t).unsubscribe hij
      · exact h.notifier t
    · rw [listenersOfCollection_modifyNotifier, listenersOfCollection_modifyNotifier]
      exact h.changes c

theorem Hosts.unsubscribe_guest (s : Subject) {j : SubscriptionId} (hj : M.ids.Stray j) :
    g.Hosts G M (g'.unsubscribe s j) := by
  unfold World.unsubscribe
  generalize g'.reach s = ss
  induction ss generalizing g' with
  | nil => exact h
  | cons s ss ih =>
    refine ih (h.relisten le_rfl rfl rfl (.refl g) (relisted_modifyNotifier ..) h.next ?_ (fun t => ?_) fun c => ?_)
    · cases s <;> exact h.bound
    · rw [notifierOf_modifyNotifier]
      split
      · exact (h.notifier t).unsubscribeGuest hj
      · exact h.notifier t
    · rw [listenersOfCollection_modifyNotifier]
      exact h.changes c

/-! ### Listening to collections -/

theorem Hosts.next_not_mem (c : CollectionId) : g.nextSubscription ∉ (g.listenersOfCollection c).map (·.1) := by
  intro hm
  obtain ⟨e, he, heq⟩ := List.mem_map.mp hm
  obtain ⟨e', -, hmatched⟩ := (h.changes c).exists_match he
  have hlt := hmatched.1.lt_size
  rw [heq, h.next] at hlt
  exact lt_irrefl _ hlt

theorem Hosts.bound_not_mem (c : CollectionId) : g'.nextSubscription ∉ (g'.listenersOfCollection c).map (·.1) := by
  intro hm
  obtain ⟨e, he, heq⟩ := List.mem_map.mp hm
  have hlt : e.1 < M.ids.bound := by
    rcases (h.changes c).mem he with hforeign | ⟨x, -, hmatched⟩
    · exact hforeign.1.1
    · exact hmatched.1.lt_bound
  rw [heq, h.bound] at hlt
  exact lt_irrefl _ hlt

theorem Hosts.enterChangeListener (c : CollectionId) {l l' : ChangeListener κ} (hl : l.Matched M l') :
    (g.enterChangeListener c l).Hosts G M.pairId (g'.enterChangeListener c l') := by
  refine h.relisten M.le_pairId rfl rfl (relisted_enterChangeListener ..) (relisted_enterChangeListener ..) ?_ ?_
    (fun s => ?_) fun d => ?_
  · exact (congrArg Nat.succ h.next).trans M.ids.size_pair.symm
  · exact congrArg Nat.succ h.bound
  · have hnotifier := (h.notifier s).mono M.le_pairId
    cases s <;> exact hnotifier
  · have hleft : (g.enterChangeListener c l).listenersOfCollection d = _ :=
      g.listenersOfCollection_modifyCollection c d (·.set g.nextSubscription l)
    have hright : (g'.enterChangeListener c l').listenersOfCollection d = _ :=
      g'.listenersOfCollection_modifyCollection c d (·.set g'.nextSubscription l')
    rw [hleft, hright, h.hasValue, Table.set_of_not_mem (h.next_not_mem d), Table.set_of_not_mem (h.bound_not_mem d)]
    split
    · refine (h.changes_mono M.le_pairId d).append (.one ⟨?_, hl.mono M.le_pairId⟩)
      rw [h.next, h.bound]
      exact M.ids.pairs_new
    · exact h.changes_mono M.le_pairId d

theorem Hosts.enterChangeListener_guest (c : CollectionId) {l' : ChangeListener κ} (hl : l'.Guest M) :
    g.Hosts G M.hostId (g'.enterChangeListener c l') := by
  refine h.relisten M.le_hostId rfl rfl (.refl g) (relisted_enterChangeListener ..) h.next ?_ (fun s => ?_) fun d => ?_
  · exact congrArg Nat.succ h.bound
  · have hnotifier := (h.notifier s).mono M.le_hostId
    cases s <;> exact hnotifier
  · have hright : (g'.enterChangeListener c l').listenersOfCollection d = _ :=
      g'.listenersOfCollection_modifyCollection c d (·.set g'.nextSubscription l')
    rw [hright, Table.set_of_not_mem (h.bound_not_mem d)]
    split
    · have hstray : M.hostId.ids.Stray g'.nextSubscription := h.bound ▸ M.ids.stray_new
      have hend := (h.changes_mono M.le_hostId d).append
        (.other (y := (g'.nextSubscription, l')) ⟨hstray, hl.mono M.le_hostId⟩ .nil)
      rwa [List.append_nil] at hend
    · exact h.changes_mono M.le_hostId d

theorem Hosts.unsubscribeChanges (c : CollectionId) {i j : SubscriptionId} (hij : M.ids.Pairs i j) :
    (g.unsubscribeChanges c i).Hosts G M (g'.unsubscribeChanges c j) := by
  refine h.relisten le_rfl rfl rfl (relisted_unsubscribeChanges ..) (relisted_unsubscribeChanges ..) h.next h.bound
    (fun s => ?_) fun d => ?_
  · have hnotifier := h.notifier s
    cases s <;> exact hnotifier
  · rw [listenersOfCollection_unsubscribeChanges, listenersOfCollection_unsubscribeChanges]
    split
    · refine (h.changes d).filter fun e e' he => ?_
      have hsame : e'.1 = j ↔ e.1 = i := (he.1.eq_iff hij).symm
      simp only [ne_eq, hsame]
    · exact h.changes d

theorem Hosts.unsubscribeChanges_guest (c : CollectionId) {j : SubscriptionId} (hj : M.ids.Stray j) :
    g.Hosts G M (g'.unsubscribeChanges c j) := by
  refine h.relisten le_rfl rfl rfl (.refl g) (relisted_unsubscribeChanges ..) h.next h.bound (fun s => ?_) fun d => ?_
  · have hnotifier := h.notifier s
    cases s <;> exact hnotifier
  · rw [listenersOfCollection_unsubscribeChanges]
    split
    · have hkept := (h.changes d).filter (p := fun _ => true) (q := fun e => decide (e.1 ≠ j)) fun e e' he => by
        simpa using (hj.ne_of_pairs he.1).symm
      rwa [List.filter_true] at hkept
    · exact h.changes d

/-! ### Watchers -/

theorem Hosts.rewatch {ws ws' : Array (Watcher κ)} (hMN : M ≤ N) (hids : N.ids = M.ids) (hknown : N.known = M.known)
    (hsize : ws.size = N.watchers.size) (hextent : ws'.size = N.watchers.bound)
    (hwatcher : ∀ a b, N.watchers.Pairs a b → Option.Rel (Watcher.Matched G N) ws[a]? ws'[b]?)
    (hguest : ∀ b, N.watchers.Stray b → ∀ x, ws'[b]? = some x → x.Guest G N) :
    Hosts G N { g with watchers := ws } { g' with watchers := ws' } where
  outline := h.outline
  known v hv := by
    have hvalue := h.known v (hknown ▸ hv)
    cases v <;> exact hvalue
  next := hids ▸ h.next
  bound := hids ▸ h.bound
  notifier s := by
    have hlater := (h.notifier s).mono hMN
    cases s <;> exact hlater
  changes := h.changes_mono hMN
  size := hsize
  extent := hextent
  watcher := hwatcher
  guest := hguest
  made := h.made
  forest := h.forest
  tree t ht := optionRel_mono (fun _ _ => Tree.Matched.mono hMN) (h.tree t ht)
  hosted t ht := optionRel_mono (fun _ _ => Tree.Hosts.mono hMN) (h.hosted t ht)

theorem Hosts.addWatcher {x x' : Watcher κ} (hx : x.Matched G M x') :
    (g.addWatcher x).Hosts G M.pairWatcher (g'.addWatcher x') := by
  refine h.rewatch M.le_pairWatcher rfl rfl ?_ ?_ (fun a b hab => ?_) fun b hb y hy => ?_
  · rw [Array.size_push, h.size]
    exact M.watchers.size_pair.symm
  · rw [Array.size_push, h.extent]
    rfl
  · rw [Array.getElem?_push, Array.getElem?_push, h.size, h.extent]
    rcases M.watchers.pairs_pair.mp hab with hab | ⟨rfl, rfl⟩
    · rw [if_neg hab.lt_size.ne, if_neg hab.lt_bound.ne]
      exact optionRel_mono (fun _ _ => Watcher.Matched.mono M.le_pairWatcher) (h.watcher a b hab)
    · simpa using hx.mono M.le_pairWatcher
  · have hstray := M.watchers.stray_pair hb
    rw [Array.getElem?_push, h.extent, if_neg hstray.1.ne] at hy
    exact (h.guest b hstray y hy).mono M.le_pairWatcher

theorem Hosts.addWatcher_guest {x' : Watcher κ} (hx : x'.Guest G M) : g.Hosts G M.hostWatcher (g'.addWatcher x') := by
  refine h.rewatch M.le_hostWatcher rfl rfl h.size ?_ (fun a b hab => ?_) fun b hb y hy => ?_
  · rw [Array.size_push, h.extent]
    rfl
  · have hpairs : M.watchers.Pairs a b := hab
    rw [Array.getElem?_push, h.extent, if_neg hpairs.lt_bound.ne]
    exact optionRel_mono (fun _ _ => Watcher.Matched.mono M.le_hostWatcher) (h.watcher a b hpairs)
  · rw [Array.getElem?_push, h.extent] at hy
    rcases M.watchers.stray_host hb with hstray | rfl
    · rw [if_neg hstray.1.ne] at hy
      exact (h.guest b hstray y hy).mono M.le_hostWatcher
    · rw [if_pos rfl] at hy
      cases hy
      exact hx.mono M.le_hostWatcher

theorem Hosts.modifyWatcher {a b : WatcherId} (hab : M.watchers.Pairs a b) {f f' : Watcher κ → Watcher κ}
    (hf : ∀ x x', x.Matched G M x' → (f x).Matched G M (f' x')) :
    Hosts G M { g with watchers := g.watchers.modify a f } { g' with watchers := g'.watchers.modify b f' } := by
  refine h.rewatch le_rfl rfl rfl (by simpa using h.size) (by simpa using h.extent) (fun c d hcd => ?_)
    fun d hd y hy => ?_
  · have hwatcher := h.watcher c d hcd
    rw [Array.getElem?_modify, Array.getElem?_modify]
    by_cases hac : a = c
    · rw [if_pos hac, if_pos ((hab.eq_iff hcd).mp hac)]
      generalize g.watchers[c]? = x at hwatcher ⊢
      generalize g'.watchers[d]? = x' at hwatcher ⊢
      cases hwatcher with
      | none => exact .none
      | some hx => exact .some (hf _ _ hx)
    · rw [if_neg hac, if_neg fun hbd => hac ((hab.eq_iff hcd).mpr hbd)]
      exact hwatcher
  · rw [Array.getElem?_modify, if_neg (hd.ne_of_pairs hab).symm] at hy
    exact h.guest d hd y hy

theorem Hosts.modifyWatcher_guest {b : WatcherId} (hb : M.watchers.Stray b) {f : Watcher κ → Watcher κ}
    (hf : ∀ x, x.Guest G M → (f x).Guest G M) : g.Hosts G M { g' with watchers := g'.watchers.modify b f } := by
  refine h.rewatch le_rfl rfl rfl h.size (by simpa using h.extent) (fun c d hcd => ?_) fun d hd y hy => ?_
  · rw [Array.getElem?_modify, if_neg (hb.ne_of_pairs hcd)]
    exact h.watcher c d hcd
  · rw [Array.getElem?_modify] at hy
    split at hy
    · obtain ⟨x, hx, rfl⟩ := Option.map_eq_some_iff.mp hy
      exact hf x (h.guest d hd x hx)
    · exact h.guest d hd y hy

theorem Hosts.bindObject {a b : WatcherId} (hab : M.watchers.Pairs a b) {x x' : BoundObject} (hx : x.Matched M x') :
    (g.bindObject a x).Hosts G M (g'.bindObject b x') := by
  refine h.modifyWatcher hab fun y y' hy => ?_
  cases hy with
  | object plan hsite _ => exact .object plan hsite (.some hx)
  | collection item membership hsite hbound => exact .collection item membership hsite hbound

theorem Hosts.bindObject_guest {b : WatcherId} (hb : M.watchers.Stray b) {x : BoundObject} (hx : x.Guest M) :
    g.Hosts G M (g'.bindObject b x) := by
  refine h.modifyWatcher_guest hb fun y hy => ?_
  cases hy with
  | object hplan hsite _ => exact .object hplan hsite fun z hz => Option.some.inj hz ▸ hx
  | collection hitem hmembership hsite hbound => exact .collection hitem hmembership hsite hbound

theorem Hosts.bindCollection {a b : WatcherId} (hab : M.watchers.Pairs a b) {x x' : BoundCollection}
    (hx : x.Matched M x') : (g.bindCollection a x).Hosts G M (g'.bindCollection b x') := by
  refine h.modifyWatcher hab fun y y' hy => ?_
  cases hy with
  | object plan hsite hbound => exact .object plan hsite hbound
  | collection item membership hsite _ => exact .collection item membership hsite (.some hx)

theorem Hosts.bindCollection_guest {b : WatcherId} (hb : M.watchers.Stray b) {x : BoundCollection} (hx : x.Guest M) :
    g.Hosts G M (g'.bindCollection b x) := by
  refine h.modifyWatcher_guest hb fun y hy => ?_
  cases hy with
  | object hplan hsite hbound => exact .object hplan hsite hbound
  | collection hitem hmembership hsite _ =>
    exact .collection hitem hmembership hsite fun z hz => Option.some.inj hz ▸ hx

/-! ### Unbinding -/

theorem Hosts.release {a b : WatcherId} (hab : M.watchers.Pairs a b) : (g.release a).Hosts G M (g'.release b) := by
  have hfold : ∀ {ids ids' : List SubscriptionId} (s : Subject), List.Forall₂ M.ids.Pairs ids ids' → ∀ {g g' : World κ},
      g.Hosts G M g' → (ids.foldl (fun g id => g.unsubscribe s id) g).Hosts G M
        (ids'.foldl (fun g id => g.unsubscribe s id) g') := by
    intro ids ids' s hids
    induction hids with
    | nil => exact fun h => h
    | cons hid _ ih => exact fun h => ih (h.unsubscribe s hid)
  obtain ⟨x, x', hx, hx', hmatched⟩ := h.watcher_some hab
  unfold World.release
  rw [hx, hx']
  cases hmatched with
  | object plan hsite hbound =>
    cases hbound with
    | none => exact h
    | some hb =>
      simp only [setIfInBounds_eq_modify, hb.subject]
      exact hfold _ hb.subscriptions (h.modifyWatcher hab fun _ _ _ => .object plan hsite .none)
  | collection item membership hsite hbound =>
    cases hbound with
    | none => exact h
    | some hb =>
      simp only [setIfInBounds_eq_modify, hb.collection]
      exact (h.modifyWatcher hab fun _ _ _ =>
        .collection item membership hsite .none).unsubscribeChanges _ hb.subscription

theorem Hosts.release_guest {b : WatcherId} (hb : M.watchers.Stray b) : g.Hosts G M (g'.release b) := by
  have hfold : ∀ {ids : List SubscriptionId} (s : Subject), (∀ id ∈ ids, M.ids.Stray id) → ∀ {g' : World κ},
      g.Hosts G M g' → g.Hosts G M (ids.foldl (fun g id => g.unsubscribe s id) g') := by
    intro ids s hids
    induction ids with
    | nil => exact fun h => h
    | cons id ids ih =>
      exact fun h =>
        ih (fun i hi => hids i (List.mem_cons_of_mem _ hi)) (h.unsubscribe_guest s (hids id List.mem_cons_self))
  have hguest := h.guest b hb
  unfold World.release
  cases hx : g'.watchers[b]? with
  | none => exact h
  | some x =>
    cases hguest x hx with
    | @object plan site bound hplan hsite hbound =>
      cases bound with
      | none => exact h
      | some y =>
        simp only [setIfInBounds_eq_modify]
        exact hfold _ (hbound y rfl).subscriptions (h.modifyWatcher_guest hb fun _ _ => .object hplan hsite (by simp))
    | @collection item membership site bound hitem hmembership hsite hbound =>
      cases bound with
      | none => exact h
      | some y =>
        simp only [setIfInBounds_eq_modify]
        exact (h.modifyWatcher_guest hb fun _ _ =>
          .collection hitem hmembership hsite (by simp)).unsubscribeChanges_guest _
          (hbound y rfl).subscription

theorem Hosts.unbind {a b : WatcherId} (hab : M.watchers.Pairs a b) : (g.unbind a).Hosts G M (g'.unbind b) := by
  have hnodes := h.nodes hab
  unfold World.unbind
  generalize g.nodes a = ws at hnodes ⊢
  generalize g'.nodes b = ws' at hnodes ⊢
  clear hab
  induction hnodes generalizing g g' with
  | nil => exact h
  | cons hw _ ih => exact ih (h.release hw)

theorem Hosts.unbind_guest {b : WatcherId} (hb : M.watchers.Stray b) : g.Hosts G M (g'.unbind b) := by
  have hnodes := h.nodes_guest hb
  unfold World.unbind
  generalize g'.nodes b = ws at hnodes ⊢
  clear hb
  induction ws generalizing g' with
  | nil => exact h
  | cons w ws ih =>
    exact ih (h.release_guest (hnodes w List.mem_cons_self)) fun v hv => hnodes v (List.mem_cons_of_mem _ hv)

theorem Hosts.foldl_unbind {ws ws' : List WatcherId} (hws : List.Forall₂ M.watchers.Pairs ws ws') :
    (ws.foldl World.unbind g).Hosts G M (ws'.foldl World.unbind g') := by
  induction hws generalizing g g' with
  | nil => exact h
  | cons hw _ ih => exact ih (h.unbind hw)

theorem Hosts.foldl_unbind_guest {ws : List WatcherId} (hws : ∀ w ∈ ws, M.watchers.Stray w) :
    g.Hosts G M (ws.foldl World.unbind g') := by
  induction ws generalizing g' with
  | nil => exact h
  | cons w ws ih =>
    exact ih (h.unbind_guest (hws w List.mem_cons_self)) fun v hv => hws v (List.mem_cons_of_mem _ hv)

/-! ### Trees -/

theorem Hosts.replant {ts ts' : Array (Tree κ)} (hmade : G.trees ≤ ts.size) (hforest : ts'.size = ts.size)
    (htree : ∀ t, G.trees ≤ t → Option.Rel (Tree.Matched M) ts[t]? ts'[t]?)
    (hhosted : ∀ t, t < G.trees → Option.Rel (Tree.Hosts G M) ts[t]? ts'[t]?) :
    Hosts G M { g with trees := ts } { g' with trees := ts' } where
  outline := h.outline
  known v hv := by
    have hvalue := h.known v hv
    cases v <;> exact hvalue
  next := h.next
  bound := h.bound
  notifier s := by
    have hsame := h.notifier s
    cases s <;> exact hsame
  changes := h.changes
  size := h.size
  extent := h.extent
  watcher := h.watcher
  guest := h.guest
  made := hmade
  forest := hforest
  tree := htree
  hosted := hhosted

theorem Hosts.modifyTree {t : TreeId} (ht : G.trees ≤ t) {f f' : Tree κ → Tree κ}
    (hf : ∀ x x', x.Matched M x' → (f x).Matched M (f' x')) : (g.modifyTree t f).Hosts G M (g'.modifyTree t f') := by
  refine h.replant (by simpa using h.made) (by simpa using h.forest) (fun i hi => ?_) fun i hi => ?_
  · have htree := h.tree i hi
    rw [Array.getElem?_modify, Array.getElem?_modify]
    split
    · generalize g.trees[i]? = x at htree ⊢
      generalize g'.trees[i]? = x' at htree ⊢
      cases htree with
      | none => exact .none
      | some hx => exact .some (hf _ _ hx)
    · exact htree
  · have hne : t ≠ i := (lt_of_lt_of_le hi ht).ne'
    rw [Array.getElem?_modify, Array.getElem?_modify, if_neg hne, if_neg hne]
    exact h.hosted i hi

theorem Hosts.modifyTree_guest {t : TreeId} (ht : t < G.trees) {f : Tree κ → Tree κ}
    (hf : ∀ x x' : Tree κ, x.Hosts G M x' → x.Hosts G M (f x')) : g.Hosts G M (g'.modifyTree t f) := by
  refine h.replant h.made (by simpa using h.forest) (fun i hi => ?_) fun i hi => ?_
  · rw [Array.getElem?_modify, if_neg (lt_of_lt_of_le ht hi).ne]
    exact h.tree i hi
  · have htree := h.hosted i hi
    rw [Array.getElem?_modify]
    split
    · generalize g.trees[i]? = x at htree ⊢
      generalize g'.trees[i]? = x' at htree ⊢
      cases htree with
      | none => exact .none
      | some hx => exact .some (hf _ _ hx)
    · exact htree

/-- Trees that are made later are no guests. -/
theorem Hosts.newTree (plan : WatchPlan κ) :
    Hosts G M { g with trees := g.trees.push { plan } } { g' with trees := g'.trees.push { plan } } := by
  refine h.replant (by simpa using Nat.le_succ_of_le h.made) (by simp [h.forest]) (fun i hi => ?_) fun i hi => ?_
  · rw [Array.getElem?_push, Array.getElem?_push, h.forest]
    split
    · exact .some ⟨rfl, .none, rfl⟩
    · exact h.tree i hi
  · have hne : i ≠ g.trees.size := (lt_of_lt_of_le hi h.made).ne
    rw [Array.getElem?_push, Array.getElem?_push, h.forest, if_neg hne, if_neg hne]
    exact h.hosted i hi

theorem Hosts.dispose {t : TreeId} (ht : G.trees ≤ t) : (g.dispose t).Hosts G M (g'.dispose t) := by
  have hroot := h.treeRoot ht
  unfold World.dispose
  generalize g.treeRoot t = r at hroot ⊢
  generalize g'.treeRoot t = r' at hroot ⊢
  cases hroot with
  | none => exact h
  | some hw =>
    have hbare : Hosts G M (g.modifyTree t fun x => { x with root := none })
        (g'.modifyTree t fun x => { x with root := none }) :=
      h.modifyTree ht fun x x' hx => ⟨hx.plan, .none, hx.dropped⟩
    exact hbare.unbind hw

theorem Hosts.dispose_guest {t : TreeId} (ht : t < G.trees) : g.Hosts G M (g'.dispose t) := by
  have hroot := (h.treeRoot_guest ht).2
  unfold World.dispose
  generalize g'.treeRoot t = r at hroot ⊢
  cases r with
  | none => exact h
  | some w =>
    have hbare :=
      h.modifyTree_guest ht (f := fun x => { x with root := none }) fun x x' hx => ⟨hx.idle, hx.plan, by simp⟩
    exact hbare.unbind_guest (hroot w rfl)

/-! ### What there is -/

theorem Hosts.edit {f : World κ → World κ} (hf : Edits f) : (f g).Hosts G M (f g') where
  outline := hf.outline_congr h.outline
  known v hv := hf.known g' v (h.known v hv)
  next := (hf.next g).trans h.next
  bound := (hf.next g').trans h.bound
  notifier s := by
    rw [hf.notifier, hf.notifier]
    exact h.notifier s
  changes c := by
    rw [hf.changes, hf.changes]
    exact h.changes c
  size := by rw [hf.watchers, h.size]
  extent := by rw [hf.watchers, h.extent]
  watcher a b hab := by
    rw [hf.watchers, hf.watchers]
    exact h.watcher a b hab
  guest b hb x hx := h.guest b hb x (hf.watchers g' ▸ hx)
  made := by rw [hf.trees]; exact h.made
  forest := by rw [hf.trees, hf.trees]; exact h.forest
  tree t ht := by
    rw [hf.trees, hf.trees]
    exact h.tree t ht
  hosted t ht := by
    rw [hf.trees, hf.trees]
    exact h.hosted t ht

end

/-- Guests can know of all there is. -/
def learned (M : Matching) (g : World κ) : Matching :=
  { M with known := fun v => g.hasValue v = true }

section

variable {g g' : World κ} (h : g.Hosts G M g')

include h

theorem Hosts.le_learned : M ≤ learned M g' :=
  ⟨le_rfl, le_rfl, h.known _⟩

theorem Hosts.learn : g.Hosts G (learned M g') g' := by
  have hle := h.le_learned
  exact { h with
    known := fun _ hv => hv
    notifier := fun s => (h.notifier s).mono hle
    changes := h.changes_mono hle
    watcher := fun a b hab => optionRel_mono (fun _ _ => Watcher.Matched.mono hle) (h.watcher a b hab)
    guest := fun b hb x hx => (h.guest b hb x hx).mono hle
    tree := fun t ht => optionRel_mono (fun _ _ => Tree.Matched.mono hle) (h.tree t ht)
    hosted := fun t ht => optionRel_mono (fun _ _ => Tree.Hosts.mono hle) (h.hosted t ht) }

end

end World
end LiveRules
