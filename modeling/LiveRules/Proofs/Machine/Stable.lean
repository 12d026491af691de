/-
# What holds between two words of client code

Where no watcher is being bound, the watchers of the attached trees are all
there is: they are completely bound, and each follows the value that is there
now, unless a notification for it is still to be delivered. A collection's
watcher watches the collection's members, up to the changes that are still to
be delivered to it and the removals it was told of too early.

Key definitions: `World.roots`, `World.Rooted`, `Stable`, `Leads`, `World.Retold`.
Key theorems: `Stable.agenda_congr`, `Stable.retold`, `Stable.isLive`.
-/
import LiveRules.Proofs.Machine.Binding

namespace LiveRules

variable {κ σ : Type}

/-! ### Trees -/

namespace World

/-- The watchers at the tops of the attached trees. -/
def roots (g : World κ) : List WatcherId :=
  g.trees.toList.filterMap (·.root)

theorem mem_roots {g : World κ} {r : WatcherId} :
    r ∈ g.roots ↔ ∃ (t : Nat) (x : Tree κ), g.trees[t]? = some x ∧ x.root = some r := by
  unfold roots
  rw [List.mem_filterMap]
  constructor
  · rintro ⟨x, hx, hr⟩
    obtain ⟨t, ht⟩ := List.getElem?_of_mem hx
    exact ⟨t, x, by rwa [Array.getElem?_toList] at ht, hr⟩
  · rintro ⟨t, x, hx, hr⟩
    exact ⟨x, Array.mem_toList_iff.mpr (Array.mem_of_getElem? hx), hr⟩

theorem mem_roots_iff {g : World κ} {r : WatcherId} : r ∈ g.roots ↔ ∃ t, g.treeRoot t = some r := by
  rw [mem_roots]
  exact exists_congr fun t => by simp only [treeRoot, Option.bind_eq_some_iff]

theorem mem_roots_of_treeRoot {g : World κ} {t : TreeId} {r : WatcherId} (hr : g.treeRoot t = some r) : r ∈ g.roots :=
  mem_roots_iff.mpr ⟨t, hr⟩

theorem treeRoot_congr {g g' : World κ} (h : g'.trees = g.trees) (t : TreeId) : g'.treeRoot t = g.treeRoot t := by
  unfold treeRoot
  rw [h]

theorem treeRoot_newTree (g : World κ) (plan : WatchPlan κ) (t : TreeId) :
    ({ g with trees := g.trees.push { plan } } : World κ).treeRoot t = g.treeRoot t := by
  unfold treeRoot
  rw [Array.getElem?_push]
  split
  · rename_i heq
    rw [heq, Array.getElem?_size]
    rfl
  · rfl

theorem treeRoot_giveUp (g : World κ) (t v : TreeId) :
    (g.modifyTree t fun x => { x with dropped := true }).treeRoot v = g.treeRoot v := by
  simp only [treeRoot, modifyTree, Array.getElem?_modify]
  split
  · cases g.trees[v]? <;> rfl
  · rfl

theorem treeRoot_reroot (g : World κ) (t v : TreeId) (r : Option WatcherId) :
    (g.modifyTree t fun x => { x with root := r }).treeRoot v =
      if t = v ∧ t < g.trees.size then r else g.treeRoot v := by
  simp only [treeRoot, modifyTree, Array.getElem?_modify]
  by_cases hv : t = v
  · subst hv
    by_cases hlt : t < g.trees.size
    · simp [hlt]
    · simp [hlt]
  · simp [hv]

/-- Only what is attached can be taken down. -/
theorem dispose_of_off {g : World κ} {t : TreeId} (ht : g.treeRoot t = none) : g.dispose t = g := by
  simp only [dispose, ht]

/-- Taking a tree down takes its top away and leaves the others. -/
theorem treeRoot_dispose (g : World κ) (t v : TreeId) :
    (g.dispose t).treeRoot v = if t = v then none else g.treeRoot v := by
  cases hroot : g.treeRoot t with
  | none =>
    rw [dispose_of_off hroot]
    split
    · rename_i heq
      exact heq ▸ hroot
    · rfl
  | some r =>
    have hdispose : g.dispose t = (g.modifyTree t fun x => { x with root := none }).unbind r := by
      simp only [dispose, hroot]
    have hlt : t < g.trees.size := by
      obtain ⟨x, hx, -⟩ := Option.bind_eq_some_iff.mp hroot
      exact (Array.getElem?_eq_some_iff.mp hx).1
    rw [hdispose, treeRoot_congr (unbind_trees _ r), treeRoot_reroot]
    simp only [hlt, and_true]

/-- The top of a tree is bound to the context it was attached to. -/
def Rooted (g : World κ) : Prop :=
  ∀ (t : Nat) (x : Tree κ) (r : Nat), g.trees[t]? = some x → x.root = some r →
    ∃ context b, g.watchers[r]? = some (.object x.plan { tree := t, top := r, context } (some b)) ∧
      b.subject = .object context

/-- A bound watcher hangs below a top. -/
theorem Grown.hangs {g : World κ} {tops : List WatcherId} (hg : g.Grown tops) {w : WatcherId}
    (hw : g.IsBound w) : ∃ t ∈ tops, g.Under t w := by
  induction w using Nat.strong_induction_on with
  | _ w ih =>
    rcases hg.anchored hw with htop | ⟨v, hv⟩
    · exact ⟨w, htop, .refl⟩
    · obtain ⟨t, ht, hunder⟩ := ih v (hg.older hv) (lister_bound hv)
      exact ⟨t, ht, hunder.tail hv⟩

theorem Rooted.lt_size {g : World κ} (hg : g.Rooted) {r : WatcherId} (hr : r ∈ g.roots) :
    r < g.watchers.size := by
  obtain ⟨t, x, hx, hr⟩ := mem_roots.mp hr
  obtain ⟨context, b, hw, -⟩ := hg t x r hx hr
  exact (Array.getElem?_eq_some_iff.mp hw).1

/-- A top belongs to one tree. -/
theorem Rooted.inj {g : World κ} (hg : g.Rooted) {t v : TreeId} {r : WatcherId} (ht : g.treeRoot t = some r)
    (hv : g.treeRoot v = some r) : t = v := by
  obtain ⟨x, hx, hxr⟩ := Option.bind_eq_some_iff.mp ht
  obtain ⟨y, hy, hyr⟩ := Option.bind_eq_some_iff.mp hv
  obtain ⟨c, b, hw, -⟩ := hg t x r hx hxr
  obtain ⟨c', b', hw', -⟩ := hg v y r hy hyr
  rw [hw] at hw'
  simp only [Option.some.injEq, Watcher.object.injEq, Attachment.mk.injEq] at hw'
  exact hw'.2.1.1

end World

/-! ### Deliveries -/

namespace Task

def isDelivery : Task κ → Bool
  | .deliver _ _ _ => true
  | .deliverChange _ _ _ _ => true
  | _ => false

/-- What a task is still to tell the subscription `id` has joined its collection. -/
def joins (id : SubscriptionId) : Task κ → List ObjectId
  | .deliverChange _ i _ change => if i = id then change.added else []
  | _ => []

/-- What a task is still to tell the subscription `id` has left its collection. -/
def leaves (id : SubscriptionId) : Task κ → List ObjectId
  | .deliverChange _ i _ change => if i = id then change.removed else []
  | _ => []

end Task

/-- A notification for the subscription `id` is still to be delivered. -/
def Awaited (agenda : List (Task κ)) (id : SubscriptionId) : Prop :=
  ∃ s l, Task.deliver s id l ∈ agenda

def joining (agenda : List (Task κ)) (id : SubscriptionId) : List ObjectId :=
  agenda.flatMap (Task.joins id)

def leaving (agenda : List (Task κ)) (id : SubscriptionId) : List ObjectId :=
  agenda.flatMap (Task.leaves id)

/-- What holds of a world and what is still to be done in it, when no watcher is
being bound. A subscription has missed the removals of `missed`. -/
structure Stable (g : World κ) (agenda : List (Task κ)) (missed : SubscriptionId → List ObjectId) : Prop where
  grown : g.Grown g.roots
  rooted : g.Rooted
  complete : ∀ w, g.Complete w
  fresh : ∀ {w : Nat} {plan site b}, g.watchers[w]? = some (.object plan site (some b)) →
    ∀ (i : Nat) id, b.subscriptions[i]? = some id → ¬ Awaited agenda id → g.FreshAt plan b i
  balanced : ∀ {w : Nat} {item batch site b}, g.watchers[w]? = some (.collection item batch site (some b)) →
    item.isNil = false → ∀ items, g.listOf b.collection = some items → ∀ o,
      (b.items.map (·.1)).count o + (joining agenda b.subscription).count o =
        items.count o + (missed b.subscription).count o + (leaving agenda b.subscription).count o
  calm : ∀ t ∈ agenda, t.isBinding = false
  delivers : ∀ {s id l}, Task.deliver s id l ∈ agenda → id < g.nextSubscription ∧
    ∀ t q k, (id, k) ∈ g.listeners t q → t = s ∧ k = l
  delivers_changes : ∀ {c id l change}, Task.deliverChange c id l change ∈ agenda → id < g.nextSubscription ∧
    (∀ d k, (id, k) ∈ g.listenersOfCollection d → d = c ∧ k = l) ∧ ∀ o ∈ change.added, g.hasObject o = true
  unmissed : ∀ id, g.nextSubscription ≤ id → missed id = []

/-- The machine comes, by tasks that bind, to what is stable. -/
def Leads (L : Language κ σ) (m : Machine κ σ) (missed : SubscriptionId → List ObjectId) : Prop :=
  ∃ m', Works L m m' ∧ Stable m'.world m'.agenda missed

theorem Stable.leads {L : Language κ σ} {m : Machine κ σ} {missed : SubscriptionId → List ObjectId}
    (h : Stable m.world m.agenda missed) : Leads L m missed :=
  ⟨m, .done m, h⟩

theorem joining_filter (agenda : List (Task κ)) (id : SubscriptionId) :
    joining (agenda.filter Task.isDelivery) id = joining agenda id := by
  induction agenda with
  | nil => rfl
  | cons t agenda ih =>
    rw [List.filter_cons]
    cases t <;> simp_all [Task.isDelivery, joining, Task.joins]

theorem leaving_filter (agenda : List (Task κ)) (id : SubscriptionId) :
    leaving (agenda.filter Task.isDelivery) id = leaving agenda id := by
  induction agenda with
  | nil => rfl
  | cons t agenda ih =>
    rw [List.filter_cons]
    cases t <;> simp_all [Task.isDelivery, leaving, Task.leaves]

section

variable {g : World κ} {agenda : List (Task κ)} {missed : SubscriptionId → List ObjectId}

/-- Only the deliveries of an agenda matter. -/
theorem Stable.agenda_congr (h : Stable g agenda missed) {agenda' : List (Task κ)}
    (hd : agenda'.filter Task.isDelivery = agenda.filter Task.isDelivery)
    (hcalm : ∀ t ∈ agenda', t.isBinding = false) : Stable g agenda' missed := by
  have hmem : ∀ t : Task κ, t.isDelivery = true → (t ∈ agenda' ↔ t ∈ agenda) := by
    intro t ht
    have := congrArg (t ∈ ·) hd
    simpa [List.mem_filter, ht] using this
  refine ⟨h.grown, h.rooted, h.complete, fun hw i id hid hnot => h.fresh hw i id hid ?_,
    fun hw hitem items hitems o => ?_, hcalm, fun hm => h.delivers ((hmem _ rfl).mp hm),
    fun hm => h.delivers_changes ((hmem _ rfl).mp hm), h.unmissed⟩
  · rintro ⟨s, l, hm⟩
    exact hnot ⟨s, l, (hmem _ rfl).mpr hm⟩
  · rw [← joining_filter, ← leaving_filter, hd, joining_filter, leaving_filter]
    exact h.balanced hw hitem items hitems o

theorem Stable.tail {t : Task κ} (h : Stable g (t :: agenda) missed) (ht : t.isDelivery = false) :
    Stable g agenda missed :=
  h.agenda_congr (by rw [List.filter_cons, if_neg (by simp [ht])])
    fun u hu => h.calm u (List.mem_cons_of_mem _ hu)

/-- Tasks that neither deliver nor bind may come in front. -/
theorem Stable.prepend (h : Stable g agenda missed) {tasks : List (Task κ)}
    (ht : ∀ t ∈ tasks, t.isDelivery = false ∧ t.isBinding = false) : Stable g (tasks ++ agenda) missed := by
  refine h.agenda_congr ?_ fun u hu => ?_
  · rw [List.filter_append, List.filter_eq_nil_iff.mpr fun t htm => by simp [(ht t htm).1], List.nil_append]
  · rcases List.mem_append.mp hu with hu | hu
    · exact (ht u hu).2
    · exact h.calm u hu

/-- Bound watchers belong to attached trees. -/
theorem Stable.isLive (h : Stable g agenda missed) {w : WatcherId} (hw : g.IsBound w) :
    Scene.isLive { world := g, agenda } w = true := by
  obtain ⟨r, hr, hunder⟩ := h.grown.hangs hw
  have hmem : w ∈ g.planted :=
    List.mem_flatMap.mpr ⟨r, hr, (h.grown.mem_nodes (h.rooted.lt_size hr)).mpr hunder⟩
  simp [Scene.isLive, hmem]

end

/-! ### Changes that watchers do not notice -/

namespace World

/-- `g'` has the watchers of `g`, subscribed as they were. Client code may have
come and gone. -/
structure Retold (g g' : World κ) : Prop where
  watchers : g'.watchers = g.watchers
  trees : g'.roots = g.roots
  rooted : g.Rooted → g'.Rooted
  next : g.nextSubscription ≤ g'.nextSubscription
  filed : g'.Filed
  sane : g'.Sane
  member : ∀ {s p} {id : SubscriptionId} {w i : Nat}, (id, Listener.member w i) ∈ g'.listeners s p ↔
    (id, Listener.member w i) ∈ g.listeners s p
  membership : ∀ {c} {id : SubscriptionId} {w : Nat},
    (id, ChangeListener.membership w) ∈ g'.listenersOfCollection c ↔
      (id, ChangeListener.membership w) ∈ g.listenersOfCollection c
  old : ∀ {s p e}, e ∈ g'.listeners s p → e ∈ g.listeners s p ∨ g.nextSubscription ≤ e.1
  oldChanges : ∀ {c e}, e ∈ g'.listenersOfCollection c → e ∈ g.listenersOfCollection c ∨ g.nextSubscription ≤ e.1
  known : ∀ {v}, g.hasValue v = true → g'.hasValue v = true
  home : ∀ {s} p, g.hasValue s.value = true → g'.home s p = g.home s p

theorem Retold.grown {g g' : World κ} {tops : List WatcherId} (h : Retold g g') (hg : g.Grown tops) :
    g'.Grown tops := by
  have hlisted : ∀ w, g'.listed w = g.listed w := by
    intro w
    unfold listed
    rw [h.watchers]
  have hids : ∀ w, g'.idsOf w = g.idsOf w := by
    intro w
    unfold idsOf
    rw [h.watchers]
  have hget : ∀ {w : Nat} {x}, g'.watchers[w]? = some x → g.watchers[w]? = some x := by
    intro w x hx
    rwa [h.watchers] at hx
  have hsubject : ∀ {w i : Nat} {id t p batch}, g.Subscribed w i id t p batch → g.hasValue t.value = true := by
    rintro w i id t p batch ⟨plan, site, b, hw, -, -, rfl⟩
    exact hg.known hw rfl
  have hsub : ∀ {w i : Nat} {id t p batch}, g'.Subscribed w i id t p batch ↔ g.Subscribed w i id t p batch := by
    intro w i id t p batch
    unfold Subscribed
    rw [h.watchers]
  constructor
  case toLedger =>
    constructor
    case filed => exact h.filed
    case member =>
      intro s p id w i
      rw [h.member, hg.member]
      refine exists_congr fun t => exists_congr fun batch => ?_
      rw [hsub]
      exact and_congr_right fun hsubscribed => by rw [h.home p (hsubject hsubscribed)]
    case membership =>
      intro c id w
      rw [h.membership, hg.membership, h.watchers]
    case fits => exact fun hw => hg.fits (hget hw)
    case known => exact fun hw ht => h.known (hg.known (hget hw) ht)
  case toShaped =>
    constructor
    case paired => exact fun hw => hg.paired (hget hw)
    case posts => exact fun hw i c hc => (hg.posts (hget hw) i c hc).mono fun hx => ⟨_, by rwa [h.watchers], rfl⟩
    case items =>
      intro w item batch site b hw e he
      rw [h.watchers]
      exact hg.items (hget hw) e he
    case nodup =>
      intro w
      rw [hlisted]
      exact hg.nodup w
    case single =>
      intro v w c hv hw
      rw [hlisted] at hv hw
      exact hg.single hv hw
    case older =>
      intro w c hc
      rw [hlisted] at hc
      exact hg.older hc
  case sane => exact h.sane
  case anchored =>
    rintro w ⟨x, hx, ht⟩
    refine (hg.anchored ⟨x, hget hx, ht⟩).imp id fun ⟨v, hv⟩ => ⟨v, ?_⟩
    rwa [hlisted]
  case topmost =>
    intro w v hw hv
    rw [hlisted] at hv
    exact hg.topmost hw hv
  case children_younger =>
    intro w plan site b hw i c id hc hid k hk
    rw [hids] at hk
    exact hg.children_younger (hget hw) i c id hc hid k hk
  case items_younger =>
    intro w item batch site b hw e he k hk
    rw [hids] at hk
    exact hg.items_younger (hget hw) e he k hk

theorem Retold.complete {g g' : World κ} (h : Retold g g') {w : WatcherId} (hw : g.Complete w) : g'.Complete w := by
  refine ⟨fun hb => hw.plan (by rwa [h.watchers] at hb), fun hb e he => ?_⟩
  rw [h.watchers] at hb ⊢
  exact hw.items hb e he

theorem Retold.fresh {g g' : World κ} (h : Retold g g') {plan : WatchPlan κ} {b : BoundObject} {i : Nat}
    (hb : g.FreshAt plan b i)
    (hval : ∀ name batch, plan.place? i = some (name, batch) →
      g'.memberValue b.subject name = g.memberValue b.subject name) : g'.FreshAt plan b i := by
  intro c name batch hc hentry
  obtain ⟨x, hx, ht⟩ := hb c name batch hc hentry
  refine ⟨x, by rwa [h.watchers], ?_⟩
  rw [hval name batch hentry]
  exact ht

end World

section

variable {g g' : World κ} {agenda : List (Task κ)} {missed : SubscriptionId → List ObjectId}

/-- Deliveries still find who they are for, if anybody, as long as what is entered anew has
new ids. -/
theorem Stable.delivers_after (h : Stable g agenda missed) (hnext : g.nextSubscription ≤ g'.nextSubscription)
    (hold : ∀ {s p e}, e ∈ g'.listeners s p → e ∈ g.listeners s p ∨ g.nextSubscription ≤ e.1) {s id l}
    (hm : Task.deliver s id l ∈ agenda) : id < g'.nextSubscription ∧
      ∀ t q k, (id, k) ∈ g'.listeners t q → t = s ∧ k = l := by
  obtain ⟨hlt, hfind⟩ := h.delivers hm
  refine ⟨lt_of_lt_of_le hlt hnext, fun t q k hk => ?_⟩
  rcases hold hk with hk | hnew
  · exact hfind t q k hk
  · exact absurd hlt (not_lt.mpr hnew)

theorem Stable.delivers_changes_after (h : Stable g agenda missed) (hnext : g.nextSubscription ≤ g'.nextSubscription)
    (hold : ∀ {c e}, e ∈ g'.listenersOfCollection c → e ∈ g.listenersOfCollection c ∨ g.nextSubscription ≤ e.1)
    (hknown : ∀ {v}, g.hasValue v = true → g'.hasValue v = true) {c id l change}
    (hm : Task.deliverChange c id l change ∈ agenda) : id < g'.nextSubscription ∧
      (∀ d k, (id, k) ∈ g'.listenersOfCollection d → d = c ∧ k = l) ∧ ∀ o ∈ change.added, g'.hasObject o = true := by
  obtain ⟨hlt, hfind, hadded⟩ := h.delivers_changes hm
  refine ⟨lt_of_lt_of_le hlt hnext, fun d k hk => ?_, fun o ho => hknown (v := .object o) (hadded o ho)⟩
  rcases hold hk with hk | hnew
  · exact hfind d k hk
  · exact absurd hlt (not_lt.mpr hnew)

theorem joining_append (agenda agenda' : List (Task κ)) (id : SubscriptionId) :
    joining (agenda ++ agenda') id = joining agenda id ++ joining agenda' id :=
  List.flatMap_append

theorem leaving_append (agenda agenda' : List (Task κ)) (id : SubscriptionId) :
    leaving (agenda ++ agenda') id = leaving agenda id ++ leaving agenda' id :=
  List.flatMap_append

/-- **What everybody is told of** may change: all who watch it are on the list of those
to be told. -/
theorem Stable.told (h : Stable g agenda missed) (hr : World.Retold g g') {tasks : List (Task κ)}
    (hcalm : ∀ t ∈ tasks, t.isBinding = false)
    (hdeliver : ∀ {s id l}, Task.deliver s id l ∈ tasks → ∃ p, (id, l) ∈ g.listeners s p)
    (hchange : ∀ {c id l change}, Task.deliverChange c id l change ∈ tasks →
      (id, l) ∈ g.listenersOfCollection c ∧ ∀ o ∈ change.added, g.hasObject o = true)
    (hval : ∀ {w i : Nat} {id s p batch}, g.Subscribed w i id s p batch →
      Awaited tasks id ∨ g'.memberValue s p = g.memberValue s p)
    (hlist : ∀ {w : Nat} {item batch site b}, g.watchers[w]? = some (.collection item batch site (some b)) →
      ∀ items', g'.listOf b.collection = some items' → ∃ items, g.listOf b.collection = some items ∧
        ∀ o, items'.count o + (leaving tasks b.subscription).count o =
          items.count o + (joining tasks b.subscription).count o) : Stable g' (tasks ++ agenda) missed := by
  constructor
  case grown =>
    rw [hr.trees]
    exact hr.grown h.grown
  case rooted => exact hr.rooted h.rooted
  case complete => exact fun w => hr.complete (h.complete w)
  case fresh =>
    intro w plan site b hw i id hid hnot
    rw [hr.watchers] at hw
    obtain ⟨p, batch, hentry, -⟩ := h.grown.exists_entry hw hid
    have hsame : g'.memberValue b.subject p = g.memberValue b.subject p := by
      refine (hval ⟨plan, site, b, hw, hid, hentry, rfl⟩).resolve_left ?_
      rintro ⟨s, l, hm⟩
      exact hnot ⟨s, l, List.mem_append_left _ hm⟩
    refine hr.fresh (h.fresh hw i id hid fun ⟨s, l, hm⟩ => hnot ⟨s, l, List.mem_append_right _ hm⟩) ?_
    intro name batch' hentry'
    rw [hentry] at hentry'
    cases hentry'
    exact hsame
  case balanced =>
    intro w item batch site b hw hitem items' hitems' o
    rw [hr.watchers] at hw
    obtain ⟨items, hitems, hcount⟩ := hlist hw items' hitems'
    have hbal := h.balanced hw hitem items hitems o
    have := hcount o
    rw [joining_append, leaving_append, List.count_append, List.count_append]
    omega
  case calm => exact fun t ht => (List.mem_append.mp ht).elim (hcalm t) (h.calm t)
  case delivers =>
    intro s id l hm
    rcases List.mem_append.mp hm with hm | hm
    · obtain ⟨p, hp⟩ := hdeliver hm
      have hlt := h.grown.filed.older s p _ hp
      refine ⟨lt_of_lt_of_le hlt hr.next, fun t q k hk => ?_⟩
      rcases hr.old hk with hk | hnew
      · obtain ⟨hs, -, hl⟩ := h.grown.filed.entry hk hp
        exact ⟨hs, hl⟩
      · exact absurd hlt (not_lt.mpr hnew)
    · exact h.delivers_after hr.next hr.old hm
  case delivers_changes =>
    intro c id l change hm
    rcases List.mem_append.mp hm with hm | hm
    · obtain ⟨hp, hadded⟩ := hchange hm
      have hlt := h.grown.filed.changesOlder c _ hp
      refine ⟨lt_of_lt_of_le hlt hr.next, fun d k hk => ?_, fun o ho => hr.known (v := .object o) (hadded o ho)⟩
      rcases hr.oldChanges hk with hk | hnew
      · exact h.grown.filed.changesEntry hk hp
      · exact absurd hlt (not_lt.mpr hnew)
    · exact h.delivers_changes_after hr.next hr.oldChanges hr.known hm
  case unmissed => exact fun id hid => h.unmissed id (hr.next.trans hid)

/-- What watchers do not notice leaves all as it was. -/
theorem Stable.retold (h : Stable g agenda missed) (hr : World.Retold g g')
    (hval : ∀ s p, g.hasValue s.value = true → g'.memberValue s p = g.memberValue s p)
    (hlist : ∀ c, g.hasValue (.collection c) = true → g'.listOf c = g.listOf c) : Stable g' agenda missed := by
  have htold : Stable g' ([] ++ agenda) missed := by
    refine h.told hr (by simp) (by simp) (by simp) ?_ ?_
    · rintro w i id s p batch ⟨plan, site, b, hw, -, -, rfl⟩
      exact Or.inr (hval _ p (h.grown.known hw rfl))
    · intro w item batch site b hw items' hitems'
      exact ⟨items', by rwa [← hlist _ (h.grown.known hw rfl)], fun o => rfl⟩
  exact htold

end

end LiveRules
