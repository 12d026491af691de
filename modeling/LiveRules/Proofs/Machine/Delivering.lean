/-
# Delivering keeps the watchers in step

A notification that reaches a watcher makes it follow the new value; one that
reaches a collection's watcher makes it take out one watched member for each
that left, if it still watches one, and watch those that joined. Afterwards the
notification is not awaited any more, and nothing is.

Key definitions: `World.refollow`, `World.lost`.
Key theorems: `Stable.rebind`, `Stable.deliver_member`, `Stable.deliver_membership`,
`Stable.deliver_news`.
-/
import LiveRules.Proofs.Machine.Stable
import LiveRules.Proofs.Watching.Regather

namespace LiveRules

variable {κ σ : Type} {L : Language κ σ} {g : World κ} {rest : List (Task κ)}
  {missed : SubscriptionId → List ObjectId}

/-! ### A property -/

/-- Nothing is pending for a subscription that is not made yet. -/
theorem Stable.nothing_pending (h : Stable g rest missed) {id : SubscriptionId} (hid : g.nextSubscription ≤ id) :
    joining rest id = [] ∧ leaving rest id = [] := by
  have hnone : ∀ t ∈ rest, Task.joins id t = [] ∧ Task.leaves id t = [] := by
    intro t ht
    cases t with
    | deliverChange c i l change =>
      have hne : i ≠ id := ne_of_lt (lt_of_lt_of_le (h.delivers_changes ht).1 hid)
      simp [Task.joins, Task.leaves, hne]
    | _ => exact ⟨rfl, rfl⟩
  exact ⟨List.flatMap_eq_nil_iff.mpr fun t ht => (hnone t ht).1,
    List.flatMap_eq_nil_iff.mpr fun t ht => (hnone t ht).2⟩

theorem awaited_cons {s : Subject} {id k : SubscriptionId} {l : Listener κ} (hne : k ≠ id)
    (hk : Awaited (.deliver s id l :: rest) k) : Awaited rest k := by
  obtain ⟨t, m, hm⟩ := hk
  rcases List.mem_cons.mp hm with heq | hm
  · cases heq
    exact absurd rfl hne
  · exact ⟨t, m, hm⟩

/-- A subscription of a watcher stands at one place of its plan only. -/
theorem World.Ledger.same_place (hg : g.Ledger) {w v : Nat} {plan site b plan' site' b'}
    (hw : g.watchers[w]? = some (.object plan site (some b)))
    (hv : g.watchers[v]? = some (.object plan' site' (some b'))) {i j : Nat} {id : SubscriptionId}
    (hi : b.subscriptions[i]? = some id) (hj : b'.subscriptions[j]? = some id) : w = v ∧ i = j := by
  obtain ⟨p, batch, -, hm⟩ := hg.exists_entry hw hi
  obtain ⟨q, batch', -, hn⟩ := hg.exists_entry hv hj
  have := (hg.filed.entry hm hn).2.2
  cases this
  exact ⟨rfl, rfl⟩

theorem eq_of_reduceOption_nodup {c : WatcherId} :
    ∀ (l : List (Option WatcherId)) {i j : Nat}, l.reduceOption.Nodup → l[i]? = some (some c) →
      l[j]? = some (some c) → i = j := by
  intro l
  induction l with
  | nil => simp
  | cons a l ih =>
    intro i j hl hi hj
    have hmem : ∀ {n : Nat}, l[n]? = some (some c) → c ∈ l.reduceOption :=
      fun hn => List.reduceOption_mem_iff.mpr (List.mem_of_getElem? hn)
    cases a with
    | none =>
      rw [List.reduceOption_cons_of_none] at hl
      cases i <;> cases j <;> simp at hi hj
      rw [ih hl hi hj]
    | some a =>
      rw [List.reduceOption_cons_of_some, List.nodup_cons] at hl
      cases i with
      | zero =>
        obtain rfl : a = c := by simpa using hi
        cases j with
        | zero => rfl
        | succ j => exact absurd (hmem hj) hl.1
      | succ i =>
        cases j with
        | zero =>
          obtain rfl : a = c := by simpa using hj
          exact absurd (hmem hi) hl.1
        | succ j => rw [ih hl.2 hi hj]

/-- The watcher at a place of a plan is posted nowhere else. -/
theorem World.Shaped.same_child (hg : g.Shaped) {w v : Nat} {plan site b plan' site' b'}
    (hw : g.watchers[w]? = some (.object plan site (some b)))
    (hv : g.watchers[v]? = some (.object plan' site' (some b'))) {i j c : Nat}
    (hi : b.children[i]? = some (some c)) (hj : b'.children[j]? = some (some c)) : w = v ∧ i = j := by
  have hcw : c ∈ g.listed w := by
    rw [World.listed_of_get hw]
    exact List.reduceOption_mem_iff.mpr (List.mem_of_getElem? hi)
  have hcv : c ∈ g.listed v := by
    rw [World.listed_of_get hv]
    exact List.reduceOption_mem_iff.mpr (List.mem_of_getElem? hj)
  obtain rfl := hg.single hcw hcv
  rw [hw] at hv
  cases hv
  refine ⟨rfl, ?_⟩
  have hnodup := hg.nodup w
  rw [World.listed_of_get hw] at hnodup
  exact eq_of_reduceOption_nodup b.children hnodup hi hj

/-- What a settled collection's watcher watches is balanced, if nothing is pending
for its subscription. -/
theorem balanced_of_settled {w : Nat} {item batch site b} (hs : g.Settled w)
    (hw : g.watchers[w]? = some (.collection item batch site (some b))) (hitem : item.isNil = false)
    {items : List ObjectId} (hitems : g.listOf b.collection = some items) : b.items.map (·.1) = items := by
  have hgathered := hs.gathered hw
  rw [World.wanted, hitem] at hgathered
  exact hgathered.trans (World.itemsOf_of_listOf hitems)

/-- **Following the new value** of a property makes up for one notification. -/
theorem Stable.rebind {s : Subject} {id : SubscriptionId} {l : Listener κ}
    (h : Stable g (.deliver s id l :: rest) missed) {w : Nat} {plan site b}
    (hw : g.watchers[w]? = some (.object plan site (some b))) {i : Nat}
    (hid : b.subscriptions[i]? = some id) {c : Nat} {name : String} {batch : Batch κ}
    (hc : b.children[i]? = some (some c)) (hentry : plan.place? i = some (name, batch)) :
    Stable (g.rebind c (g.memberValue b.subject name)) rest missed := by
  have hg := h.grown
  have hcw : c ∈ g.listed w := by
    rw [World.listed_of_get hw]
    exact List.reduceOption_mem_iff.mpr (List.mem_of_getElem? hc)
  have hclt : c < g.watchers.size := hg.lt_of_mem_listed hcw
  have hreb := hg.rebind (fun t ht => h.rooted.lt_size ht) hclt (Or.inr ⟨w, hcw⟩)
    (hg.sane.hasValue_memberValue b.subject name)
  set g' := g.rebind c (g.memberValue b.subject name) with hg'
  have hcself : c ∈ g.nodes c := (hg.mem_nodes hclt).mpr .refl
  have hroots : g'.roots = g.roots := by
    unfold World.roots
    rw [hreb.trees]
  constructor
  case grown =>
    rw [hroots]
    exact hreb.grown
  case rooted =>
    intro t x r hx hr
    rw [hreb.trees] at hx
    obtain ⟨context, b', hr', hb'⟩ := h.rooted t x r hx hr
    refine ⟨context, b', ?_, hb'⟩
    have hroot : r ∈ g.roots := World.mem_roots.mpr ⟨t, x, hx, hr⟩
    rw [hreb.top_kept hg hclt hroot (fun heq => hg.topmost hroot (heq ▸ hcw)) (h.rooted.lt_size hroot)]
    exact hr'
  case complete =>
    intro x
    constructor
    case plan =>
      intro plan' site' b' hb'
      rcases hreb.kept hb' rfl with hnew | ⟨-, -, hold⟩
      · exact (hreb.settled_new hb' hnew).plan hb'
      · exact (h.complete x).plan hold
    case items =>
      intro item batch' site' b' hb' e he
      rcases hreb.kept hb' rfl with hnew | ⟨-, hnot, hold⟩
      · exact (hreb.settled_new hb' hnew).items hb' e he
      · obtain ⟨y, hy, ht⟩ := (h.complete x).items hold e he
        have hmem : e.2 ∈ g.listed x := by
          rw [World.listed_of_get hold]
          exact List.mem_map_of_mem he
        refine ⟨y, ?_, ht⟩
        rw [hreb.listed_kept hg.toShaped hclt hnot hmem, hy]
        -- the rebound watcher follows a property, not a member
        intro heq
        rw [heq] at hmem
        rw [hg.single hcw hmem, hold] at hw
        cases hw
  case fresh =>
    intro x plan' site' b' hb' j k hk hnot
    rcases hreb.kept hb' rfl with hnew | ⟨-, hnodes, hold⟩
    · exact (hreb.settled_new hb' hnew).fresh hb' j
    · intro d name' batch' hd hentry'
      rw [World.memberValue_congr hreb.outline]
      by_cases hdc : d = c
      · subst hdc
        obtain ⟨rfl, rfl⟩ := hg.same_child hold hw hd hc
        rw [hold] at hw
        cases hw
        rw [hentry] at hentry'
        cases hentry'
        obtain ⟨y, hy⟩ : ∃ y, g.watchers[d]? = some y := ⟨_, Array.getElem?_eq_getElem hclt⟩
        obtain ⟨z, hz, hzd, ht⟩ := hreb.self y hy
        refine ⟨z, hz, ht.trans ?_⟩
        cases y <;> cases z <;> first | rfl | cases hzd
      · have hkid : k ≠ id := by
          rintro rfl
          obtain ⟨rfl, rfl⟩ := hg.same_place hold hw hk hid
          rw [hold] at hw
          cases hw
          rw [hc] at hd
          cases hd
          exact hdc rfl
        obtain ⟨y, hy, ht⟩ := h.fresh hold j k hk (fun ha => hnot (awaited_cons hkid ha)) d name' batch' hd hentry'
        have hmem : d ∈ g.listed x := by
          rw [World.listed_of_get hold]
          exact List.reduceOption_mem_iff.mpr (List.mem_of_getElem? hd)
        exact ⟨y, by rw [hreb.listed_kept hg.toShaped hclt hnodes hmem hdc, hy], ht⟩
  case balanced =>
    intro x item batch' site' b' hb' hitem items hitems o
    rcases hreb.kept hb' rfl with hnew | ⟨-, -, hold⟩
    · have hm : (b'.subscription, ChangeListener.membership x) ∈ g'.listenersOfCollection b'.collection :=
        hreb.grown.membership.mpr ⟨item, batch', site', b', hb', rfl, rfl⟩
      have hle := hreb.next_le hg.toLedger hcself hnew hm
      have hpending := h.nothing_pending hle
      have hj : joining rest b'.subscription = [] := hpending.1
      have hl : leaving rest b'.subscription = [] := hpending.2
      rw [balanced_of_settled (hreb.settled_new hb' hnew) hb' hitem hitems, hj, hl, h.unmissed _ hle]
      rfl
    · rw [World.listOf_congr hreb.outline] at hitems
      exact h.balanced hold hitem items hitems o
  case calm => exact fun t ht => h.calm t (List.mem_cons_of_mem _ ht)
  case delivers => exact fun hm => h.delivers_after hreb.next hreb.old (List.mem_cons_of_mem _ hm)
  case delivers_changes =>
    exact fun hm => h.delivers_changes_after hreb.next hreb.oldChanges
      (fun hv => (World.hasValue_congr hreb.outline _).trans hv) (List.mem_cons_of_mem _ hm)
  case unmissed => exact fun k hk => h.unmissed k (hreb.next.trans hk)

/-- A notification may be dropped if no watcher waits for it. -/
theorem Stable.drop_deliver {s : Subject} {id : SubscriptionId} {l : Listener κ}
    (h : Stable g (.deliver s id l :: rest) missed)
    (hnone : ∀ {w : Nat} {plan site b}, g.watchers[w]? = some (.object plan site (some b)) →
      ∀ (i : Nat) c, b.subscriptions[i]? = some id → b.children[i]? ≠ some (some c)) : Stable g rest missed := by
  refine { h with
    fresh := fun {w plan site b} hw i k hk hnot => ?_
    balanced := h.balanced
    calm := fun t ht => h.calm t (List.mem_cons_of_mem _ ht)
    delivers := fun hm => h.delivers (List.mem_cons_of_mem _ hm)
    delivers_changes := fun hm => h.delivers_changes (List.mem_cons_of_mem _ hm) }
  by_cases hkid : k = id
  · subst hkid
    exact fun c name batch hc => absurd hc (hnone hw i c hk)
  · exact h.fresh hw i k hk fun ha => hnot (awaited_cons hkid ha)

/-- The watcher at the `i`th property, if its value is looked into. -/
def BoundObject.child? (b : BoundObject) (i : Nat) : Option WatcherId :=
  b.children[i]?.bind id

theorem BoundObject.child?_eq_some {b : BoundObject} {i : Nat} {c : WatcherId} :
    b.child? i = some c ↔ b.children[i]? = some (some c) := by
  unfold child?
  cases b.children[i]? <;> simp

/-- The watcher at the `i`th property follows the value that is there now. -/
def World.refollow (g : World κ) (b : BoundObject) (i : Nat) (name : String) : World κ :=
  (b.child? i).elim g fun c => g.rebind c (g.memberValue b.subject name)

/-- What comes after a watcher has followed a new value. -/
def firing (site : Attachment) (batch : Batch κ) (s : Subject) (w : WatcherId) : List (Task κ) :=
  [.fire site batch, .release (.value s.value), .release (.watcher w)]

theorem firing_idle (site : Attachment) (batch : Batch κ) (s : Subject) (w : WatcherId) :
    ∀ t ∈ firing site batch s w, t.isDelivery = false ∧ t.isBinding = false := by
  simp [firing, Task.isDelivery, Task.isBinding]

/-- What a client is told causes. -/
def Task.isClient : Task κ → Bool
  | .request _ => true
  | .release _ => true
  | _ => false

section

variable {s : Subject} {id : SubscriptionId} {l : Listener κ} (st : σ)

theorem Stable.listener_of_live (h : Stable g (.deliver s id l :: rest) missed)
    (hlive : (g.notifierOf s).isLive id = true) : ∃ p, (id, l) ∈ g.listeners s p := by
  obtain ⟨p, k, hk⟩ := (Notifier.isLive_iff (h.grown.filed.agrees s)).mp hlive
  have := ((h.delivers List.mem_cons_self).2 s p k hk).2
  exact ⟨p, this ▸ hk⟩

/-- **Delivering to a watcher**: what it watches follows the new value, and then its
batch is to be fired. -/
theorem Stable.deliver_member (h : Stable g (.deliver s id l :: rest) missed) {w i : Nat} {p : String}
    (hm : (id, Listener.member w i) ∈ g.listeners s p) :
    ∃ plan site b batch, g.watchers[w]? = some (.object plan site (some b)) ∧ b.subscriptions[i]? = some id ∧
      plan.place? i = some (p, batch) ∧ g.home b.subject p = s ∧
      Works L (L.step (machine g (.deliver s id l :: rest) st))
        (machine (g.refollow b i p) (firing site batch b.subject w ++ rest) st) ∧
      Stable (g.refollow b i p) rest missed := by
  obtain rfl : Listener.member w i = l := ((h.delivers List.mem_cons_self).2 _ _ _ hm).2
  obtain ⟨t, batch, ⟨plan, site, b, hw, hid, hentry, rfl⟩, hhome⟩ := h.grown.member.mp hm
  refine ⟨plan, site, b, batch, hw, hid, hentry, hhome, ?_, ?_⟩
  · have hlive : (g.notifierOf s).isLive id = true :=
      (Notifier.isLive_iff (h.grown.filed.agrees s)).mpr ⟨p, _, hm⟩
    have hwlive : Scene.isLive { world := g, agenda := .deliver s id (.member w i) :: rest } w = true :=
      h.isLive ⟨_, hw, rfl⟩
    have hstep : L.step (machine g (.deliver s id (.member w i) :: rest) st) =
        machine g (((b.child? i).toList.map fun c => .bind c (g.memberValue b.subject p)) ++
          firing site batch b.subject w ++ rest) st := by
      simp only [Language.step, machine, Language.carry, Scene.deliver, hlive, hwlive, if_true,
        World.memberChanged, hw, hentry, firing, BoundObject.child?]
    rw [hstep]
    unfold World.refollow
    cases hc : b.child? i with
    | none => exact .done _
    | some c =>
      have hc' := BoundObject.child?_eq_some.mp hc
      have hcw : c ∈ g.listed w := by
        rw [World.listed_of_get hw]
        exact List.reduceOption_mem_iff.mpr (List.mem_of_getElem? hc')
      have hclt := h.grown.lt_of_mem_listed hcw
      exact works_bind h.grown.sane ((h.grown.unbind hclt).2.size ▸ hclt) _ _ st
  · unfold World.refollow
    cases hc : b.child? i with
    | none =>
      refine h.drop_deliver fun {v plan' site' b'} hv j c hj hcj => ?_
      obtain ⟨rfl, rfl⟩ := h.grown.same_place hv hw hj hid
      rw [hv] at hw
      cases hw
      rw [BoundObject.child?_eq_some.mpr hcj] at hc
      cases hc
    | some c => exact h.rebind hw hid (BoundObject.child?_eq_some.mp hc) hentry

/-- Delivering to anybody else leaves the world as it is, and runs client code at
most. -/
theorem Stable.deliver_other (h : Stable g (.deliver s id l :: rest) missed)
    (hother : ∀ w i p, (id, Listener.member w i) ∉ g.listeners s p) :
    (∃ tasks, L.step (machine g (.deliver s id l :: rest) st) = machine g (tasks ++ rest) st ∧
      ∀ t ∈ tasks, t.isClient = true) ∧ Stable g rest missed := by
  constructor
  · set scene : Scene κ := { world := g, agenda := .deliver s id l :: rest } with hscene
    refine ⟨scene.deliver s id l, rfl, ?_⟩
    unfold Scene.deliver
    intro t ht
    simp only at ht
    split at ht
    · rename_i hlive
      obtain ⟨p, hp⟩ := h.listener_of_live hlive
      cases l with
      | member w i => exact absurd hp (hother w i p)
      | code k context =>
        cases context with
        | none =>
          obtain rfl := List.mem_singleton.mp ht
          rfl
        | some o =>
          simp only at ht
          split at ht
          · rcases List.mem_cons.mp ht with rfl | ht
            · rfl
            · obtain rfl := List.mem_singleton.mp ht
              rfl
          · cases ht
    · cases ht
  · refine h.drop_deliver fun {w plan site b} hw i c hi _ => ?_
    obtain ⟨p, batch, -, hm⟩ := h.grown.exists_entry hw hi
    obtain ⟨hs, -⟩ := (h.delivers List.mem_cons_self).2 _ _ _ hm
    exact hother w i p (hs ▸ hm)

end

/-! ### A collection -/

/-- The members that `w` is told have left under the subscription `id`, and that it
does not watch though it watches the members of a collection that keeps account of
them. -/
def World.lost (g : World κ) (w : WatcherId) (id : SubscriptionId) (change : Change) : List ObjectId :=
  match g.watchers[w]? with
  | some (.collection item _ _ (some b)) =>
    if b.subscription = id && !item.isNil && (g.listOf b.collection).isSome then
      change.removed.diff (b.items.map (·.1))
    else []
  | _ => []

/-- What `missed` becomes when `lost` is missed under `id`. -/
def missing (missed : SubscriptionId → List ObjectId) (id : SubscriptionId) (lost : List ObjectId) :
    SubscriptionId → List ObjectId :=
  fun k => missed k ++ if k = id then lost else []

section

variable {c : CollectionId} {id : SubscriptionId} {l : ChangeListener κ} {change : Change} (st : σ)

theorem awaited_change {k : SubscriptionId} :
    Awaited (.deliverChange c id l change :: rest) k ↔ Awaited rest k := by
  constructor
  · rintro ⟨s, m, hm⟩
    rcases List.mem_cons.mp hm with heq | hm
    · cases heq
    · exact ⟨s, m, hm⟩
  · rintro ⟨s, m, hm⟩
    exact ⟨s, m, List.mem_cons_of_mem _ hm⟩

theorem joining_change {k : SubscriptionId} :
    joining (.deliverChange c id l change :: rest) k = (if id = k then change.added else []) ++ joining rest k := rfl

theorem leaving_change {k : SubscriptionId} :
    leaving (.deliverChange c id l change :: rest) k = (if id = k then change.removed else []) ++ leaving rest k := rfl

/-- The news of a change may be dropped if no watcher waits for it. -/
theorem Stable.drop_change (h : Stable g (.deliverChange c id l change :: rest) missed)
    (hnone : ∀ w, (id, ChangeListener.membership w) ∉ g.listenersOfCollection c) (lost : List ObjectId) :
    Stable g rest (missing missed id lost) := by
  refine { h with
    fresh := fun hw i k hk hnot => h.fresh hw i k hk fun ha => hnot (awaited_change.mp ha)
    balanced := fun {w item batch site b} hw hitem items hitems o => ?_
    calm := fun t ht => h.calm t (List.mem_cons_of_mem _ ht)
    delivers := fun hm => h.delivers (List.mem_cons_of_mem _ hm)
    delivers_changes := fun hm => h.delivers_changes (List.mem_cons_of_mem _ hm)
    unmissed := fun k hk => ?_ }
  · have hm : (b.subscription, ChangeListener.membership w) ∈ g.listenersOfCollection b.collection :=
      h.grown.membership.mpr ⟨item, batch, site, b, hw, rfl, rfl⟩
    have hne : b.subscription ≠ id := by
      intro heq
      obtain ⟨hc, -⟩ := (h.delivers_changes List.mem_cons_self).2.1 _ _ (heq ▸ hm)
      exact hnone w (by rw [← hc, ← heq]; exact hm)
    have hbal := h.balanced hw hitem items hitems o
    rw [joining_change, leaving_change, if_neg (Ne.symm hne), if_neg (Ne.symm hne)] at hbal
    simpa [missing, hne] using hbal
  · have hne : k ≠ id := ne_of_gt (lt_of_lt_of_le (h.delivers_changes List.mem_cons_self).1 hk)
    simp [missing, hne, h.unmissed k hk]

/-- **Taking a change in** makes up for one piece of news. -/
theorem Stable.regather (h : Stable g (.deliverChange c id l change :: rest) missed) {w : Nat} {item batch site b}
    (hw : g.watchers[w]? = some (.collection item batch site (some b))) (hid : b.subscription = id) :
    Stable (g.regather w item site b change) rest (missing missed id (g.lost w id change)) := by
  have hg := h.grown
  have hwlt : w < g.watchers.size := (Array.getElem?_eq_some_iff.mp hw).1
  have hadded := (h.delivers_changes List.mem_cons_self).2.2
  have hre := hg.regather (fun t ht => h.rooted.lt_size ht) hw (h.complete w) hadded
  set g' := g.regather w item site b change with hg'
  obtain ⟨joined, hbooks, hjoined, -⟩ := hre.books
  have hroots : g'.roots = g.roots := by
    unfold World.roots
    rw [hre.trees]
  have hcases : ∀ {x : Nat} {y : Watcher κ}, g'.watchers[x]? = some y → y.target.isSome = true →
      x = w ∨ g'.Settled x ∧ g.watchers.size ≤ x ∨ x ≠ w ∧ g.watchers[x]? = some y ∧
        ∀ d ∈ g.listed x, d ≠ w → g'.watchers[d]? = g.watchers[d]? := by
    intro x y hx ht
    by_cases hxw : x = w
    · exact Or.inl hxw
    · rcases lt_or_ge x g.watchers.size with hlt | hge
      · exact Or.inr (Or.inr ⟨hxw, hre.kept hx ht hxw hlt⟩)
      · exact Or.inr (Or.inl ⟨hre.settled x hge (Array.getElem?_eq_some_iff.mp hx).1, hge⟩)
  constructor
  case grown =>
    rw [hroots]
    exact hre.grown
  case rooted =>
    intro t x r hx hr
    rw [hre.trees] at hx
    obtain ⟨context, b', hr', hb'⟩ := h.rooted t x r hx hr
    have hroot : r ∈ g.roots := World.mem_roots.mpr ⟨t, x, hx, hr⟩
    refine ⟨context, b', ?_, hb'⟩
    rw [hre.top_kept r hroot (h.rooted.lt_size hroot), hr']
    rintro rfl
    rw [hw] at hr'
    cases hr'
  case complete =>
    intro x
    by_cases hxw : x = w
    · exact hxw ▸ hre.complete
    constructor
    case plan =>
      intro plan site' b' hb'
      rcases hcases hb' rfl with heq | ⟨hs, -⟩ | ⟨-, hold, -⟩
      · exact absurd heq hxw
      · exact hs.plan hb'
      · exact (h.complete x).plan hold
    case items =>
      intro item' batch' site' b' hb' e he
      rcases hcases hb' rfl with heq | ⟨hs, -⟩ | ⟨-, hold, hkept⟩
      · exact absurd heq hxw
      · exact hs.items hb' e he
      · obtain ⟨y, hy, ht⟩ := (h.complete x).items hold e he
        have hmem : e.2 ∈ g.listed x := by
          rw [World.listed_of_get hold]
          exact List.mem_map_of_mem he
        refine ⟨y, ?_, ht⟩
        rw [hkept e.2 hmem, hy]
        -- members are watched by watchers of objects
        rintro rfl
        rw [hw] at hy
        cases hy
        cases ht
  case fresh =>
    intro x plan site' b' hb' j k hk hnot
    rcases hcases hb' rfl with rfl | ⟨hs, -⟩ | ⟨-, hold, hkept⟩
    · rw [hbooks] at hb'
      cases hb'
    · exact hs.fresh hb' j
    · intro d name batch' hd hentry
      obtain ⟨y, hy, ht⟩ := h.fresh hold j k hk (fun ha => hnot (awaited_change.mp ha)) d name batch' hd hentry
      have hmem : d ∈ g.listed x := by
        rw [World.listed_of_get hold]
        exact List.reduceOption_mem_iff.mpr (List.mem_of_getElem? hd)
      rw [World.memberValue_congr hre.outline]
      by_cases hdw : d = w
      · subst hdw
        rw [hw] at hy
        cases hy
        exact ⟨_, hbooks, ht⟩
      · exact ⟨y, by rw [hkept d hmem hdw, hy], ht⟩
  case balanced =>
    intro x item' batch' site' b' hb' hitem items hitems o
    have hlistOf : g'.listOf b'.collection = g.listOf b'.collection := World.listOf_congr hre.outline _
    rcases hcases hb' rfl with rfl | ⟨hs, hge⟩ | ⟨hxw, hold, -⟩
    · rw [hbooks] at hb'
      cases hb'
      rw [hlistOf] at hitems
      have hbal := h.balanced hw hitem items hitems o
      have hcount := World.count_takeItems o change.removed b.items
      rw [joining_change, leaving_change, if_pos hid.symm, if_pos hid.symm] at hbal
      rw [hitem] at hjoined
      simp only [Bool.false_eq_true, if_false] at hjoined
      have hlost : g.lost x id change = change.removed.diff (b.items.map (·.1)) := by
        simp [World.lost, hw, hid, hitem, hitems]
      rw [List.map_append, hjoined]
      simp only [missing, hid, hlost, if_true, List.count_append, List.count_diff] at hbal hcount ⊢
      omega
    · have hm : (b'.subscription, ChangeListener.membership x) ∈ g'.listenersOfCollection b'.collection :=
        hre.grown.membership.mpr ⟨item', batch', site', b', hb', rfl, rfl⟩
      have hle : g.nextSubscription ≤ b'.subscription := by
        rcases hre.oldChanges hm with hm | hm
        · obtain ⟨_, _, _, _, hx, -⟩ := hg.membership.mp hm
          exact absurd (Array.getElem?_eq_some_iff.mp hx).1 (not_lt.mpr hge)
        · exact hm
      have hpending := h.nothing_pending hle
      rw [joining_change, leaving_change] at hpending
      have hj := (List.append_eq_nil_iff.mp hpending.1).2
      have hl := (List.append_eq_nil_iff.mp hpending.2).2
      have hne : b'.subscription ≠ id :=
        ne_of_gt (lt_of_lt_of_le (h.delivers_changes List.mem_cons_self).1 hle)
      rw [balanced_of_settled hs hb' hitem hitems, hj, hl]
      simp [missing, hne, h.unmissed _ hle]
    · rw [hlistOf] at hitems
      have hbal := h.balanced hold hitem items hitems o
      have hne : b'.subscription ≠ id := by
        intro heq
        have hm : (b'.subscription, ChangeListener.membership x) ∈ g.listenersOfCollection b'.collection :=
          hg.membership.mpr ⟨item', batch', site', b', hold, rfl, rfl⟩
        have hm' : (b'.subscription, ChangeListener.membership w) ∈ g.listenersOfCollection b.collection :=
          hg.membership.mpr ⟨item, batch, site, b, hw, hid.trans heq.symm, rfl⟩
        have := (hg.filed.changesEntry hm hm').2
        cases this
        exact hxw rfl
      rw [joining_change, leaving_change, if_neg (Ne.symm hne), if_neg (Ne.symm hne)] at hbal
      simpa [missing, hne] using hbal
  case calm => exact fun t ht => h.calm t (List.mem_cons_of_mem _ ht)
  case delivers => exact fun hm => h.delivers_after hre.next hre.old (List.mem_cons_of_mem _ hm)
  case delivers_changes =>
    exact fun hm => h.delivers_changes_after hre.next hre.oldChanges
      (fun hv => (World.hasValue_congr hre.outline _).trans hv) (List.mem_cons_of_mem _ hm)
  case unmissed =>
    intro k hk
    have hk := hre.next.trans hk
    have hne : k ≠ id := ne_of_gt (lt_of_lt_of_le (h.delivers_changes List.mem_cons_self).1 hk)
    simp [missing, hne, h.unmissed k hk]

theorem missing_nothing (missed : SubscriptionId → List ObjectId) (id : SubscriptionId) :
    missing missed id [] = missed := by
  funext k
  unfold missing
  split <;> simp

section

variable {w : Nat} {item batch site b}

/-- Who is on the list of a collection, and bound, is told. -/
theorem Stable.carry_membership (h : Stable g (.deliverChange c id (.membership w) change :: rest) missed)
    (hm : (id, ChangeListener.membership w) ∈ g.listenersOfCollection c) :
    L.carry g st (.deliverChange c id (.membership w) change) rest =
      { world := (g.membershipChanged w change).1, state := st, tasks := (g.membershipChanged w change).2 } := by
  obtain ⟨item, batch, site, b, hw, -, -⟩ := h.grown.membership.mp hm
  have hhas : (g.listenersOfCollection c).has id = true :=
    Table.isSome_get?.mpr (List.mem_map_of_mem (f := (·.1)) hm)
  have hwlive : Scene.isLive { world := g, agenda := .deliverChange c id (.membership w) change :: rest } w = true :=
    h.isLive ⟨_, hw, rfl⟩
  simp only [Language.carry, Scene.deliverChange, hhas, hwlive, if_true]

/-- A change that changes nothing is not taken in. -/
theorem Stable.step_unchanged (h : Stable g (.deliverChange c id (.membership w) change :: rest) missed)
    (hm : (id, ChangeListener.membership w) ∈ g.listenersOfCollection c) (hempty : change.isEmpty = true) :
    L.step (machine g (.deliverChange c id (.membership w) change :: rest) st) = machine g ([] ++ rest) st := by
  obtain ⟨item, batch, site, b, hw, -, -⟩ := h.grown.membership.mp hm
  simp only [Language.step, machine, h.carry_membership st hm, World.membershipChanged, hw, hempty]

/-- A collection's watcher takes a change in, and then its batch is to be fired. -/
theorem Stable.works_regather (h : Stable g (.deliverChange c id (.membership w) change :: rest) missed)
    (hm : (id, ChangeListener.membership w) ∈ g.listenersOfCollection c) (hempty : change.isEmpty = false)
    (hw : g.watchers[w]? = some (.collection item batch site (some b))) :
    Works L (L.step (machine g (.deliverChange c id (.membership w) change :: rest) st))
      (machine (g.regather w item site b change) ([.fire site batch, .release (.watcher w)] ++ rest) st) := by
  have hstep : L.step (machine g (.deliverChange c id (.membership w) change :: rest) st) =
      machine (g.taken w b change.removed)
        (.enrol { watcher := w, site, item, binds := none, pending := change.added } ::
          .release (.watcher w) :: rest) st := by
    simp only [Language.step, machine, h.carry_membership st hm, World.membershipChanged, hw, hempty, World.taken,
      List.cons_append, List.nil_append]
  obtain ⟨vs, htaken⟩ := h.grown.taken hw change.removed
  have hget := htaken.books
  rw [hstep]
  have henrol := works_enrol (works_members item) (L := L)
    (b := { b with items := (World.takeItems b.items change.removed).2 }) _ change.added
    (e := { watcher := w, site, item, binds := none, pending := change.added }) (.release (.watcher w) :: rest) st
    htaken.grown.sane rfl rfl rfl (Array.getElem?_eq_some_iff.mp hget).1 ⟨item, batch, site, hget, rfl⟩
  simp only [List.append_nil, World.bindCollection_self hget] at henrol
  exact henrol

end

/-- **Telling a collection's watcher** of a change: it takes the change in, and then
its batch is to be fired. -/
theorem Stable.deliver_membership (h : Stable g (.deliverChange c id l change :: rest) missed) {w : Nat}
    (hm : (id, ChangeListener.membership w) ∈ g.listenersOfCollection c) :
    ∃ g' tasks, Works L (L.step (machine g (.deliverChange c id l change :: rest) st)) (machine g' (tasks ++ rest) st) ∧
      Stable g' rest (missing missed id (g.lost w id change)) ∧
      ∀ t ∈ tasks, t.isDelivery = false ∧ t.isBinding = false := by
  obtain rfl : ChangeListener.membership w = l := ((h.delivers_changes List.mem_cons_self).2.1 _ _ hm).2
  obtain ⟨item, batch, site, b, hw, hid, -⟩ := h.grown.membership.mp hm
  cases hempty : change.isEmpty with
  | true =>
    have hstep := h.step_unchanged (L := L) st hm hempty
    unfold Change.isEmpty at hempty
    rw [Bool.and_eq_true, List.isEmpty_iff, List.isEmpty_iff] at hempty
    have hlost : g.lost w id change = [] := by
      simp only [World.lost, hw, hempty.2]
      split <;> simp
    rw [hlost, missing_nothing]
    refine ⟨g, [], hstep ▸ .done _, ?_, by simp⟩
    -- nobody joined and nobody left
    refine { h with
      fresh := fun hw i k hk hnot => h.fresh hw i k hk fun ha => hnot (awaited_change.mp ha)
      balanced := fun hw hitem items hitems o => ?_
      calm := fun t ht => h.calm t (List.mem_cons_of_mem _ ht)
      delivers := fun hm => h.delivers (List.mem_cons_of_mem _ hm)
      delivers_changes := fun hm => h.delivers_changes (List.mem_cons_of_mem _ hm)
      unmissed := h.unmissed }
    have hbal := h.balanced hw hitem items hitems o
    rw [joining_change, leaving_change, hempty.1, hempty.2] at hbal
    simpa using hbal
  | false =>
    exact ⟨g.regather w item site b change, [.fire site batch, .release (.watcher w)],
      h.works_regather st hm hempty hw, h.regather hw hid, by simp [Task.isDelivery, Task.isBinding]⟩

/-- Telling anybody else of a change leaves the world as it is. -/
theorem Stable.deliver_news (h : Stable g (.deliverChange c id l change :: rest) missed)
    (hother : ∀ w, (id, ChangeListener.membership w) ∉ g.listenersOfCollection c) :
    (∃ tasks, L.step (machine g (.deliverChange c id l change :: rest) st) = machine g (tasks ++ rest) st ∧
      ∀ t ∈ tasks, t.isClient = true) ∧ ∀ lost, Stable g rest (missing missed id lost) := by
  refine ⟨?_, h.drop_change hother⟩
  cases hhas : (g.listenersOfCollection c).has id with
  | true =>
    obtain ⟨⟨i, k⟩, hk, rfl⟩ := List.mem_map.mp (Table.isSome_get?.mp hhas)
    obtain rfl : k = l := ((h.delivers_changes List.mem_cons_self).2.1 _ _ hk).2
    cases k with
    | membership w => exact absurd hk (hother w)
    | code k =>
      refine ⟨[.request (.call k (.changed change))], ?_, by simp [Task.isClient]⟩
      simp only [Language.step, machine, Language.carry, Scene.deliverChange, hhas, if_true]
  | false =>
    refine ⟨[], ?_, by simp⟩
    simp only [Language.step, machine, Language.carry, Scene.deliverChange, hhas, Bool.false_eq_true, if_false]

end

end LiveRules
