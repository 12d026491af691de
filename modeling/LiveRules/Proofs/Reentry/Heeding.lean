/-
# Watchers that heed what they follow

What a watcher is to follow stands in the books of the one above it: the value of a property,
or a member of a collection. At the top of a tree it is the context. While watchers are
being bound, each is bound to what is there now, or about to be, or the news of a change is
still to be delivered; other than where news came when nobody took it in. Such news is
*overlooked*: the watcher that is told is being bound itself, or what is below it is, or it
is told that members have left which it has not come to watch yet.

Key definitions: `Scene.overlooks`, `World.Follows`, `World.Heeds`, `World.Attentive`,
`World.Attends`, `World.AttendsTo`.
Key theorems: `World.Underway.isLive`, `World.Attentive.next`.
-/
import LiveRules.Proofs.Machine.Rounds
import LiveRules.Proofs.Machine.Values
import LiveRules.Proofs.Reentry.Course

namespace LiveRules

variable {κ σ : Type}

/-! ### What is followed -/

/-- What a watcher is to follow: the value of a property, whose changes are told of under
`id`, or an object. -/
inductive Sight
  | property (id : SubscriptionId) (s : Subject) (p : String)
  | object (o : ObjectId)

namespace Sight

def value (g : World κ) : Sight → Value
  | .property _ s p => g.memberValue s p
  | .object o => .object o

theorem value_asIf (g : World κ) (ds : List Draft) (e : Sight) : e.value (g.asIf ds) = e.value g := by
  cases e with
  | property id s p => exact g.memberValue_dressed _ s p
  | object o => rfl

/-- The news of a change is still to be delivered. -/
def Awaits (g : World κ) (agenda : List (Task κ)) : Sight → Prop
  | .property id s p => ∃ u ∈ agenda, u.addresses (g.home s p) id = true
  | .object _ => False

/-- News has been missed. -/
def Misses (missed : SubscriptionId → Prop) : Sight → Prop
  | .property id _ _ => missed id
  | .object _ => False

theorem Misses.mono {missed missed' : SubscriptionId → Prop} (hsub : ∀ id, missed id → missed' id) {e : Sight}
    (h : e.Misses missed) : e.Misses missed' := by
  cases e with
  | property id s p => exact hsub id h
  | object o => exact h

end Sight

/-- The books say that `c` is to follow what is seen there. -/
inductive Watcher.Enters : Watcher κ → WatcherId → Sight → Prop
  | child {plan site b} {i c : Nat} {id p batch} (hc : b.children[i]? = some (some c))
    (hid : b.subscriptions[i]? = some id)
      (hplace : plan.place? i = some (p, batch)) :
      Watcher.Enters (.object plan site (some b)) c (.property id b.subject p)
  | member {item membership site b e} (he : e ∈ b.items) :
      Watcher.Enters (.collection item membership site (some b)) e.2 (.object e.1)

theorem Watcher.Enters.mem_listed {x : Watcher κ} {c : WatcherId} {e : Sight} (h : x.Enters c e) : c ∈ x.listed := by
  cases h with
  | child hc hid hplace => exact List.reduceOption_mem_iff.mpr (List.mem_of_getElem? hc)
  | member he => exact List.mem_map_of_mem he

theorem Watcher.Enters.isSome_target {x : Watcher κ} {c : WatcherId} {e : Sight} (h : x.Enters c e) :
    x.target.isSome = true :=
  Watcher.target_of_mem_listed h.mem_listed

theorem World.Shaped.lt_of_enters {g : World κ} (hg : g.Shaped) {w : Nat} {x : Watcher κ} (hw : g.watchers[w]? = some x)
    {c : WatcherId} {e : Sight} (hx : x.Enters c e) : c < g.watchers.size := by
  refine hg.lt_of_mem_listed (v := w) ?_
  rw [listed_of_get hw]
  exact hx.mem_listed

/-- Objects that the task is still to enter as members for `w`. -/
def Task.recruits (w : WatcherId) : Task κ → List ObjectId
  | .enrol e => if e.watcher = w then (if e.binds.isNone then e.done.map (·.1) else []) ++ e.pending else []
  | _ => []

/-- By how much what is still to be told under `id` adds to the number of times that `o` is
a member of the collection. -/
def owed (agenda : List (Task κ)) (c : CollectionId) (id : SubscriptionId) (o : ObjectId) : ℤ :=
  ((agenda.filterMap (Task.report c id)).map fun e => e.2.worth o).sum

namespace World

/-- `c` is to follow what is seen: so it stands in the books, or with members that are to
join, or `c` is at the top of a tree. -/
inductive Follows (g : World κ) (agenda : List (Task κ)) : WatcherId → Sight → Prop
  | entered {w : Nat} {x : Watcher κ} {c e} (hw : g.watchers[w]? = some x) (hx : x.Enters c e) : Follows g agenda c e
  | joining {e : Enrolment κ} {d} (he : .enrol e ∈ agenda) (hbinds : e.binds = none) (hd : d ∈ e.done) :
      Follows g agenda d.2 (.object d.1)
  | top {c : Nat} {x : Watcher κ} (hc : (∃ t, g.treeRoot t = some c) ∨ ∃ t, .plant t c ∈ agenda)
      (hx : g.watchers[c]? = some x) : Follows g agenda c (.object x.site.context)

/-- `c` is bound to what it is to be bound to when it follows `v`, or about to be. -/
inductive Heeds (g : World κ) (agenda : List (Task κ)) (c : WatcherId) (v : Value) : Prop
  | soon {later : List (Task κ)} (h : agenda = .bind c v :: later) (hfree : ∀ d ∈ draftsOf agenda, d.watcher ≠ c)
  | already (hsees : g.Sees c v) (hstays : ∀ v' later, agenda ≠ .bind c v' :: later)

/-- What holds while watchers are being bound, as if the drafts were entered: see the head of
this file. What is told under the ids of `missed` has not always been taken in. -/
structure Attentive (g : World κ) (agenda : List (Task κ)) (missed : SubscriptionId → Prop) : Prop where
  prompt : ∀ w v, .bind w v ∉ agenda.tail
  heeds : ∀ {c e}, g.Follows agenda c e → g.Heeds agenda c (e.value g) ∨ e.Awaits g agenda ∨ e.Misses missed
  balanced : ∀ {w : Nat} {item membership site b items},
    g.watchers[w]? = some (.collection item membership site (some b)) → item.isNil = false → ¬ missed b.subscription →
      g.listOf b.collection = some items → ∀ o, ((b.items.map (·.1)).count o : ℤ) +
        (agenda.flatMap (Task.recruits w)).count o + owed agenda b.collection b.subscription o = items.count o
  issued : ∀ {c id l change}, .deliverChange c id l change ∈ agenda →
    id < g.nextSubscription ∧ ∀ l', (id, l') ∈ g.listenersOfCollection c → l' = l

end World

/-! ### What is overlooked -/

/-- The next step tells of a change under `id`, and the change is not taken in: the watcher
that is told, or what watches the value that has changed, is being bound, or members that
have left are not watched yet. -/
def Scene.overlooks (scene : Scene κ) (id : SubscriptionId) : Bool :=
  match scene.agenda with
  | .deliver _ k (.member w i) :: rest => k = id &&
    match scene.world.boundObject? w with
    | some b => (b.children[i]?.bind fun c => c).any fun c => (draftsOf rest).any (·.watcher = c)
    | none => true
  | .deliverChange _ k (.membership w) change :: _ => k = id &&
    ((scene.world.boundCollection? w).isNone || !(scene.world.lost w k change).isEmpty)
  | _ => false

/-! ### Who is alive -/

namespace World

variable {g : World κ} {agenda : List (Task κ)}

theorem mem_heldWatchers {held : List Held} {w : WatcherId} : w ∈ heldWatchers held ↔ Held.watcher w ∈ held := by
  unfold heldWatchers
  rw [List.mem_filterMap]
  constructor
  · rintro ⟨h, hmem, hw⟩
    cases h <;> cases hw
    exact hmem
  · exact fun h => ⟨_, h, rfl⟩

theorem isLive_iff {w : WatcherId} : Scene.isLive { world := g, agenda } w = true ↔
    ∃ r, (r ∈ g.roots ∨ ∃ t ∈ agenda, .watcher r ∈ t.held) ∧ w ∈ g.nodes r := by
  unfold Scene.isLive Scene.held planted heldNodes
  rw [Bool.or_eq_true, List.contains_iff_mem, List.contains_iff_mem, List.mem_flatMap, List.mem_flatMap]
  simp only [mem_heldWatchers, List.mem_flatMap]
  constructor
  · rintro (⟨r, hr, hw⟩ | ⟨r, hr, hw⟩)
    · exact ⟨r, Or.inl hr, hw⟩
    · exact ⟨r, Or.inr hr, hw⟩
  · rintro ⟨r, hr | hr, hw⟩
    · exact Or.inl ⟨r, hr, hw⟩
    · exact Or.inr ⟨r, hr, hw⟩

/-- Who is being bound holds what has been posted for it so far. -/
theorem held_of_draft {t : Task κ} {d : Draft} (h : t.draft? = some d) {x : Watcher κ} (hx : x.target = none)
    {c : WatcherId} (hc : c ∈ (d.fill x).listed) : .watcher c ∈ t.held := by
  have hbinding (b : Binding κ) (hb : c ∈ (b.draft.fill x).listed) : .watcher c ∈ b.held := by
    cases x with
    | object plan site bound =>
      obtain hb : some c ∈ b.children := List.reduceOption_mem_iff.mp hb
      exact List.mem_cons_of_mem _ (List.mem_cons_of_mem _ (List.mem_filterMap.mpr ⟨some c, hb, rfl⟩))
    | collection item membership site bound =>
      cases bound with
      | none => cases hb
      | some b => cases hx
  cases t with
  | bindMembers b =>
    cases h
    exact hbinding b hc
  | subscribe s p l r =>
    cases r with
    | code k => cases h
    | binding b =>
      cases h
      exact List.mem_cons_of_mem _ (hbinding b hc)
  | register s p l r =>
    cases r with
    | code k => cases h
    | binding b =>
      cases h
      exact List.mem_cons_of_mem _ (hbinding b hc)
  | enrol e =>
    obtain ⟨binds, -, rfl⟩ := Option.map_eq_some_iff.mp h
    cases x with
    | object plan site bound =>
      cases bound with
      | none => cases hc
      | some b => cases hx
    | collection item membership site bound =>
      obtain ⟨m, hm, rfl⟩ := List.mem_map.mp hc
      simp only [Task.held, Enrolment.held, List.cons_append, List.mem_cons, List.mem_append, List.mem_flatMap]
      exact Or.inr (Or.inl (Or.inr ⟨m, hm, Or.inr (Or.inl rfl)⟩))
  | _ => cases h

/-- **Whoever is bound** belongs to an attached tree, or a running call holds it. -/
theorem Underway.isLive (hu : g.Underway agenda) (hcalm : Scene.Undisturbed { world := g, agenda }) {w : WatcherId}
    (hw : g.IsBound w) : Scene.isLive { world := g, agenda } w = true := by
  have hshaped := hu.drafted.shaped hu.grown.toShaped
  have hself {r : WatcherId} (hr : r < g.watchers.size) : r ∈ g.nodes r := (hshaped.mem_nodes hr).mpr .refl
  obtain ⟨x, hx, htarget⟩ := hw
  obtain ⟨r, hr, hunder⟩ := hu.grown.hangs ⟨x, hu.drafted.get_asIf hx htarget, htarget⟩
  clear hx htarget
  induction hunder with
  | refl =>
    rw [isLive_iff]
    rcases List.mem_append.mp hr with hr | hr
    · exact ⟨r, Or.inl hr, hself (hu.root_lt hr)⟩
    · refine ⟨r, Or.inr ?_, hself (hu.tops_lt hr)⟩
      obtain ⟨t, ht, hr⟩ := List.mem_flatMap.mp hr
      refine ⟨t, ht, ?_⟩
      cases t with
      | plant v w =>
        obtain rfl := List.mem_singleton.mp hr
        exact List.mem_cons_of_mem _ List.mem_cons_self
      | enrol e =>
        rw [Task.tops] at hr
        split at hr
        · obtain ⟨d, hd, rfl⟩ := List.mem_map.mp hr
          simp only [Task.held, Enrolment.held, List.cons_append, List.mem_cons, List.mem_append, List.mem_flatMap]
          exact Or.inr (Or.inl (Or.inr ⟨d, hd, Or.inr (Or.inl rfl)⟩))
        · cases hr
      | _ => cases hr
  | @tail v c _ hc ih =>
    by_cases hdraft : ∃ d ∈ draftsOf agenda, d.watcher = v
    · -- what is being bound holds it
      obtain ⟨d, hd, rfl⟩ := hdraft
      obtain ⟨t, ht, htd⟩ := mem_draftsOf.mp hd
      obtain ⟨y, hy, hnone, -⟩ := hu.drafted d hd
      have hclt := (hu.grown.lt_of_mem_listed hc).trans_eq (size_asIf g _)
      have hbooks := (getElem?_asIf_of_mem (g := g) hcalm.drafts_nodup hd).trans (congrArg (Option.map d.fill) hy)
      rw [listed_of_get hbooks] at hc
      exact isLive_iff.mpr ⟨c, Or.inr ⟨t, ht, held_of_draft htd hnone hc⟩, hself hclt⟩
    · push Not at hdraft
      obtain ⟨r, hr, hv⟩ := isLive_iff.mp ih
      refine isLive_iff.mpr ⟨r, hr, ?_⟩
      have hc' : c ∈ g.listed v := by
        unfold listed at hc ⊢
        rwa [getElem?_asIf_of_not_mem hdraft] at hc
      have hrlt : r < g.watchers.size := by
        by_contra hlt
        rw [nodes, Array.getElem?_eq_none (not_lt.mp hlt)] at hv
        cases hv
      rw [hshaped.mem_nodes hrlt] at hv ⊢
      exact hv.tail hc'

end World

/-! ### One step -/

section

variable {c : CollectionId} {id : SubscriptionId} {o : ObjectId}

theorem owed_append (agenda agenda' : List (Task κ)) :
    owed (agenda ++ agenda') c id o = owed agenda c id o + owed agenda' c id o := by
  simp only [owed, List.filterMap_append, List.map_append, List.sum_append]

theorem owed_cons (t : Task κ) (rest : List (Task κ)) :
    owed (t :: rest) c id o = owed [t] c id o + owed rest c id o :=
  owed_append [t] rest

theorem owed_eq_zero {agenda : List (Task κ)} (h : ∀ t ∈ agenda, t.report c id = none) : owed agenda c id o = 0 := by
  rw [owed, List.filterMap_eq_nil_iff.mpr h]
  rfl

end

namespace World

/-- What kind of watcher `c` is, and what it is bound to. -/
def aim (g : World κ) (c : WatcherId) : Option (Watcher κ × Option Value) :=
  g.watchers[c]?.map fun x => (x.dormant, x.target)

theorem Sees.of_aim {g g' : World κ} {c : WatcherId} {v : Value} (hs : g.Sees c v) (h : g'.aim c = g.aim c) :
    g'.Sees c v := by
  obtain ⟨x, hx, htarget⟩ := hs
  unfold aim at h
  rw [hx, Option.map_some] at h
  obtain ⟨y, hy, heq⟩ := Option.map_eq_some_iff.mp h
  obtain ⟨hdormant, hsame⟩ := Prod.mk.inj heq
  refine ⟨y, hy, hsame.trans (htarget.trans ?_)⟩
  cases x <;> cases y <;> cases hdormant <;> rfl

/-- From `h` to `h'`, whoever is to follow something heeds it from now on, or heeds it as it
did. What joins or leaves is entered in the books, or to be entered, other than under the
ids of `missed`. -/
structure Attends (h : World κ) (t : Task κ) (rest : List (Task κ)) (h' : World κ) (new : List (Task κ))
    (missed : SubscriptionId → Prop) : Prop where
  prompt : ∀ w v, .bind w v ∉ new.tail
  heeds : ∀ {c e}, h'.Follows (new ++ rest) c e → h'.Heeds (new ++ rest) c (e.value h') ∨ e.Misses missed ∨
    h.Follows (t :: rest) c e ∧ ¬ e.Awaits h [t] ∧ ∀ v, h.Heeds (t :: rest) c v → h'.Heeds (new ++ rest) c v
  members : ∀ {w : Nat} {item membership site b'}, h'.watchers[w]? = some (.collection item membership site (some b')) →
    item.isNil = false → (h'.listOf b'.collection).isSome = true → missed b'.subscription ∨
    (∃ b, h.watchers[w]? = some (.collection item membership site (some b)) ∧ b.collection = b'.collection ∧
      b.subscription = b'.subscription ∧
        ∀ o, ((b'.items.map (·.1)).count o : ℤ) + (new.flatMap (Task.recruits w)).count o =
        (b.items.map (·.1)).count o + (t.recruits w).count o + owed [t] b.collection b.subscription o) ∨
    h.nextSubscription ≤ b'.subscription ∧ ∀ o, (b'.items.map (·.1)).count o +
      ((new ++ rest).flatMap (Task.recruits w)).count o = (h'.itemsOf b'.collection).count o

/-- The most urgent task `t` comes to another world and to tasks that take its place, and that is
attended to. -/
def AttendsTo (g : World κ) (t : Task κ) (rest : List (Task κ)) (r : World κ × List (Task κ))
    (missed : SubscriptionId → Prop) : Prop :=
  (g.asIf (draftsOf (t :: rest))).Attends t rest (r.1.asIf (draftsOf (r.2 ++ rest))) r.2 missed

/-- A watched property is on the lists, and of something that exists. -/
theorem Follows.listener {g : World κ} {tops : List WatcherId} (hg : g.Grown tops) {agenda : List (Task κ)}
    {c : WatcherId} {id : SubscriptionId} {s : Subject} {p : String} (hf : g.Follows agenda c (.property id s p)) :
    g.hasValue s.value = true ∧ ∃ w i, (id, .member w i) ∈ g.listeners (g.home s p) p := by
  cases hf with
  | entered hw hx =>
    cases hx with
    | child hc hid hplace =>
      exact ⟨hg.known hw rfl, _, _, hg.member.mpr ⟨_, _, ⟨_, _, _, hw, hid, hplace, rfl⟩, rfl⟩⟩

section

variable {h h' : World κ} {t : Task κ} {rest new : List (Task κ)} {tops : List WatcherId}
    {missed missed' : SubscriptionId → Prop}
  {news : Option (Subject × String)} {edit : CollectionId → Option Change}

/-- Whoever heeds what it follows heeds it still, or is told of the change. -/
theorem Attentive.heeds_next (ha : h.Attentive (t :: rest) missed) (hg : h.Grown tops)
    (hann : Announces news edit h h' new) {c : WatcherId} {e : Sight} (hold : h.Follows (t :: rest) c e)
    (hnot : ¬ e.Awaits h [t]) (hkept : ∀ v, h.Heeds (t :: rest) c v → h'.Heeds (new ++ rest) c v) :
    h'.Heeds (new ++ rest) c (e.value h') ∨ e.Awaits h' (new ++ rest) ∨ e.Misses missed := by
  cases e with
  | object o =>
    rcases ha.heeds hold with hheeds | hawaits | hmisses
    · exact Or.inl (hkept _ hheeds)
    · exact hawaits.elim
    · exact hmisses.elim
  | property id s p =>
    obtain ⟨hknown, w, i, hlistener⟩ := hold.listener hg
    obtain ⟨hhome, hvalue⟩ := hann.reveals s p hknown
    rcases ha.heeds hold with hheeds | hawaits | hmisses
    · rcases hvalue with hsame | hnews
      · refine Or.inl ?_
        show h'.Heeds (new ++ rest) c (h'.memberValue s p)
        rw [hsame]
        exact hkept _ hheeds
      · -- the round that starts now reaches the watcher above
        refine Or.inr (Or.inl ⟨.deliver (h.home s p) id (.member w i), List.mem_append_left _ ?_, ?_⟩)
        · rw [hann.round hnews]
          exact List.mem_map_of_mem (f := fun l : SubscriptionId × Listener κ =>
            Task.deliver (h.home s p) l.1 l.2) hlistener
        · simp [Task.addresses, hhome]
    · obtain ⟨u, hu, haddresses⟩ := hawaits
      refine Or.inr (Or.inl ⟨u, ?_, hhome ▸ haddresses⟩)
      rcases List.mem_cons.mp hu with rfl | hu
      · exact absurd ⟨u, List.mem_singleton_self u, haddresses⟩ hnot
      · exact List.mem_append_right _ hu
    · exact Or.inr (Or.inr hmisses)

/-- Whoever is to be told of members subscribed before. -/
theorem Attentive.issued_next (ha : h.Attentive (t :: rest) missed) (hg : h.Grown tops)
    (hann : Announces news edit h h' new) {c id l change} (hm : .deliverChange c id l change ∈ new ++ rest) :
    id < h.nextSubscription ∧ ∀ l', (id, l') ∈ h.listenersOfCollection c → l' = l := by
  rcases List.mem_append.mp hm with hm | hm
  · have hlisted := hann.issued hm
    exact ⟨hg.filed.changesOlder c _ hlisted, fun l' hl' => (hg.filed.changesEntry hl' hlisted).2⟩
  · exact ha.issued (List.mem_cons_of_mem _ hm)

/-- What joins or leaves is in the books, or is to be entered, or is still to be told. -/
theorem Attentive.balanced_next (ha : h.Attentive (t :: rest) missed) (hg : h.Grown tops)
    (hann : Announces news edit h h' new) (hs : h.Attends t rest h' new missed')
    {w : Nat} {item membership site b' items'}
    (hw : h'.watchers[w]? = some (.collection item membership site (some b'))) (hitem : item.isNil = false)
    (hnot : ¬ missed b'.subscription ∧ ¬ missed' b'.subscription) (hitems' : h'.listOf b'.collection = some items')
    (o : ObjectId) : ((b'.items.map (·.1)).count o : ℤ) + ((new ++ rest).flatMap (Task.recruits w)).count o +
      owed (new ++ rest) b'.collection b'.subscription o = items'.count o := by
  rcases hs.members hw hitem (hitems' ▸ rfl) with
    hmissed | ⟨b, hb, hcollection, hsubscription, hcount⟩ | ⟨hyoung, hcount⟩
  · exact absurd hmissed hnot.2
  · have hlisted : (b.subscription, .membership w) ∈ h.listenersOfCollection b.collection :=
      hg.membership.mpr ⟨item, membership, site, b, hb, rfl, rfl⟩
    have hnodup : ((h.listenersOfCollection b.collection).map (·.1)).Nodup := by
      rw [List.Nodup, List.pairwise_map]
      exact (hg.filed.changesAscending _).imp fun hab => ne_of_lt hab
    obtain ⟨items, hitems⟩ := hann.lists (hg.known hb rfl) (hcollection ▸ hitems')
    obtain ⟨htold, hworth⟩ := hann.reports hitems (Table.filter_of_mem hnodup hlisted)
    obtain ⟨items₁, hitems₁, hworth⟩ := hworth items hitems
    rw [← hcollection, hitems₁] at hitems'
    obtain rfl := Option.some.inj hitems'
    have hbalanced := ha.balanced hb hitem (hsubscription ▸ hnot.1) hitems o
    rw [List.flatMap_cons, List.count_append, owed_cons] at hbalanced
    have hnews : owed new b.collection b.subscription o = ((edit b.collection).toList.map (Change.worth o)).sum := by
      rw [owed, htold, List.map_map]
      rfl
    have hcount := hcount o
    have hworth := hworth o
    rw [← hcollection, ← hsubscription, List.flatMap_append, List.count_append, owed_append, hnews]
    push_cast at hbalanced ⊢
    omega
  · -- nothing is told under an id that has just been given out
    have hnone : owed (new ++ rest) b'.collection b'.subscription o = 0 := by
      refine owed_eq_zero fun u hu => ?_
      cases u with
      | deliverChange d id l change =>
        refine if_neg fun hsame => ?_
        exact absurd (hsame.2 ▸ (ha.issued_next hg hann hu).1) (not_lt.mpr hyoung)
      | _ => rfl
    have hcount := hcount o
    rw [itemsOf_of_listOf hitems'] at hcount
    rw [hnone, add_zero]
    exact_mod_cast hcount

/-- **One step** leaves whoever follows something attentive: whoever heeds it, or is to be
told of it. -/
theorem Attentive.next (ha : h.Attentive (t :: rest) missed) (hg : h.Grown tops) (hann : Announces news edit h h' new)
    (hs : h.Attends t rest h' new missed') : h'.Attentive (new ++ rest) fun id => missed id ∨ missed' id where
  prompt w v hmem := by
    cases new with
    | nil => exact ha.prompt w v (List.mem_of_mem_tail hmem)
    | cons u new =>
      rcases List.mem_append.mp hmem with hmem | hmem
      · exact hs.prompt w v hmem
      · exact ha.prompt w v hmem
  heeds hf := by
    rcases hs.heeds hf with hheeds | hmisses | ⟨hold, hnot, hkept⟩
    · exact Or.inl hheeds
    · exact Or.inr (Or.inr (Sight.Misses.mono (fun _ => Or.inr) hmisses))
    · exact (ha.heeds_next hg hann hold hnot hkept).imp_right (Or.imp_right (Sight.Misses.mono fun _ => Or.inl))
  balanced hw hitem hnot hitems' := ha.balanced_next hg hann hs hw hitem (not_or.mp hnot) hitems'
  issued hm := by
    obtain ⟨hlt, honly⟩ := ha.issued_next hg hann hm
    exact ⟨lt_of_lt_of_le hlt hann.next, fun l' hl' => honly l' (hann.relisted hl' hlt)⟩

end

end World

end LiveRules
