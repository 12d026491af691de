/-
# What guests do

Whatever a guest does, and whoever attaches it, moves it and disposes of it, the world
goes on hosting guests that are idle in the other, and all there is to do after is done
by guests again.

Key theorems: `World.Hosts.bind_guest`, `World.Hosts.deliver_guest`,
`World.Hosts.attach_guest`.
-/
import LiveRules.Proofs.Guests.Alike

namespace LiveRules

variable {κ : Type} {G : Guests κ} {M : Matching}

theorem Conforms.idle {g g' : World κ} (h : g.Hosts G M g') {ts : List (Task κ)} (hts : ∀ t ∈ ts, t.Guest G M) :
    Conforms G M (g, []) (g', ts) :=
  ⟨M, le_rfl, h, .of_others hts⟩

theorem value_of_subject? {v : Value} {s : Subject} (h : v.subject? = some s) : s.value = v := by
  cases v <;> cases h <;> rfl

theorem value_of_collection? {v : Value} {c : CollectionId} (h : v.collection? = some c) : .collection c = v := by
  cases v <;> cases h
  rfl

namespace World

theorem Sane.hasObject_base {g : World κ} (hg : g.Sane) {o b : ObjectId} (hbase : g.baseOf o = some b)
    (ho : g.hasObject o = true) : g.hasObject b = true := by
  simp only [hasObject, decide_eq_true_eq] at ho ⊢
  exact (hg.older o b hbase).trans ho

variable {g g' : World κ} (h : g.Hosts G M g')

include h

theorem Hosts.bind_guest (hg' : g'.Sane) {b : WatcherId} (hb : M.watchers.Stray b) {v : Value} (hv : M.known v) :
    Conforms G M (g, []) (g'.bind b v) := by
  have hunbound := h.unbind_guest hb
  have hguest := hunbound.guest b hb
  unfold World.bind
  simp only
  cases hx : (g'.unbind b).watchers[b]? with
  | none => exact .done hunbound
  | some x =>
    cases hguest x hx with
    | @object plan site bound hplan hsite _ =>
      simp only
      cases hs : v.subject? with
      | none => exact .done hunbound
      | some s =>
        have hknown : M.known s.value := value_of_subject? hs ▸ hv
        exact .idle hunbound (List.forall_mem_singleton.mpr (.bindMembers ⟨hb, hsite, hknown, by simp, by simp, hplan⟩))
    | @collection item membership site bound hitem hmembership hsite _ =>
      simp only
      cases hc : v.collection? with
      | none => exact .done hunbound
      | some c =>
        have hentered := hunbound.enterChangeListener_guest c (.membership hb)
        have hsane : ((g'.unbind b).enterChangeListener c (.membership b)).Sane :=
          hg'.congr (((g'.unbind b).enterChangeListener_outline c _).trans (g'.unbind_outline b))
        have hle := M.le_hostId.trans hentered.le_learned
        refine ⟨_, hle, hentered.learn, .of_others (List.forall_mem_singleton.mpr (.enrol ?_))⟩
        refine ⟨hle.watchers.stray hb, hsite.mono hle, hitem, fun x hx => ?_, by simp, fun o ho => hsane.items c o ho⟩
        obtain rfl := Option.some.inj hx
        exact ⟨hle.known (value_of_collection? hc ▸ hv), hunbound.newId_guest⟩

theorem Hosts.bindMembers_guest {x : Binding κ} (hx : x.Guest G M) : Conforms G M (g, []) (g'.bindMembers x) := by
  have hnext (p : String) : Conforms G M (g, [])
      (g', [.subscribe x.subject p (.member x.watcher x.subscriptions.length) (.binding x)]) :=
    .idle h (List.forall_mem_singleton.mpr (.subscribe hx.subject p (.member hx.watcher _) hx))
  unfold World.bindMembers
  cases x.rest with
  | nil => exact .done (h.bindObject_guest hx.watcher ⟨hx.subject, hx.subscriptions, hx.children⟩)
  | value p _ _ => exact hnext p
  | object p _ _ _ => exact hnext p
  | collection p _ _ _ _ => exact hnext p

section

variable (hall : ∀ v, g'.hasValue v = true → M.known v) (hg' : g'.Sane)

include hall hg'

theorem Hosts.bindChild_guest {x : Binding κ} (hx : x.Guest G M) {j : SubscriptionId} (hj : M.ids.Stray j) :
    Conforms G M (g, []) (g'.bindChild x j) := by
  have hids : ∀ id ∈ x.subscriptions ++ [j], M.ids.Stray id := by
    intro id hid
    rcases List.mem_append.mp hid with hid | hid
    · exact hx.subscriptions id hid
    · exact List.mem_singleton.mp hid ▸ hj
  have hchild {y : Watcher κ} (hy : y.Guest G M) (p : String) {rest : WatchPlan κ} (hrest : rest.Quiet G) :
      Conforms G M (g, []) (g'.addWatcher y, [.bind g'.watchers.size (g'.memberValue x.subject p), .bindMembers { x with
        subscriptions := x.subscriptions ++ [j], children := x.children ++ [some g'.watchers.size], rest }]) := by
    have hnew := h.newWatcher_guest
    have hlater := hx.mono M.le_hostWatcher
    refine ⟨M.hostWatcher, M.le_hostWatcher, h.addWatcher_guest hy, .of_others ?_⟩
    refine List.forall_mem_cons.mpr ⟨.bind hnew (hall _ (hg'.hasValue_memberValue _ p)), ?_⟩
    refine List.forall_mem_singleton.mpr (.bindMembers
      ⟨hlater.watcher, hlater.site, hx.subject, hids, fun w hw => ?_, hrest⟩)
    rcases List.mem_append.mp hw with hw | hw
    · exact hlater.children w hw
    · exact Option.some.inj (List.mem_singleton.mp hw) ▸ hnew
  have hquiet := hx.rest
  unfold World.bindChild
  cases hrest : x.rest with
  | nil => exact .done h
  | value p fire next =>
    rw [hrest] at hquiet
    refine .idle h (List.forall_mem_singleton.mpr (.bindMembers
      ⟨hx.watcher, hx.site, hx.subject, hids, fun w hw => ?_, hquiet.2⟩))
    rcases List.mem_append.mp hw with hw | hw
    · exact hx.children w hw
    · cases List.mem_singleton.mp hw
  | object p fire inside next =>
    rw [hrest] at hquiet
    exact hchild (.object hquiet.2.1 hx.site (by simp)) p hquiet.2.2
  | collection p fire membership item next =>
    rw [hrest] at hquiet
    exact hchild (.collection hquiet.2.2.1 hquiet.2.1 hx.site (by simp)) p hquiet.2.2.2

theorem Hosts.register_guest {s : Subject} (hs : M.known s.value) (p : String) {l : Listener κ} (hl : l.Guest M)
    {x : Binding κ} (hx : x.Guest G M) : Conforms G M (g, []) (g'.register s p l (.binding x)) := by
  have hhere : Conforms G M (g, []) ((g'.enterListener s p l).bindChild x g'.nextSubscription) := by
    have houtline := g'.enterListener_outline s p l
    refine Conforms.of_le M.le_hostId
      ((h.enterListener_guest s p hl).bindChild_guest (fun v hv => ?_) (hg'.congr houtline)
      (hx.mono M.le_hostId) ?_)
    · exact hall v ((hasValue_congr houtline v).symm.trans hv)
    · exact h.newId_guest
  unfold World.register
  cases s with
  | command c => exact hhere
  | object o =>
    simp only
    cases hbase : g'.baseOf o with
    | none => exact hhere
    | some b =>
      simp only
      split
      · exact hhere
      · have hknown : M.known (Subject.object b).value := hall (.object b) (hg'.hasObject_base hbase (h.known _ hs))
        exact .idle h (List.forall_mem_singleton.mpr (.subscribe hknown p hl hx))

end

theorem Hosts.closed_guest {e : Enrolment κ} (he : e.Guest G M) : Conforms G M (g, []) (g'.closed e) := by
  have hguest := h.guest e.watcher he.watcher
  unfold World.closed
  cases hbinds : e.binds with
  | some x => exact .done (h.bindCollection_guest he.watcher ⟨(he.binds x hbinds).2, fun d hd => (he.done d hd).2⟩)
  | none =>
    have hdisbanded : Conforms G M (g, []) ((e.done.map (·.2)).foldl World.unbind g', []) := by
      refine .done (h.foldl_unbind_guest fun w hw => ?_)
      obtain ⟨d, hd, rfl⟩ := List.mem_map.mp hw
      exact (he.done d hd).2
    simp only
    cases hy : g'.watchers[e.watcher]? with
    | none => exact hdisbanded
    | some y =>
      cases hguest y hy with
      | object _ _ _ => exact hdisbanded
      | @collection item membership site bound _ hmembership hsite hbound =>
        cases bound with
        | none => exact hdisbanded
        | some b =>
          have hb := hbound b rfl
          have hbooks : BoundCollection.Guest M { b with items := b.items ++ e.done } := by
            refine ⟨hb.subscription, fun d hd => ?_⟩
            rcases List.mem_append.mp hd with hd | hd
            · exact hb.items d hd
            · exact (he.done d hd).2
          exact .idle (h.bindCollection_guest he.watcher hbooks)
            (List.forall_mem_singleton.mpr (.fire hsite hmembership))

theorem Hosts.enrol_guest {e : Enrolment κ} (he : e.Guest G M) : Conforms G M (g, []) (g'.enrol e) := by
  by_cases hdone : e.item.isNil = true ∨ e.pending = []
  · rw [enrol_closed hdone]
    exact h.closed_guest he
  · obtain ⟨hitem, hpending⟩ := not_or.mp hdone
    obtain ⟨o, os, hpending⟩ := List.exists_cons_of_ne_nil hpending
    have hlist : ∀ i ∈ o :: os, M.known (.object i) := hpending ▸ he.pending
    have hnew := h.newWatcher_guest
    have hlater := he.mono M.le_hostWatcher
    unfold World.enrol
    rw [hpending, Bool.eq_false_iff.mpr hitem]
    refine ⟨M.hostWatcher, M.le_hostWatcher, h.addWatcher_guest (.object he.item he.site (by simp)), .of_others ?_⟩
    refine List.forall_mem_cons.mpr ⟨.bind hnew (hlist o List.mem_cons_self), List.forall_mem_singleton.mpr (.enrol ?_)⟩
    refine ⟨hlater.watcher, hlater.site, he.item, hlater.binds, fun d hd => ?_, fun i hi => ?_⟩
    case refine_2 => exact hlist i (List.mem_cons_of_mem _ hi)
    rcases List.mem_append.mp hd with hd | hd
    · exact hlater.done d hd
    · obtain rfl := List.mem_singleton.mp hd
      exact ⟨hlist o List.mem_cons_self, hnew⟩

theorem Hosts.subscribe_guest (hg' : g'.Sane) {s : Subject} (hs : M.known s.value) (p : String) {l : Listener κ}
    (hl : l.Guest M) {x : Binding κ} (hx : x.Guest G M) : Conforms G M (g, []) (g'.subscribe s p l (.binding x)) := by
  have hregisters : Conforms G M (g, []) (g', [.register s p l (.binding x)]) :=
    .idle h (List.forall_mem_singleton.mpr (.register hs p hl hx))
  unfold World.subscribe
  cases s with
  | command c => exact hregisters
  | object o =>
    simp only [hg'.takeHook]
    exact hregisters

/-! ### Deliveries -/

theorem Hosts.memberChanged_guest (hall : ∀ v, g'.hasValue v = true → M.known v) (hg' : g'.Sane) {b : WatcherId}
    (hb : M.watchers.Stray b) (i : Nat) : ∀ t ∈ g'.memberChanged b i, t.Guest G M := by
  have hguest := h.guest b hb
  unfold World.memberChanged
  cases hx : g'.watchers[b]? with
  | none => simp
  | some x =>
    cases hguest x hx with
    | collection _ _ _ _ => simp
    | @object plan site bound hplan hsite hbound =>
      cases bound with
      | none => simp
      | some y =>
        have hy := hbound y rfl
        simp only
        cases hplace : plan.place? i with
        | none => simp
        | some e =>
          simp only
          intro t ht
          rcases List.mem_append.mp ht with ht | ht
          · obtain ⟨c, hc, rfl⟩ := List.mem_map.mp ht
            obtain ⟨c', hc', heq⟩ := Option.bind_eq_some_iff.mp (Option.mem_toList.mp hc)
            have hmem : some c ∈ y.children := by
              have hc'' : c' = some c := heq
              exact List.mem_of_getElem? (hc'' ▸ hc')
            exact .bind (hy.children c hmem) (hall _ (hg'.hasValue_memberValue _ _))
          · simp only [List.mem_cons, List.not_mem_nil, or_false] at ht
            rcases ht with rfl | rfl | rfl
            · exact .fire hsite (hplan.place? hplace)
            · exact .release (.value hy.subject)
            · exact .release (.watcher hb)

theorem Hosts.membershipChanged_guest {b : WatcherId} (hb : M.watchers.Stray b) {change : Change}
    (hadded : ∀ o ∈ change.added, M.known (.object o)) : Conforms G M (g, []) (g'.membershipChanged b change) := by
  have hguest := h.guest b hb
  unfold World.membershipChanged
  cases hx : g'.watchers[b]? with
  | none => exact .done h
  | some x =>
    cases hguest x hx with
    | object _ _ _ => exact .done h
    | @collection item membership site bound hitem hmembership hsite hbound =>
      cases bound with
      | none => exact .done h
      | some y =>
        cases change.isEmpty with
        | true => exact .done h
        | false =>
          have hy := hbound y rfl
          obtain ⟨taken, htaken, hperm⟩ := takeItems_perm change.removed y.items
          have hbooks : BoundCollection.Guest M { y with items := (takeItems y.items change.removed).2 } :=
            ⟨hy.subscription, fun e he => hy.items e (hperm.mem_iff.mpr (List.mem_append_right _ he))⟩
          have hstray : ∀ w ∈ (takeItems y.items change.removed).1, M.watchers.Stray w := by
            rw [htaken]
            intro w hw
            obtain ⟨e, he, rfl⟩ := List.mem_map.mp hw
            exact hy.items e (hperm.mem_iff.mpr (List.mem_append_left _ he))
          refine .idle ((h.bindCollection_guest hb hbooks).foldl_unbind_guest hstray)
            (List.forall_mem_cons.mpr ⟨.enrol ?_,
            List.forall_mem_singleton.mpr (.release (.watcher hb))⟩)
          exact ⟨hb, hsite, hitem, by simp, by simp, hadded⟩

theorem Hosts.deliver_guest (hall : ∀ v, g'.hasValue v = true → M.known v) (hg' : g'.Sane) (agenda' : List (Task κ))
    (s : Subject) (id : SubscriptionId) {l : Listener κ} (hl : l.Guest M) :
    ∀ t ∈ Scene.deliver { world := g', agenda := agenda' } s id l, t.Guest G M := by
  cases hl with
  | member hw i =>
    unfold Scene.deliver
    simp only
    split
    · split
      · exact h.memberChanged_guest hall hg' hw i
      · simp
    · simp

theorem Hosts.deliverChange_guest (agenda' : List (Task κ)) (c : CollectionId) (id : SubscriptionId)
    {l : ChangeListener κ} (hl : l.Guest M) {change : Change} (hadded : ∀ o ∈ change.added, M.known (.object o)) :
    Conforms G M (g, []) (Scene.deliverChange { world := g', agenda := agenda' } c id l change) := by
  cases hl with
  | membership hw =>
    unfold Scene.deliverChange
    simp only
    split
    · split
      · exact h.membershipChanged_guest hw hadded
      · exact .done h
    · exact .done h

/-! ### Trees -/

theorem Hosts.bury_guest {t : TreeId} (ht : t < G.trees) (agenda' : List (Task κ)) :
    g.Hosts G M (Scene.bury { world := g', agenda := agenda' } t) := by
  unfold Scene.bury
  simp only
  split
  · exact h.dispose_guest ht
  · exact h

theorem Hosts.drop_guest {t : TreeId} (ht : t < G.trees) :
    g.Hosts G M (g'.modifyTree t fun x => { x with dropped := true }) :=
  h.modifyTree_guest ht fun _ _ hx => ⟨hx.idle, hx.plan, hx.root⟩

theorem Hosts.plant_guest {t : TreeId} (ht : t < G.trees) {b : WatcherId} (hb : M.watchers.Stray b) :
    g.Hosts G M (g'.modifyTree t fun x => { x with root := some b }) :=
  h.modifyTree_guest ht fun _ _ hx => ⟨hx.idle, hx.plan, fun _ hw => Option.some.inj hw ▸ hb⟩

theorem Hosts.attach_guest {t : TreeId} (ht : t < G.trees) {context : ObjectId} (hcontext : M.known (.object context)) :
    Conforms G M (g, []) (g'.attach t context) := by
  have hdisposed := h.dispose_guest ht
  have htree := hdisposed.hosted t ht
  unfold World.attach
  simp only
  generalize g.trees[t]? = x at htree
  generalize (g'.dispose t).trees[t]? = x' at htree ⊢
  cases htree with
  | none => exact .done hdisposed
  | some hx =>
    have hnew := hdisposed.newWatcher_guest
    refine ⟨M.hostWatcher, M.le_hostWatcher,
      hdisposed.addWatcher_guest (.object hx.plan ⟨ht, hcontext⟩ (by simp)), .of_others ?_⟩
    refine List.forall_mem_cons.mpr ⟨.bind hnew hcontext, List.forall_mem_cons.mpr ⟨.plant ht hnew, ?_⟩⟩
    exact List.forall_mem_singleton.mpr (.release (.tree ht))

end World
end LiveRules
