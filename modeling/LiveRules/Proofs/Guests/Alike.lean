/-
# The same tasks with guests around

A task that is to be done with guests around and without them comes to the same: the
watchers it makes stand for one another, and so do the subscriptions. Where a round
starts, the guests that listen are told in between.

Key theorems: `World.Hosts.bind`, `World.Hosts.register`, `World.Hosts.deliver`,
`World.Hosts.attach`, `World.Hosts.grant`.
-/
import LiveRules.Proofs.Guests.Tasks
import LiveRules.Proofs.Machine.Binding

namespace LiveRules

variable {κ : Type} {G : Guests κ} {M : Matching}

/-- Nothing is to be done after. -/
theorem Conforms.done {g g' : World κ} (h : g.Hosts G M g') : Conforms G M (g, []) (g', []) :=
  ⟨M, le_rfl, h, .nil⟩

theorem Conforms.one {g g' : World κ} (h : g.Hosts G M g') {t t' : Task κ} (ht : t.Matched G M t') :
    Conforms G M (g, [t]) (g', [t']) :=
  ⟨M, le_rfl, h, .one ht⟩

/-- Only what there is changes. -/
theorem Conforms.edit {g g' : World κ} (h : g.Hosts G M g') {f : World κ → World κ} (hf : World.Edits f) :
    Conforms G M (f g, []) (f g', []) :=
  .done (h.edit hf)

namespace World

variable {g g' : World κ} (h : g.Hosts G M g')

include h

theorem Hosts.memberValue (s : Subject) (p : String) : g'.memberValue s p = g.memberValue s p :=
  memberValue_congr h.outline s p

/-! ### Binding -/

theorem Hosts.bind {a b : WatcherId} (hab : M.watchers.Pairs a b) (v : Value) :
    Conforms G M (g.bind a v) (g'.bind b v) := by
  have hunbound := h.unbind hab
  obtain ⟨x, x', hx, hx', hmatched⟩ := hunbound.watcher_some hab
  unfold World.bind
  simp only [hx, hx']
  cases hmatched with
  | object plan hsite _ =>
    cases v.subject? with
    | none => exact .done hunbound
    | some s => exact .one hunbound (.bindMembers ⟨hab, hsite, rfl, .nil, .nil, rfl⟩)
  | collection item membership hsite _ =>
    cases v.collection? with
    | none => exact .done hunbound
    | some c =>
      have hentered := hunbound.enterChangeListener c (.membership hab)
      have hitems := itemsOf_congr hentered.outline c
      exact ⟨M.pairId, M.le_pairId, hentered,
        .one (.enrol ⟨hab, hsite, rfl, .some ⟨rfl, hunbound.newId⟩, .nil, hitems⟩)⟩

theorem Hosts.bindMembers {x x' : Binding κ} (hx : x.Matched G M x') :
    Conforms G M (g.bindMembers x) (g'.bindMembers x') := by
  have hnext (p : String) : Conforms G M
      (g, [.subscribe x.subject p (.member x.watcher x.subscriptions.length) (.binding x)])
      (g', [.subscribe x'.subject p (.member x'.watcher x'.subscriptions.length) (.binding x')]) := by
    rw [hx.subject, ← hx.subscriptions.length_eq]
    exact .one h (.subscribe _ p (.member hx.watcher _) (.binding hx))
  unfold World.bindMembers
  rw [hx.rest]
  cases x.rest with
  | nil => exact .done (h.bindObject hx.watcher ⟨hx.subject, hx.subscriptions, hx.children⟩)
  | value p _ _ => exact hnext p
  | object p _ _ _ => exact hnext p
  | collection p _ _ _ _ => exact hnext p

theorem Hosts.bindChild {x x' : Binding κ} (hx : x.Matched G M x') {i j : SubscriptionId} (hij : M.ids.Pairs i j) :
    Conforms G M (g.bindChild x i) (g'.bindChild x' j) := by
  have hids : List.Forall₂ M.ids.Pairs (x.subscriptions ++ [i]) (x'.subscriptions ++ [j]) :=
    List.rel_append hx.subscriptions (.cons hij .nil)
  have hchild {y y' : Watcher κ} (hy : y.Matched G M y') (v : Value) (rest : WatchPlan κ) : Conforms G M
      (g.addWatcher y, [.bind g.watchers.size v, .bindMembers { x with
        subscriptions := x.subscriptions ++ [i], children := x.children ++ [some g.watchers.size], rest }])
      (g'.addWatcher y', [.bind g'.watchers.size v, .bindMembers { x' with
        subscriptions := x'.subscriptions ++ [j], children := x'.children ++ [some g'.watchers.size], rest }]) := by
    have hlater := hx.mono M.le_pairWatcher
    have hchildren := List.rel_append hlater.children (.cons (.some h.newWatcher) .nil)
    exact ⟨M.pairWatcher, M.le_pairWatcher, h.addWatcher hy, .cons (.bind h.newWatcher v)
      (.one (.bindMembers ⟨hlater.watcher, hlater.site, hlater.subject, hids, hchildren, rfl⟩))⟩
  have hvalue (p : String) : g'.memberValue x'.subject p = g.memberValue x.subject p := by
    rw [hx.subject, h.memberValue]
  unfold World.bindChild
  rw [hx.rest]
  cases x.rest with
  | nil => exact .done h
  | value p fire next =>
    exact .one h (.bindMembers ⟨hx.watcher, hx.site, hx.subject, hids,
      List.rel_append hx.children (.cons .none .nil), rfl⟩)
  | object p fire inside next =>
    simp only [hvalue]
    exact hchild (.object inside hx.site .none) _ next
  | collection p fire membership item next =>
    simp only [hvalue]
    exact hchild (.collection item membership hx.site .none) _ next

/-- The enrolment ends. -/
theorem Hosts.closed {e e' : Enrolment κ} (he : e.Matched G M e') : Conforms G M (g.closed e) (g'.closed e') := by
  have hbinds := he.binds
  unfold World.closed
  generalize e.binds = x at hbinds ⊢
  generalize e'.binds = x' at hbinds ⊢
  cases hbinds with
  | @some x x' hx => exact .done (h.bindCollection he.watcher ⟨hx.1, hx.2, he.done⟩)
  | none =>
    obtain ⟨y, y', hy, hy', hmatched⟩ := h.watcher_some he.watcher
    have hdisbanded : Conforms G M ((e.done.map (·.2)).foldl World.unbind g, [])
        ((e'.done.map (·.2)).foldl World.unbind g', []) :=
      .done (h.foldl_unbind (List.rel_map (fun _ _ hd => hd.2) he.done))
    simp only [hy, hy']
    cases hmatched with
    | object _ _ _ => exact hdisbanded
    | collection item membership hsite hbound =>
      cases hbound with
      | none => exact hdisbanded
      | @some b b' hb =>
        have hbooks : BoundCollection.Matched M { b with items := b.items ++ e.done }
            { b' with items := b'.items ++ e'.done } :=
          ⟨hb.collection, hb.subscription, List.rel_append hb.items he.done⟩
        exact .one (h.bindCollection he.watcher hbooks) (.fire hsite membership)

theorem Hosts.enrol {e e' : Enrolment κ} (he : e.Matched G M e') : Conforms G M (g.enrol e) (g'.enrol e') := by
  by_cases hdone : e.item.isNil = true ∨ e.pending = []
  · rw [enrol_closed hdone, enrol_closed (by rwa [he.item, he.pending])]
    exact h.closed he
  · obtain ⟨hitem, hpending⟩ := not_or.mp hdone
    obtain ⟨o, os, hpending⟩ := List.exists_cons_of_ne_nil hpending
    have hitem' : e'.item.isNil = false := he.item ▸ Bool.eq_false_iff.mpr hitem
    have hpending' : e'.pending = o :: os := he.pending.trans hpending
    have hmember : Watcher.Matched G M (.object e.item e.site none) (.object e'.item e'.site none) := by
      rw [he.item]
      exact .object e.item he.site .none
    have hlater := he.mono M.le_pairWatcher
    have hlast : M.pairWatcher.Items (o, g.watchers.size) (o, g'.watchers.size) := ⟨rfl, h.newWatcher⟩
    have hmembers := List.rel_append hlater.done (.cons hlast .nil)
    unfold World.enrol
    rw [hpending, hpending', hitem', Bool.eq_false_iff.mpr hitem]
    exact ⟨M.pairWatcher, M.le_pairWatcher, h.addWatcher hmember, .cons (.bind h.newWatcher _)
      (.one (.enrol ⟨hlater.watcher, hlater.site, he.item, hlater.binds, hmembers, rfl⟩))⟩

/-! ### Subscribing -/

theorem Hosts.answer {r r' : Receiver κ} (hr : r.Matched G M r') {i j : SubscriptionId} (hij : M.ids.Pairs i j) :
    Conforms G M (g.answer i r) (g'.answer j r') := by
  cases hr with
  | code k => exact .one h (.request (.told k hij))
  | binding hx => exact h.bindChild hx hij

theorem Hosts.register (s : Subject) (p : String) {l l' : Listener κ} (hl : l.Matched M l') {r r' : Receiver κ}
    (hr : r.Matched G M r') : Conforms G M (g.register s p l r) (g'.register s p l' r') := by
  have hhere : Conforms G M ((g.enterListener s p l).answer g.nextSubscription r)
      ((g'.enterListener s p l').answer g'.nextSubscription r') :=
    Conforms.of_le M.le_pairId ((h.enterListener s p hl).answer (hr.mono M.le_pairId) h.newId)
  unfold World.register
  cases s with
  | command c => exact hhere
  | object o =>
    have hanswers : g'.answersFor p o = g.answersFor p o := by
      rw [← answersFor_outline, h.outline, answersFor_outline]
    simp only [baseOf_congr h.outline, hanswers]
    split
    · split
      · exact hhere
      · exact .one h (.subscribe _ p hl hr)
    · exact hhere

/-- Where no hook is due, the subscription is made at once. -/
theorem Hosts.subscribe (hg' : g'.Sane) (s : Subject) (p : String) {l l' : Listener κ} (hl : l.Matched M l')
    {r r' : Receiver κ} (hr : r.Matched G M r') : Conforms G M (g.subscribe s p l r) (g'.subscribe s p l' r') := by
  have hg : g.Sane := hg'.congr h.outline.symm
  unfold World.subscribe
  cases s with
  | command c => exact .one h (.register _ p hl hr)
  | object o =>
    simp only [hg.takeHook, hg'.takeHook]
    exact .one h (.register _ p hl hr)

/-! ### Rounds -/

theorem Hosts.round (s : Subject) (p : String) :
    Woven (Task.Matched G M) (Task.Guest G M) (g.round s p) (g'.round s p) := by
  unfold World.round
  exact ((h.notifier s).listeners p).map (fun e e' he => .deliver s he.1 he.2) fun e he => .deliver s e.1 he.2

theorem Hosts.changeRound (c : CollectionId) {change : Change} (hadded : ∀ o ∈ change.added, M.known (.object o)) :
    Woven (Task.Matched G M) (Task.Guest G M) (g.changeRound c change) (g'.changeRound c change) := by
  unfold World.changeRound
  refine Woven.append ?_ (.of_map fun o _ => .release (.value _))
  exact (h.changes c).map (fun e e' he => .deliverChange c he.1 he.2 change)
    fun e he => .deliverChange c e.1 he.2 hadded

theorem Hosts.memberChanged {a b : WatcherId} (hab : M.watchers.Pairs a b) (i : Nat) :
    Woven (Task.Matched G M) (Task.Guest G M) (g.memberChanged a i) (g'.memberChanged b i) := by
  obtain ⟨x, x', hx, hx', hmatched⟩ := h.watcher_some hab
  unfold World.memberChanged
  rw [hx, hx']
  cases hmatched with
  | collection _ _ _ _ => exact .nil
  | object plan hsite hbound =>
    cases hbound with
    | none => exact .nil
    | @some y y' hy =>
      simp only
      cases plan.place? i with
      | none => exact .nil
      | some e =>
        have hchild : Option.Rel M.watchers.Pairs (y.children[i]?.bind id) (y'.children[i]?.bind id) := by
          have hchildren := hy.children
          generalize y.children = cs at hchildren ⊢
          generalize y'.children = cs' at hchildren ⊢
          clear hx hx' hy
          induction hchildren generalizing i with
          | nil => exact .none
          | cons hc _ ih =>
            cases i with
            | zero => exact hc
            | succ i => exact ih i
        simp only [h.memberValue, hy.subject]
        refine Woven.append ?_ (.cons (.fire hsite _) (.cons (.release (.value _)) (.one (.release (.watcher hab)))))
        generalize y.children[i]?.bind id = c at hchild ⊢
        generalize y'.children[i]?.bind id = c' at hchild ⊢
        cases hchild with
        | none => exact .nil
        | some hc => exact .one (.bind hc _)

omit h in
theorem takeItem_matched (o : ObjectId) {es es' : List (ObjectId × WatcherId)} (hes : List.Forall₂ M.Items es es') :
    Option.Rel (fun x x' => M.watchers.Pairs x.1 x'.1 ∧ List.Forall₂ M.Items x.2 x'.2)
      (takeItem o es) (takeItem o es') := by
  induction hes with
  | nil => exact .none
  | @cons e e' es es' he hes ih =>
    unfold takeItem
    rw [he.1]
    split
    · exact .some ⟨he.2, hes⟩
    · generalize takeItem o es = x at ih ⊢
      generalize takeItem o es' = x' at ih ⊢
      cases ih with
      | none => exact .none
      | some hx => exact .some ⟨hx.1, .cons he hx.2⟩

omit h in
theorem takeItems_matched (os : List ObjectId) {es es' : List (ObjectId × WatcherId)}
    (hes : List.Forall₂ M.Items es es') :
    List.Forall₂ M.watchers.Pairs (takeItems es os).1 (takeItems es' os).1 ∧
      List.Forall₂ M.Items (takeItems es os).2 (takeItems es' os).2 := by
  induction os generalizing es es' with
  | nil => exact ⟨.nil, hes⟩
  | cons o os ih =>
    have htaken := takeItem_matched o hes
    unfold takeItems
    generalize takeItem o es = x at htaken ⊢
    generalize takeItem o es' = x' at htaken ⊢
    cases htaken with
    | none => exact ih hes
    | some hx => exact ⟨.cons hx.1 (ih hx.2).1, (ih hx.2).2⟩

theorem Hosts.membershipChanged {a b : WatcherId} (hab : M.watchers.Pairs a b) (change : Change) :
    Conforms G M (g.membershipChanged a change) (g'.membershipChanged b change) := by
  obtain ⟨x, x', hx, hx', hmatched⟩ := h.watcher_some hab
  unfold World.membershipChanged
  rw [hx, hx']
  cases hmatched with
  | object _ _ _ => exact .done h
  | collection item membership hsite hbound =>
    cases hbound with
    | none => exact .done h
    | @some y y' hy =>
      cases change.isEmpty with
      | true => exact .done h
      | false =>
        obtain ⟨htaken, hkept⟩ := takeItems_matched change.removed hy.items
        have hbooks : BoundCollection.Matched M { y with items := (takeItems y.items change.removed).2 }
            { y' with items := (takeItems y'.items change.removed).2 } := ⟨hy.collection, hy.subscription, hkept⟩
        exact ⟨M, le_rfl, (h.bindCollection hab hbooks).foldl_unbind htaken,
          .cons (.enrol ⟨hab, hsite, rfl, .none, .nil, rfl⟩) (.one (.release (.watcher hab)))⟩

/-! ### Deliveries -/

omit h in
theorem get?_matched {α : Type} {R : α → α → Prop} {P : α → Prop} {es es' : Table SubscriptionId α}
    (hes : Woven (M.Entry R) (M.Foreign P) es es') {i j : SubscriptionId} (hij : M.ids.Pairs i j) :
    Option.Rel R (es.get? i) (es'.get? j) := by
  induction hes with
  | nil => exact .none
  | @cons e e' es es' he _ ih =>
    unfold Table.get?
    by_cases hi : e.1 = i
    · rw [if_pos hi, if_pos ((he.1.eq_iff hij).mp hi)]
      exact .some he.2
    · rw [if_neg hi, if_neg fun hj => hi ((he.1.eq_iff hij).mpr hj)]
      exact ih
  | @other e es es' he _ ih =>
    have hpassed : Table.get? (e :: es') j = Table.get? es' j := if_neg (he.1.ne_of_pairs hij)
    rw [hpassed]
    exact ih

/-- Who a subscription is for. -/
theorem Hosts.listener? (s : Subject) {i j : SubscriptionId} (hij : M.ids.Pairs i j) :
    Option.Rel (Listener.Matched M) ((g.notifierOf s).listener? i) ((g'.notifierOf s).listener? j) := by
  unfold Notifier.listener?
  rw [(h.notifier s).owners i j (Or.inl hij)]
  cases (g.notifierOf s).owners.get? i with
  | none => exact .none
  | some p => exact get?_matched ((h.notifier s).listeners p) hij

theorem Hosts.isLive_id (s : Subject) {i j : SubscriptionId} (hij : M.ids.Pairs i j) :
    (g'.notifierOf s).isLive j = (g.notifierOf s).isLive i := by
  unfold Notifier.isLive Table.has
  rw [(h.notifier s).owners i j (Or.inl hij)]

theorem Hosts.changeListener? (c : CollectionId) {i j : SubscriptionId} (hij : M.ids.Pairs i j) :
    Option.Rel (ChangeListener.Matched M) ((g.listenersOfCollection c).get? i) ((g'.listenersOfCollection c).get? j) :=
  get?_matched (h.changes c) hij

section

variable {agenda agenda' : List (Task κ)} (hagenda : Woven (Task.Matched G M) (Task.Guest G M) agenda agenda')

include hagenda

theorem Hosts.deliver (hnamed : ∀ o, g'.hasObject o = true → g'.isNamed o = true) (s : Subject) {i j : SubscriptionId}
    (hij : M.ids.Pairs i j) {l l' : Listener κ} (hl : l.Matched M l') : Woven (Task.Matched G M) (Task.Guest G M)
      (Scene.deliver { world := g, agenda } s i l) (Scene.deliver { world := g', agenda := agenda' } s j l') := by
  unfold Scene.deliver
  simp only [h.isLive_id s hij]
  split
  · cases hl with
    | code k context =>
      cases context with
      | none => exact .one (.request (.same rfl))
      | some o =>
        simp only [h.alive hagenda hnamed]
        split
        · exact .cons (.request (.same rfl)) (.one (.release (.value _)))
        · exact .nil
    | member hw n =>
      simp only [h.isLive hagenda hw]
      split
      · exact h.memberChanged hw n
      · exact .nil
  · exact .nil

theorem Hosts.deliverChange (c : CollectionId) {i j : SubscriptionId} (hij : M.ids.Pairs i j) {l l' : ChangeListener κ}
    (hl : l.Matched M l') (change : Change) : Conforms G M (Scene.deliverChange { world := g, agenda } c i l change)
      (Scene.deliverChange { world := g', agenda := agenda' } c j l' change) := by
  have hhas : (g'.listenersOfCollection c).has j = (g.listenersOfCollection c).has i := by
    have hrel := h.changeListener? c hij
    unfold Table.has
    generalize (g.listenersOfCollection c).get? i = x at hrel ⊢
    generalize (g'.listenersOfCollection c).get? j = x' at hrel ⊢
    cases hrel <;> rfl
  unfold Scene.deliverChange
  simp only [hhas]
  split
  · cases hl with
    | code k => exact .one h (.request (.same rfl))
    | membership hw =>
      simp only [h.isLive hagenda hw]
      split
      · exact h.membershipChanged hw change
      · exact .done h
  · exact .done h

/-! ### Trees -/

theorem Hosts.bury {t : TreeId} (ht : G.trees ≤ t) :
    (Scene.bury { world := g, agenda } t).Hosts G M (Scene.bury { world := g', agenda := agenda' } t) := by
  have hdropped : g'.trees[t]?.map (·.dropped) = g.trees[t]?.map (·.dropped) := by
    have htree := h.tree t ht
    generalize g.trees[t]? = x at htree ⊢
    generalize g'.trees[t]? = x' at htree ⊢
    cases htree with
    | none => rfl
    | some hx => exact congrArg some hx.dropped
  have hheld : (Scene.held { world := g', agenda := agenda' }).contains (.tree t) =
      (Scene.held { world := g, agenda }).contains (.tree t) := holds_tree_iff hagenda ht
  unfold Scene.bury
  simp only [hdropped, hheld]
  split
  · exact h.dispose ht
  · exact h

end

theorem Hosts.attach {t : TreeId} (ht : G.trees ≤ t) (context : ObjectId) :
    Conforms G M (g.attach t context) (g'.attach t context) := by
  have hdisposed := h.dispose ht
  have htree := hdisposed.tree t ht
  unfold World.attach
  simp only
  generalize (g.dispose t).trees[t]? = x at htree ⊢
  generalize (g'.dispose t).trees[t]? = x' at htree ⊢
  cases htree with
  | none => exact .done hdisposed
  | @some x x' hx =>
    have htop : Watcher.Matched G M (.object x.plan { tree := t, top := (g.dispose t).watchers.size, context } none)
        (.object x'.plan { tree := t, top := (g'.dispose t).watchers.size, context } none) := by
      rw [hx.plan]
      exact .object x.plan ⟨rfl, rfl, ht⟩ .none
    exact ⟨M.pairWatcher, M.le_pairWatcher, hdisposed.addWatcher htop,
      .cons (.bind hdisposed.newWatcher _) (.cons (.plant ht hdisposed.newWatcher) (.one (.release (.tree ht))))⟩

/-! ### Requests -/

theorem Hosts.ownedByCode (s : Subject) {i j : SubscriptionId} (hij : M.ids.Pairs i j) :
    g'.ownedByCode s j = g.ownedByCode s i := by
  unfold World.ownedByCode
  rw [reach_congr h.outline]
  congr 1
  funext s
  have hrel := h.listener? s hij
  generalize (g.notifierOf s).listener? i = x at hrel ⊢
  generalize (g'.notifierOf s).listener? j = x' at hrel ⊢
  cases hrel with
  | none => rfl
  | some hl => cases hl <;> rfl

theorem Hosts.changeOwnedByCode (c : CollectionId) {i j : SubscriptionId} (hij : M.ids.Pairs i j) :
    g'.changeOwnedByCode c j = g.changeOwnedByCode c i := by
  have hrel := h.changeListener? c hij
  unfold World.changeOwnedByCode
  generalize (g.listenersOfCollection c).get? i = x at hrel ⊢
  generalize (g'.listenersOfCollection c).get? j = x' at hrel ⊢
  cases hrel with
  | none => rfl
  | some hl => cases hl <;> rfl

theorem Hosts.collection (c : CollectionId) :
    Option.Rel (fun x x' : Collection κ => x'.free = x.free ∧ x'.items = x.items)
    g.collections[c]? g'.collections[c]? := by
  have hcleared : g'.outline.collections[c]? = g.outline.collections[c]? := by rw [h.outline]
  simp only [World.outline, Array.getElem?_map] at hcleared
  generalize g.collections[c]? = x at hcleared ⊢
  generalize g'.collections[c]? = x' at hcleared ⊢
  cases x <;> cases x' <;> simp_all

theorem Hosts.changeItems (c : CollectionId) (items : List ObjectId) {change : Change}
    (hadded : ∀ o ∈ change.added, g.hasObject o = true) :
    Conforms G M (g.changeItems c items change) (g'.changeItems c items change) := by
  have hknown : ∀ o ∈ change.added, (learned M g').known (.object o) := fun o ho =>
    (h.hasValue (.object o)).trans (hadded o ho)
  exact ⟨learned M g', h.le_learned, h.learn.edit (edits_items c items), h.learn.changeRound c hknown⟩

theorem Hosts.write (o : ObjectId) (p : String) (v : Value) : Conforms G M (g.write o p v) (g'.write o p v) := by
  have hholder : g'.holder o p = g.holder o p := by rw [← holder_outline, h.outline, holder_outline]
  unfold World.write
  rw [hholder]
  exact ⟨M, le_rfl, h.edit (edits_store o p v), h.round _ p⟩

theorem Hosts.set (o : ObjectId) (p : String) (v : Value) : Conforms G M (g.set o p v) (g'.set o p v) := by
  unfold World.set
  rw [read_congr h.outline]
  split
  · exact .done h
  · exact h.write o p v

/-- **What is asked for** is granted alike. -/
theorem Hosts.grant {rest rest' : List (Task κ)} (hrest : Woven (Task.Matched G M) (Task.Guest G M) rest rest')
    {r r' : Request κ} (hr : r.Renamed G.trees M.ids.Pairs r') : Conforms G M (g.grant rest r) (g'.grant rest' r') := by
  have hobject : g'.hasObject = g.hasObject := funext fun o => h.hasValue (.object o)
  have hvalue : g'.hasValue = g.hasValue := funext h.hasValue
  have hlist : g'.listOf = g.listOf := funext (listOf_congr h.outline)
  have hholder : g'.holder = g.holder := by
    funext o p
    rw [← holder_outline, h.outline, holder_outline]
  cases hr with
  | told k hij => exact .done h
  | unsubscribe s hij =>
    simp only [World.grant, h.ownedByCode s hij]
    split
    · exact .done (h.unsubscribe s hij)
    · exact .done h
  | unsubscribeChanges c hij =>
    simp only [World.grant, h.changeOwnedByCode c hij]
    split
    · exact .done (h.unsubscribeChanges c hij)
    · exact .done h
  | same hsame =>
    cases r <;> simp only [World.grant, hobject, hvalue, hlist, hholder]
    case newObject name properties base own =>
      split
      · exact .edit h (edits_newObject name rfl)
      · exact .done h
    case newCollection name items free =>
      split
      · exact .edit h (edits_newCollection name rfl)
      · exact .done h
    case newCommand name takesArgument => exact .edit h (edits_newCommand (fun names => names.set name) rfl)
    case nameCommand name c =>
      split
      · exact .edit h (edits_names id id fun names => names.set name c)
      · exact .done h
    case forgetObject name => exact .edit h (edits_names (fun names => names.erase name) id id)
    case forgetCollection name => exact .edit h (edits_names id (fun names => names.erase name) id)
    case write o p v =>
      split
      · exact h.write o p v
      · exact .done h
    case notify o p => exact ⟨M, le_rfl, h, h.round _ p⟩
    case hook o p k => exact .edit h (edits_hooks o fun hooks => hooks ++ [(p, k)])
    case subscribe s p k context receiver =>
      split
      · exact .one h (.subscribe s p (.code k context) (.code receiver))
      · exact .done h
    case unsubscribe => cases hsame
    case subscribeChanges c k receiver =>
      split
      · exact ⟨M.pairId, M.le_pairId, h.enterChangeListener c (.code k), .one (.request (.told receiver h.newId))⟩
      · exact .done h
    case unsubscribeChanges => cases hsame
    case push c o =>
      split
      · split
        · rename_i ho
          exact h.changeItems c _ (by simpa using ho)
        · exact .done h
      · exact .done h
    case insert c index o =>
      split
      · split
        · rename_i ho
          exact h.changeItems c _ (by simpa using ho)
        · exact .done h
      · exact .done h
    case remove c index =>
      split
      · split
        · exact h.changeItems c _ (by simp)
        · exact .done h
      · exact .done h
    case clear c =>
      split
      · split
        · exact .done h
        · exact h.changeItems c _ (by simp)
      · exact .done h
    case report c items change =>
      have hrel := h.collection c
      generalize g.collections[c]? = x at hrel ⊢
      generalize g'.collections[c]? = x' at hrel ⊢
      cases hrel with
      | none => exact .done h
      | some hx =>
        simp only [hx.1, hx.2]
        split
        · rename_i hexist
          rw [Bool.and_eq_true, List.all_eq_true] at hexist
          exact h.changeItems c _ fun o ho => hexist.2 o (List.mem_append_left _ (List.mem_append_right _ ho))
        · exact .done h
    case perform a context =>
      split
      · exact ⟨M, le_rfl, h, .cons (.perform a context) (.one (.release (.value _)))⟩
      · exact ⟨M, le_rfl, h, .nil⟩
    case newTree plan => exact .done (h.newTree plan)
    case attach t context =>
      split
      · exact h.attach (by simpa [Request.isUnnumbered] using hsame) context
      · exact .done h
    case dispose t => exact .done (h.dispose (by simpa [Request.isUnnumbered] using hsame))
    case drop t =>
      have ht : G.trees ≤ t := by simpa [Request.isUnnumbered] using hsame
      have hdropped : Hosts G M (g.modifyTree t fun x => { x with dropped := true })
          (g'.modifyTree t fun x => { x with dropped := true }) :=
            h.modifyTree ht fun x x' hx => ⟨hx.plan, hx.root, rfl⟩
      exact .done (hdropped.bury hrest ht)
    case call => exact .done h
    case hold => exact .done h

end World
end LiveRules
