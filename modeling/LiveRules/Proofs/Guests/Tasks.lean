/-
# Tasks with other numbers, and tasks of guests

What is still to be done in a world with guests: what is to be done without them, with
other numbers, and between that what the guests have to do. Client code never reads a
number off a subscription, so what it asks for differs in the numbers only.

Key definitions: `Request.Renamed`, `Task.Matched`, `Task.Guest`, `Conforms`.
Key theorems: `held_woven`, `World.Hosts.alive`, `World.Hosts.isLive`.
-/
import LiveRules.Proofs.Derived.Survival
import LiveRules.Proofs.Guests.Changes
import LiveRules.Machine.Step

namespace LiveRules

variable {κ : Type}

/-! ### Requests -/

/-- The code is told of another number. -/
inductive Signal.Renamed (R : SubscriptionId → SubscriptionId → Prop) : Signal → Signal → Prop
  | enter (context : Option ObjectId) (argument : Int64) : Renamed R (.enter context argument) (.enter context argument)
  | changed (change : Change) : Renamed R (.changed change) (.changed change)
  | subscribed {i j : SubscriptionId} (h : R i j) : Renamed R (.subscribed i) (.subscribed j)

/-- The request names no subscription, and none of the first `n` trees. -/
def Request.isUnnumbered (n : Nat) : Request κ → Bool
  | .unsubscribe _ _ => false
  | .unsubscribeChanges _ _ => false
  | .call _ (.subscribed _) => false
  | .attach t _ => n ≤ t
  | .dispose t => n ≤ t
  | .drop t => n ≤ t
  | _ => true

inductive Request.Renamed (n : Nat) (R : SubscriptionId → SubscriptionId → Prop) : Request κ → Request κ → Prop
  | same {r : Request κ} (h : r.isUnnumbered n = true) : Renamed n R r r
  | unsubscribe (s : Subject) {i j : SubscriptionId} (h : R i j) : Renamed n R (.unsubscribe s i) (.unsubscribe s j)
  | unsubscribeChanges (c : CollectionId) {i j : SubscriptionId} (h : R i j) :
      Renamed n R (.unsubscribeChanges c i) (.unsubscribeChanges c j)
  | told (k : κ) {i j : SubscriptionId} (h : R i j) : Renamed n R (.call k (.subscribed i)) (.call k (.subscribed j))

/-! ### Tasks -/

section

variable (G : Guests κ) (M : Matching)

inductive Held.Matched : Held → Held → Prop
  | value (v : Value) : Matched (.value v) (.value v)
  | watcher {w w' : WatcherId} (h : M.watchers.Pairs w w') : Matched (.watcher w) (.watcher w')
  | tree {t : TreeId} (h : G.trees ≤ t) : Matched (.tree t) (.tree t)

inductive Held.Guest : Held → Prop
  | value {v : Value} (h : M.known v) : Guest (.value v)
  | watcher {w : WatcherId} (h : M.watchers.Stray w) : Guest (.watcher w)
  | tree {t : TreeId} (h : t < G.trees) : Guest (.tree t)

structure Binding.Matched (b b' : Binding κ) : Prop where
  watcher : M.watchers.Pairs b.watcher b'.watcher
  site : b.site.Matched G b'.site
  subject : b'.subject = b.subject
  subscriptions : List.Forall₂ M.ids.Pairs b.subscriptions b'.subscriptions
  children : List.Forall₂ (Option.Rel M.watchers.Pairs) b.children b'.children
  rest : b'.rest = b.rest

structure Binding.Guest (b : Binding κ) : Prop where
  watcher : M.watchers.Stray b.watcher
  site : b.site.Guest G M
  subject : M.known b.subject.value
  subscriptions : ∀ id ∈ b.subscriptions, M.ids.Stray id
  children : ∀ w, some w ∈ b.children → M.watchers.Stray w
  rest : b.rest.Quiet G

inductive Receiver.Matched : Receiver κ → Receiver κ → Prop
  | code (k : κ) : Matched (.code k) (.code k)
  | binding {b b' : Binding κ} (h : b.Matched G M b') : Matched (.binding b) (.binding b')

structure Enrolment.Matched (e e' : Enrolment κ) : Prop where
  watcher : M.watchers.Pairs e.watcher e'.watcher
  site : e.site.Matched G e'.site
  item : e'.item = e.item
  binds : Option.Rel (fun x x' => x'.1 = x.1 ∧ M.ids.Pairs x.2 x'.2) e.binds e'.binds
  done : List.Forall₂ M.Items e.done e'.done
  pending : e'.pending = e.pending

structure Enrolment.Guest (e : Enrolment κ) : Prop where
  watcher : M.watchers.Stray e.watcher
  site : e.site.Guest G M
  item : e.item.Quiet G
  binds : ∀ x, e.binds = some x → M.known (.collection x.1) ∧ M.ids.Stray x.2
  done : ∀ d ∈ e.done, M.known (.object d.1) ∧ M.watchers.Stray d.2
  pending : ∀ o ∈ e.pending, M.known (.object o)

/-- The same task, with other numbers. -/
inductive Task.Matched : Task κ → Task κ → Prop
  | request {r r' : Request κ} (h : r.Renamed G.trees M.ids.Pairs r') : Matched (.request r) (.request r')
  | perform (a : Action κ) (context : ObjectId) : Matched (.perform a context) (.perform a context)
  | fire {site site' : Attachment} (h : site.Matched G site') (batch : Batch κ) :
      Matched (.fire site batch) (.fire site' batch)
  | deliver (s : Subject) {i j : SubscriptionId} (hid : M.ids.Pairs i j) {l l' : Listener κ} (hl : l.Matched M l') :
      Matched (.deliver s i l) (.deliver s j l')
  | deliverChange (c : CollectionId) {i j : SubscriptionId} (hid : M.ids.Pairs i j) {l l' : ChangeListener κ}
      (hl : l.Matched M l') (change : Change) : Matched (.deliverChange c i l change) (.deliverChange c j l' change)
  | bind {w w' : WatcherId} (h : M.watchers.Pairs w w') (v : Value) : Matched (.bind w v) (.bind w' v)
  | bindMembers {b b' : Binding κ} (h : b.Matched G M b') : Matched (.bindMembers b) (.bindMembers b')
  | enrol {e e' : Enrolment κ} (h : e.Matched G M e') : Matched (.enrol e) (.enrol e')
  | subscribe (s : Subject) (p : String) {l l' : Listener κ} (hl : l.Matched M l') {r r' : Receiver κ}
      (hr : r.Matched G M r') : Matched (.subscribe s p l r) (.subscribe s p l' r')
  | register (s : Subject) (p : String) {l l' : Listener κ} (hl : l.Matched M l') {r r' : Receiver κ}
      (hr : r.Matched G M r') : Matched (.register s p l r) (.register s p l' r')
  | plant {t : TreeId} (ht : G.trees ≤ t) {w w' : WatcherId} (hw : M.watchers.Pairs w w') :
    Matched (.plant t w) (.plant t w')
  | release {x x' : Held} (h : x.Matched G M x') : Matched (.release x) (.release x')

/-- A task of a guest, or of whoever attaches, moves and disposes of guests. -/
inductive Task.Guest : Task κ → Prop
  | attach {t : TreeId} (ht : t < G.trees) (context : ObjectId) : Guest (.request (.attach t context))
  | dispose {t : TreeId} (ht : t < G.trees) : Guest (.request (.dispose t))
  | drop {t : TreeId} (ht : t < G.trees) : Guest (.request (.drop t))
  | call {k : κ} (hk : G.quiet k) (context : Option ObjectId) (argument : Int64) :
      Guest (.request (.call k (.enter context argument)))
  | perform {a : Action κ} (ha : a.Quiet G) {context : ObjectId} (hcontext : M.known (.object context)) :
      Guest (.perform a context)
  | fire {site : Attachment} (hsite : site.Guest G M) {batch : Batch κ} (hbatch : batch.Quiet G) :
    Guest (.fire site batch)
  | deliver (s : Subject) (id : SubscriptionId) {l : Listener κ} (hl : l.Guest M) : Guest (.deliver s id l)
  | deliverChange (c : CollectionId) (id : SubscriptionId) {l : ChangeListener κ} (hl : l.Guest M) {change : Change}
      (hadded : ∀ o ∈ change.added, M.known (.object o)) : Guest (.deliverChange c id l change)
  | bind {w : WatcherId} (hw : M.watchers.Stray w) {v : Value} (hv : M.known v) : Guest (.bind w v)
  | bindMembers {b : Binding κ} (h : b.Guest G M) : Guest (.bindMembers b)
  | enrol {e : Enrolment κ} (h : e.Guest G M) : Guest (.enrol e)
  | subscribe {s : Subject} (hs : M.known s.value) (p : String) {l : Listener κ} (hl : l.Guest M) {b : Binding κ}
      (hb : b.Guest G M) : Guest (.subscribe s p l (.binding b))
  | register {s : Subject} (hs : M.known s.value) (p : String) {l : Listener κ} (hl : l.Guest M) {b : Binding κ}
      (hb : b.Guest G M) : Guest (.register s p l (.binding b))
  | plant {t : TreeId} (ht : t < G.trees) {w : WatcherId} (hw : M.watchers.Stray w) : Guest (.plant t w)
  | release {x : Held} (h : x.Guest G M) : Guest (.release x)

/-- Both come to worlds of which the one hosts guests, and to tasks with those of guests
between them. -/
def Conforms (r r' : World κ × List (Task κ)) : Prop :=
  ∃ N, M ≤ N ∧ r.1.Hosts G N r'.1 ∧ Woven (Task.Matched G N) (Task.Guest G N) r.2 r'.2

end

/-! ### Later on -/

section

variable {G : Guests κ} {M N : Matching} (h : M ≤ N)

include h

theorem Request.Renamed.mono {n : Nat} {r r' : Request κ} (hr : r.Renamed n M.ids.Pairs r') :
    r.Renamed n N.ids.Pairs r' := by
  cases hr with
  | same hr => exact .same hr
  | unsubscribe s hid => exact .unsubscribe s (h.ids.pairs hid)
  | unsubscribeChanges c hid => exact .unsubscribeChanges c (h.ids.pairs hid)
  | told k hid => exact .told k (h.ids.pairs hid)

theorem Held.Matched.mono {x x' : Held} (hx : x.Matched G M x') : x.Matched G N x' := by
  cases hx with
  | value v => exact .value v
  | watcher hw => exact .watcher (h.watchers.pairs hw)
  | tree ht => exact .tree ht

theorem Held.Guest.mono {x : Held} (hx : x.Guest G M) : x.Guest G N := by
  cases hx with
  | value hv => exact .value (h.known hv)
  | watcher hw => exact .watcher (h.watchers.stray hw)
  | tree ht => exact .tree ht

theorem Binding.Matched.mono {b b' : Binding κ} (hb : b.Matched G M b') : b.Matched G N b' where
  watcher := h.watchers.pairs hb.watcher
  site := hb.site
  subject := hb.subject
  subscriptions := hb.subscriptions.imp fun _ _ => h.ids.pairs
  children := hb.children.imp fun _ _ => optionRel_mono fun _ _ => h.watchers.pairs
  rest := hb.rest

theorem Binding.Guest.mono {b : Binding κ} (hb : b.Guest G M) : b.Guest G N where
  watcher := h.watchers.stray hb.watcher
  site := hb.site.mono h
  subject := h.known hb.subject
  subscriptions id hid := h.ids.stray (hb.subscriptions id hid)
  children w hw := h.watchers.stray (hb.children w hw)
  rest := hb.rest

theorem Receiver.Matched.mono {r r' : Receiver κ} (hr : r.Matched G M r') : r.Matched G N r' := by
  cases hr with
  | code k => exact .code k
  | binding hb => exact .binding (hb.mono h)

theorem Enrolment.Matched.mono {e e' : Enrolment κ} (he : e.Matched G M e') : e.Matched G N e' where
  watcher := h.watchers.pairs he.watcher
  site := he.site
  item := he.item
  binds := optionRel_mono (fun _ _ hx => ⟨hx.1, h.ids.pairs hx.2⟩) he.binds
  done := he.done.imp fun _ _ => Matching.Items.mono h
  pending := he.pending

theorem Enrolment.Guest.mono {e : Enrolment κ} (he : e.Guest G M) : e.Guest G N where
  watcher := h.watchers.stray he.watcher
  site := he.site.mono h
  item := he.item
  binds x hx := ⟨h.known (he.binds x hx).1, h.ids.stray (he.binds x hx).2⟩
  done d hd := ⟨h.known (he.done d hd).1, h.watchers.stray (he.done d hd).2⟩
  pending o ho := h.known (he.pending o ho)

theorem Task.Matched.mono {t t' : Task κ} (ht : t.Matched G M t') : t.Matched G N t' := by
  cases ht with
  | request hr => exact .request (hr.mono h)
  | perform a context => exact .perform a context
  | fire hsite batch => exact .fire hsite batch
  | deliver s hid hl => exact .deliver s (h.ids.pairs hid) (hl.mono h)
  | deliverChange c hid hl change => exact .deliverChange c (h.ids.pairs hid) (hl.mono h) change
  | bind hw v => exact .bind (h.watchers.pairs hw) v
  | bindMembers hb => exact .bindMembers (hb.mono h)
  | enrol he => exact .enrol (he.mono h)
  | subscribe s p hl hr => exact .subscribe s p (hl.mono h) (hr.mono h)
  | register s p hl hr => exact .register s p (hl.mono h) (hr.mono h)
  | plant ht hw => exact .plant ht (h.watchers.pairs hw)
  | release hx => exact .release (hx.mono h)

theorem Task.Guest.mono {t : Task κ} (ht : t.Guest G M) : t.Guest G N := by
  cases ht with
  | attach ht context => exact .attach ht context
  | dispose ht => exact .dispose ht
  | drop ht => exact .drop ht
  | call hk context argument => exact .call hk context argument
  | perform ha hcontext => exact .perform ha (h.known hcontext)
  | fire hsite hbatch => exact .fire (hsite.mono h) hbatch
  | deliver s id hl => exact .deliver s id (hl.mono h)
  | deliverChange c id hl hadded => exact .deliverChange c id (hl.mono h) fun o ho => h.known (hadded o ho)
  | bind hw hv => exact .bind (h.watchers.stray hw) (h.known hv)
  | bindMembers hb => exact .bindMembers (hb.mono h)
  | enrol he => exact .enrol (he.mono h)
  | subscribe hs p hl hb => exact .subscribe (h.known hs) p (hl.mono h) (hb.mono h)
  | register hs p hl hb => exact .register (h.known hs) p (hl.mono h) (hb.mono h)
  | plant ht hw => exact .plant ht (h.watchers.stray hw)
  | release hx => exact .release (hx.mono h)

theorem woven_mono {ts ts' : List (Task κ)} (hts : Woven (Task.Matched G M) (Task.Guest G M) ts ts') :
    Woven (Task.Matched G N) (Task.Guest G N) ts ts' :=
  hts.mono (fun _ _ => Task.Matched.mono h) fun _ => Task.Guest.mono h

theorem Conforms.of_le {r r' : World κ × List (Task κ)} (hr : Conforms G N r r') : Conforms G M r r' := by
  obtain ⟨K, hNK, hrest⟩ := hr
  exact ⟨K, h.trans hNK, hrest⟩

end

/-! ### What is held -/

section

variable {G : Guests κ} {M : Matching}

theorem Binding.Matched.held {b b' : Binding κ} (h : b.Matched G M b') :
    List.Forall₂ (Held.Matched G M) b.held b'.held := by
  have hchildren : ∀ {cs cs' : List (Option WatcherId)}, List.Forall₂ (Option.Rel M.watchers.Pairs) cs cs' →
      List.Forall₂ (Held.Matched G M) (cs.filterMap (·.map .watcher)) (cs'.filterMap (·.map .watcher)) := by
    intro cs cs' hcs
    induction hcs with
    | nil => exact .nil
    | cons hc _ ih =>
      cases hc with
      | none => exact ih
      | some hw => exact .cons (.watcher hw) ih
  unfold Binding.held
  rw [h.subject]
  exact .cons (.watcher h.watcher) (.cons (.value _) (hchildren h.children))

theorem Binding.Guest.held {b : Binding κ} (h : b.Guest G M) : ∀ x ∈ b.held, x.Guest G M := by
  intro x hx
  simp only [Binding.held, List.mem_cons, List.mem_filterMap] at hx
  rcases hx with rfl | rfl | ⟨c, hc, hx⟩
  · exact .watcher h.watcher
  · exact .value h.subject
  · obtain ⟨w, rfl, rfl⟩ := Option.map_eq_some_iff.mp hx
    exact .watcher (h.children w hc)

theorem Receiver.Matched.held {r r' : Receiver κ} (h : r.Matched G M r') :
    List.Forall₂ (Held.Matched G M) r.held r'.held := by
  cases h with
  | code k => exact .nil
  | binding hb => exact hb.held

theorem Enrolment.Matched.held {e e' : Enrolment κ} (h : e.Matched G M e') :
    List.Forall₂ (Held.Matched G M) e.held e'.held := by
  have hbinds : List.Forall₂ (Held.Matched G M) (e.binds.toList.map fun b => .value (.collection b.1))
      (e'.binds.toList.map fun b => .value (.collection b.1)) := by
    have hrel := h.binds
    generalize e.binds = x at hrel ⊢
    generalize e'.binds = x' at hrel ⊢
    cases hrel with
    | none => exact .nil
    | some hx =>
      simp only [Option.toList_some, List.map_cons, List.map_nil, hx.1]
      exact .cons (.value _) .nil
  have hdone : List.Forall₂ (Held.Matched G M) (e.done.flatMap fun d => [.value (.object d.1), .watcher d.2])
      (e'.done.flatMap fun d => [.value (.object d.1), .watcher d.2]) := by
    refine List.rel_flatMap h.done fun d d' hd => ?_
    rw [hd.1]
    exact .cons (.value _) (.cons (.watcher hd.2) .nil)
  have hpending : List.Forall₂ (Held.Matched G M) (e.pending.map fun o => .value (.object o))
      (e'.pending.map fun o => .value (.object o)) := by
    rw [h.pending, List.forall₂_map_left_iff, List.forall₂_map_right_iff]
    exact List.forall₂_same.mpr fun o _ => .value _
  unfold Enrolment.held
  exact List.rel_append (List.rel_append (.cons (.watcher h.watcher) hbinds) hdone) hpending

theorem Enrolment.Guest.held {e : Enrolment κ} (h : e.Guest G M) : ∀ x ∈ e.held, x.Guest G M := by
  intro x hx
  simp only [Enrolment.held, List.mem_append, List.mem_cons, List.mem_map, List.mem_flatMap, Option.mem_toList] at hx
  rcases hx with ((rfl | ⟨y, hy, rfl⟩) | ⟨d, hd, rfl | rfl | hx⟩) | ⟨o, ho, rfl⟩
  · exact .watcher h.watcher
  · exact .value (h.binds y hy).1
  · exact .value (h.done d hd).1
  · exact .watcher (h.done d hd).2
  · cases hx
  · exact .value (h.pending o ho)

theorem Task.Matched.held {t t' : Task κ} (h : t.Matched G M t') : List.Forall₂ (Held.Matched G M) t.held t'.held := by
  cases h with
  | @request r r' hr =>
    cases hr with
    | same _ =>
      cases r with
      | hold v => exact .cons (.value v) .nil
      | _ => exact .nil
    | unsubscribe _ _ => exact .nil
    | unsubscribeChanges _ _ => exact .nil
    | told _ _ => exact .nil
  | perform a context => exact .nil
  | fire _ _ => exact .nil
  | deliver _ _ _ => exact .nil
  | deliverChange _ _ _ _ => exact .nil
  | bind hw v => exact .cons (.watcher hw) (.cons (.value v) .nil)
  | bindMembers hb => exact hb.held
  | enrol he => exact he.held
  | subscribe s p _ hr => exact .cons (.value _) hr.held
  | register s p _ hr => exact .cons (.value _) hr.held
  | plant ht hw => exact .cons (.tree ht) (.cons (.watcher hw) .nil)
  | release hx => exact .cons hx .nil

theorem Task.Guest.held {t : Task κ} (h : t.Guest G M) : ∀ x ∈ t.held, x.Guest G M := by
  cases h with
  | bind hw hv => simpa [Task.held] using ⟨Held.Guest.watcher hw, Held.Guest.value hv⟩
  | bindMembers hb => exact hb.held
  | enrol he => exact he.held
  | subscribe hs p _ hb => exact List.forall_mem_cons.mpr ⟨.value hs, hb.held⟩
  | register hs p _ hb => exact List.forall_mem_cons.mpr ⟨.value hs, hb.held⟩
  | plant ht hw => simpa [Task.held] using ⟨Held.Guest.tree ht, Held.Guest.watcher hw⟩
  | release hx => simpa [Task.held] using hx
  | _ => simp [Task.held]

/-- **What is held**, with what guests hold in between. -/
theorem held_woven {agenda agenda' : List (Task κ)} (h : Woven (Task.Matched G M) (Task.Guest G M) agenda agenda') :
    Woven (Held.Matched G M) (Held.Guest G M) (agenda.flatMap Task.held) (agenda'.flatMap Task.held) :=
  h.flatMap (fun _ _ ht => .of_forall₂ ht.held) fun _ ht => ht.held

end

namespace World

variable {G : Guests κ} {M : Matching} {g g' : World κ} {agenda agenda' : List (Task κ)} (h : g.Hosts G M g')
  (hagenda : Woven (Task.Matched G M) (Task.Guest G M) agenda agenda')

include h hagenda

theorem Hosts.heldNodes : Woven M.watchers.Pairs M.watchers.Stray (g.heldNodes (Scene.held { world := g, agenda }))
    (g'.heldNodes (Scene.held { world := g', agenda := agenda' })) := by
  have hwatchers : Woven M.watchers.Pairs M.watchers.Stray (heldWatchers (agenda.flatMap Task.held))
      (heldWatchers (agenda'.flatMap Task.held)) := by
    refine (held_woven hagenda).filterMap (fun x x' hx => ?_) fun x hx => ?_
    · cases hx with
      | value v => exact .none
      | watcher hw => exact .some hw
      | tree ht => exact .none
    · cases hx with
      | value hv => simp
      | watcher hw => simpa using hw
      | tree ht => simp
  exact hwatchers.flatMap (fun a b hab => .of_forall₂ (h.nodes hab)) fun b hb => h.nodes_guest hb

/-- **Watchers are alive** if what they stand for is. -/
theorem Hosts.isLive {a b : WatcherId} (hab : M.watchers.Pairs a b) :
    Scene.isLive { world := g', agenda := agenda' } b = Scene.isLive { world := g, agenda } a := by
  have hmem {ws ws' : List WatcherId} (hws : Woven M.watchers.Pairs M.watchers.Stray ws ws') :
      ws'.contains b = ws.contains a := by
    rw [Bool.eq_iff_iff, List.contains_iff_mem, List.contains_iff_mem]
    constructor
    · intro hb
      rcases hws.mem hb with hstray | ⟨c, hc, hcb⟩
      · exact absurd rfl (hstray.ne_of_pairs hab)
      · exact (hcb.eq_iff hab).mpr rfl ▸ hc
    · intro ha
      obtain ⟨c, hc, hac⟩ := hws.exists_match ha
      exact (hac.eq_iff hab).mp rfl ▸ hc
  unfold Scene.isLive
  rw [hmem h.planted, hmem (h.heldNodes hagenda)]

omit h in
/-- What guests do not hold, and what stands for itself, is held in both or in neither. -/
theorem holds_iff {x : Held} (hguest : ¬ x.Guest G M) (hself : ∀ y, y.Matched G M x ∨ x.Matched G M y → y = x) :
    (Scene.held { world := g', agenda := agenda' }).contains x = (Scene.held { world := g, agenda }).contains x := by
  have hheld := held_woven hagenda
  rw [Bool.eq_iff_iff, List.contains_iff_mem, List.contains_iff_mem]
  constructor
  · intro hmem
    obtain ⟨y, hy, hmatched⟩ := (hheld.mem hmem).resolve_left hguest
    exact hself y (Or.inl hmatched) ▸ hy
  · intro hmem
    obtain ⟨y, hy, hmatched⟩ := hheld.exists_match hmem
    exact hself y (Or.inr hmatched) ▸ hy

omit h in
theorem holds_tree_iff {t : TreeId} (ht : G.trees ≤ t) :
    (Scene.held { world := g', agenda := agenda' }).contains (.tree t) =
      (Scene.held { world := g, agenda }).contains (.tree t) := by
  refine holds_iff hagenda (fun hguest => ?_) ?_
  · cases hguest with
    | tree hlt => exact Nat.not_lt_of_le ht hlt
  · rintro y (hy | hy) <;> cases hy <;> rfl

omit h hagenda in
/-- What does not exist does not survive. -/
theorem not_survives {o : ObjectId} (roots : List Value) (ho : g.hasObject o ≠ true) :
    (g.survivors roots g.everything.length g.everything).contains (.object o) = false := by
  rw [Bool.eq_false_iff, ne_eq, List.contains_iff_mem]
  intro hmem
  have hexists := survivors_subset _ _ hmem
  simp only [everything, List.mem_append, List.mem_map, List.mem_range] at hexists
  rcases hexists with ⟨i, hi, heq⟩ | ⟨c, -, heq⟩
  · exact ho (by simpa [hasObject] using Value.object.inj heq ▸ hi)
  · cases heq

/-- **Who is alive** is the same, if everything that exists has a name. -/
theorem Hosts.alive (hnamed : ∀ o, g'.hasObject o = true → g'.isNamed o = true) (o : ObjectId) :
    Scene.alive { world := g', agenda := agenda' } o = Scene.alive { world := g, agenda } o := by
  have hobject : g'.hasObject o = g.hasObject o := h.hasValue (.object o)
  have hsame : g'.isNamed o = g.isNamed o := by
    have hnames := congrArg World.objectNames h.outline
    unfold isNamed
    rw [show g'.objectNames = g.objectNames from hnames]
  by_cases ho : g'.hasObject o = true
  · unfold Scene.alive
    rw [← hsame, hnamed o ho]
    rfl
  -- what does not exist may be held by a task, but not by one of a guest
  · have hheld : (Scene.held { world := g', agenda := agenda' }).contains (.value (.object o)) =
        (Scene.held { world := g, agenda }).contains (.value (.object o)) := by
      refine holds_iff hagenda (fun hguest => ?_) ?_
      · cases hguest with
        | value hknown => exact ho (h.known _ hknown)
      · rintro y (hy | hy) <;> cases hy <;> rfl
    unfold Scene.alive isHeld
    rw [hsame, hheld, not_survives _ ho, not_survives _ (hobject ▸ ho)]

end World
end LiveRules
