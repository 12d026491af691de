/-
# What a tree and its copy come to

In twin worlds, tasks that differ as the worlds do come to tasks that again differ so.
Now and then the copy has a task more, which holds the base while an action acts on it.

Key definitions: `Task.Twin`, `Task.Spare`, `Matches`.
Key theorems: `World.Twin.bind`, `World.Twin.deliver`, `World.Twin.attachCopy`,
`World.Twin.grant`.
-/
import LiveRules.Proofs.Derived.Survival
import LiveRules.Proofs.Woven

namespace LiveRules

variable {κ : Type}

/-! ### Twin tasks -/

inductive Binding.Twin (d b : ObjectId) (x : Binding κ) : Binding κ → Prop
  | intro {s' : Subject} {site' : Attachment} {f : Action κ → Action κ} (hsubject : x.subject.Twin d b s')
      (hguise : Guise d b x.site site' f) :
      Twin d b x { x with subject := s', site := site', rest := x.rest.map (onActions f) }

inductive Receiver.Twin (d b : ObjectId) : Receiver κ → Receiver κ → Prop
  | code (k : κ) : Twin d b (.code k) (.code k)
  | binding {x x' : Binding κ} (h : x.Twin d b x') : Twin d b (.binding x) (.binding x')

inductive Enrolment.Twin (d b : ObjectId) (e : Enrolment κ) : Enrolment κ → Prop
  | intro {site' : Attachment} {f : Action κ → Action κ} (hguise : Guise d b e.site site' f) :
      Twin d b e { e with site := site', item := e.item.map (onActions f) }

/-- A task that knows nothing of what a tree watches or fires. -/
def Task.isNeutral : Task κ → Bool
  | .request _ => true
  | .perform _ _ => true
  | .deliver _ _ _ => true
  | .deliverChange _ _ _ _ => true
  | .plant _ _ => true
  | .release _ => true
  | _ => false

/-- What is to be done for the base, and for the object that forwards to it. -/
inductive Task.Twin (t : TreeId) (d b : ObjectId) : Task κ → Task κ → Prop
  | same {u : Task κ} (hu : u.isNeutral = true) : Twin t d b u u
  | attach : Twin t d b (.request (.attach t b)) (.request (.attach t d))
  | ask (a : Action κ) : Twin t d b (.request (.perform a b)) (.request (.perform (.onBase a) d))
  | perform (a : Action κ) : Twin t d b (.perform a b) (.perform (.onBase a) d)
  | fire {site site' : Attachment} {f : Action κ → Action κ} (hguise : Guise d b site site' f) (batch : Batch κ) :
      Twin t d b (.fire site batch) (.fire site' (batch.map (onActions f)))
  | bind (w : WatcherId) {v v' : Value} (hv : v.Twin d b v') : Twin t d b (.bind w v) (.bind w v')
  | bindMembers {x x' : Binding κ} (h : x.Twin d b x') : Twin t d b (.bindMembers x) (.bindMembers x')
  | enrol {e e' : Enrolment κ} (h : e.Twin d b e') : Twin t d b (.enrol e) (.enrol e')
  | subscribe {s s' : Subject} (hs : s.Twin d b s') (p : String) (l : Listener κ) {r r' : Receiver κ}
      (hr : r.Twin d b r') : Twin t d b (.subscribe s p l r) (.subscribe s' p l r')
  | register (s : Subject) (p : String) (l : Listener κ) {r r' : Receiver κ} (hr : r.Twin d b r') :
      Twin t d b (.register s p l r) (.register s p l r')
  | release {v v' : Value} (hv : v.Twin d b v') : Twin t d b (.release (.value v)) (.release (.value v'))

/-- The copy is done with acting on the base. -/
def Task.Spare (b : ObjectId) (u : Task κ) : Prop :=
  u = .release (.value (.object b))

theorem Binding.Twin.refl (d b : ObjectId) (x : Binding κ) : x.Twin d b x := by
  have h := Binding.Twin.intro (.refl d b x.subject) (.same (κ := κ) (d := d) (b := b) x.site)
  rwa [Plan.map_onActions_id] at h

theorem Receiver.Twin.refl (d b : ObjectId) (r : Receiver κ) : r.Twin d b r := by
  cases r with
  | code k => exact .code k
  | binding x => exact .binding (.refl d b x)

theorem Enrolment.Twin.refl (d b : ObjectId) (e : Enrolment κ) : e.Twin d b e := by
  have h := Enrolment.Twin.intro (.same (κ := κ) (d := d) (b := b) e.site)
  rwa [Plan.map_onActions_id] at h

theorem Task.Twin.refl (t : TreeId) (d b : ObjectId) (u : Task κ) : u.Twin t d b u := by
  cases u with
  | fire site batch =>
    have h := Task.Twin.fire (t := t) (.same (κ := κ) (d := d) (b := b) site) batch
    rwa [Batch.map_onActions_id] at h
  | bind w v => exact .bind w (.refl d b v)
  | bindMembers x => exact .bindMembers (.refl d b x)
  | enrol e => exact .enrol (.refl d b e)
  | subscribe s p l r => exact .subscribe (.refl d b s) p l (.refl d b r)
  | register s p l r => exact .register s p l (.refl d b r)
  | _ => exact .same rfl

/-! ### What twin tasks hold -/

section

variable {t : TreeId} {d b : ObjectId}

theorem Binding.Twin.held {x x' : Binding κ} (h : x.Twin d b x') : HeldAlike d b x.held x'.held := by
  cases h with
  | intro hsubject _ =>
    exact (HeldAlike.refl d b [.watcher x.watcher]).append
      ((HeldAlike.value hsubject.value).append (.refl d b _))

theorem Receiver.Twin.held {r r' : Receiver κ} (h : r.Twin d b r') : HeldAlike d b r.held r'.held := by
  cases h with
  | code k => exact .refl d b _
  | binding h => exact h.held

theorem Task.Twin.held {u u' : Task κ} (h : u.Twin t d b u') : HeldAlike d b u.held u'.held := by
  cases h with
  | bind w hv => exact (HeldAlike.refl d b [.watcher w]).append (.value hv)
  | bindMembers h => exact h.held
  | enrol h =>
    cases h
    exact .refl d b _
  | subscribe hs p l hr => exact (HeldAlike.value hs.value).append hr.held
  | register s p l hr => exact (HeldAlike.refl d b [.value s.value]).append hr.held
  | release hv => exact .value hv
  | _ => exact .refl d b _

/-- **What is held** on both sides, whatever else the copy holds of the base. -/
theorem Woven.held {agenda agenda' : List (Task κ)} (h : Woven (Task.Twin t d b) (Task.Spare b) agenda agenda') :
    HeldAlike d b (agenda.flatMap Task.held) (agenda'.flatMap Task.held) := by
  induction h with
  | nil => exact .refl d b _
  | cons h _ ih =>
    rw [List.flatMap_cons, List.flatMap_cons]
    exact h.held.append ih
  | @other u agenda agenda' h _ ih =>
    obtain rfl := h
    rw [List.flatMap_cons, ← List.nil_append (agenda.flatMap Task.held)]
    exact (HeldAlike.base d b).append ih

end

/-! ### Watching -/

/-- Twin worlds, and twin tasks to be done in them. -/
structure Matches (t : TreeId) (d b : ObjectId) (r r' : World κ × List (Task κ)) : Prop where
  world : r.1.Twin t d b r'.1
  tasks : Woven (Task.Twin t d b) (Task.Spare b) r.2 r'.2

namespace World

variable {t : TreeId} {d b : ObjectId} {g g' : World κ}

theorem Twin.plain (h : g.Twin t d b g') (tasks : List (Task κ)) : Matches t d b (g, tasks) (g', tasks) :=
  ⟨h, .refl (.refl t d b) tasks⟩

section

variable (h : g.Twin t d b g') (hfronts : g.Fronts d b)

include h hfronts

/-- The same is seen through the object as on its base. -/
theorem Twin.memberValue {s s' : Subject} (hs : s.Twin d b s') (p : String) :
    g'.memberValue s' p = g.memberValue s p := by
  rw [memberValue_congr h.outline]
  rcases hs with rfl | ⟨rfl, rfl⟩
  · rfl
  · exact hfronts.read p

theorem Twin.bind {v v' : Value} (hv : v.Twin d b v') (w : WatcherId) : Matches t d b (g.bind w v) (g'.bind w v') := by
  have hunbound := h.unbind hfronts w
  have hw := hunbound.watcher w
  unfold World.bind
  simp only
  generalize g.unbind w = g₁ at hunbound hw ⊢
  generalize g'.unbind w = g₁' at hunbound hw ⊢
  generalize g₁.watchers[w]? = x at hw ⊢
  generalize g₁'.watchers[w]? = x' at hw ⊢
  cases hw with
  | none => exact ⟨hunbound, .nil⟩
  | some hx =>
    cases hx with
    | @object plan site site' f _ _ hguise _ =>
      have hbinds : ∀ {s s' : Subject}, s.Twin d b s' → Matches t d b
          (g₁, [.bindMembers { watcher := w, site, subject := s, rest := plan }])
          (g₁', [.bindMembers { watcher := w, site := site', subject := s', rest := plan.map (onActions f) }]) :=
        fun hs => ⟨hunbound, .one (.bindMembers
          (.intro (x := { watcher := w, site, subject := _, rest := plan }) hs hguise))⟩
      rcases hv with rfl | ⟨rfl, rfl⟩
      · cases v' with
        | object o => exact hbinds (.refl d b _)
        | command c => exact hbinds (.refl d b _)
        | scalar _ => exact ⟨hunbound, .nil⟩
        | collection _ => exact ⟨hunbound, .nil⟩
      · exact hbinds (Or.inr ⟨rfl, rfl⟩)
    | @collection item membership site site' f _ hguise =>
      rcases hv with rfl | ⟨rfl, rfl⟩
      · cases v' with
        | collection c =>
          have hframe := hunbound.frame
          have hentered : (g₁.enterChangeListener c (.membership w)).Twin t d b
              (g₁'.enterChangeListener c (.membership w)) := by
            conv_rhs => rw [hframe]
            exact hunbound.frameOf (g₁.enterChangeListener c (.membership w)) rfl rfl
          have hnext : g₁'.nextSubscription = g₁.nextSubscription := by
            rw [hframe]
            rfl
          refine ⟨hentered, ?_⟩
          simp only [Value.collection?, hnext, itemsOf_congr hentered.outline]
          exact .one (.enrol (.intro hguise))
        | object _ => exact ⟨hunbound, .nil⟩
        | command _ => exact ⟨hunbound, .nil⟩
        | scalar _ => exact ⟨hunbound, .nil⟩
      · exact ⟨hunbound, .nil⟩

omit hfronts in
theorem Twin.bindMembers {x x' : Binding κ} (hx : x.Twin d b x') :
    Matches t d b (g.bindMembers x) (g'.bindMembers x') := by
  have htwin := hx
  cases hx with
  | @intro s' site' f hsubject hguise =>
    have hnext : ∀ name : String, Matches t d b
        (g, [.subscribe x.subject name (.member x.watcher x.subscriptions.length) (.binding x)])
        (g', [.subscribe s' name (.member x.watcher x.subscriptions.length)
          (.binding { x with subject := s', site := site', rest := x.rest.map (onActions f) })]) :=
      fun name => ⟨h, .one (.subscribe hsubject name _ (.binding htwin))⟩
    unfold World.bindMembers
    cases hrest : x.rest with
    | nil => exact ⟨h.bindObject x.watcher ⟨hsubject, rfl, rfl⟩, .nil⟩
    | value name _ _ | object name _ _ _ | collection name _ _ _ _ =>
      have hfirst := hnext name
      rw [hrest] at hfirst
      exact hfirst

theorem Twin.bindChild {x x' : Binding κ} (hx : x.Twin d b x') (id : SubscriptionId) :
    Matches t d b (g.bindChild x id) (g'.bindChild x' id) := by
  cases hx with
  | @intro s' site' f hsubject hguise =>
    have hvalue := h.memberValue hfronts hsubject
    unfold World.bindChild
    cases hrest : x.rest with
    | nil => exact ⟨h, .nil⟩
    | value name fire next =>
      exact ⟨h, .one (.bindMembers (.intro (x := { x with
        subscriptions := x.subscriptions ++ [id], children := x.children ++ [none], rest := next }) hsubject hguise))⟩
    | object name fire inside next =>
      refine ⟨h.addWatcher (.object hguise .none), ?_⟩
      simp only [Plan.map, hvalue, h.size]
      exact .cons (.bind _ (.refl d b _)) (.one (.bindMembers (.intro (x := { x with
        subscriptions := x.subscriptions ++ [id], children := x.children ++ [some g.watchers.size], rest := next })
          hsubject hguise)))
    | collection name fire membership item next =>
      refine ⟨h.addWatcher (.collection hguise), ?_⟩
      simp only [Plan.map, hvalue, h.size]
      exact .cons (.bind _ (.refl d b _)) (.one (.bindMembers (.intro (x := { x with
        subscriptions := x.subscriptions ++ [id], children := x.children ++ [some g.watchers.size], rest := next })
          hsubject hguise)))

theorem Twin.enrol {e e' : Enrolment κ} (he : e.Twin d b e') : Matches t d b (g.enrol e) (g'.enrol e') := by
  cases he with
  | @intro site' f hguise =>
    have hfolded : Matches t d b ((e.done.map (·.2)).foldl World.unbind g, [])
        ((e.done.map (·.2)).foldl World.unbind g', []) := ⟨h.foldl_unbind hfronts _, .nil⟩
    have hw := h.watcher e.watcher
    unfold World.enrol
    simp only [Plan.isNil_map]
    cases e.item.isNil <;> cases e.pending
    case false.cons o os =>
      refine ⟨h.addWatcher (.object hguise .none), ?_⟩
      simp only [h.size]
      exact .cons (.bind _ (.refl d b _)) (.one (.enrol (.intro (e := { e with
        done := e.done ++ [(o, g.watchers.size)], pending := os }) hguise)))
    -- otherwise the enrolment ends
    all_goals
      cases e.binds with
      | some c => exact ⟨h.bindCollection e.watcher _, .nil⟩
      | none =>
        simp only
        generalize g.watchers[e.watcher]? = x at hw ⊢
        generalize g'.watchers[e.watcher]? = x' at hw ⊢
        cases hw with
        | none => exact hfolded
        | some hx =>
          cases hx with
          | object _ _ => exact hfolded
          | @collection _ _ _ _ _ bound hguise' =>
            cases bound with
            | none => exact hfolded
            | some y => exact ⟨h.bindCollection e.watcher _, .one (.fire hguise' _)⟩

/-! ### Subscribing -/

theorem Twin.answer {r r' : Receiver κ} (hr : r.Twin d b r') (id : SubscriptionId) :
    Matches t d b (g.answer id r) (g'.answer id r') := by
  cases hr with
  | code k => exact h.plain _
  | binding hx => exact h.bindChild hfronts hx id

theorem Twin.register (s : Subject) (p : String) (l : Listener κ) {r r' : Receiver κ} (hr : r.Twin d b r') :
    Matches t d b (g.register s p l r) (g'.register s p l r') := by
  have hframe := h.frame
  have hentered : (g.enterListener s p l).Twin t d b (g'.enterListener s p l) := by
    conv_rhs => rw [hframe, enterListener_refit]
    exact h.frameOf _ (g.enterListener_watchers s p l) (g.enterListener_trees s p l)
  have hnext : g'.nextSubscription = g.nextSubscription := by
    rw [hframe]
    rfl
  have hfrontsEntered : s ≠ .object d → (g.enterListener s p l).Fronts d b := by
    intro hs
    refine hfronts.of_watching (g.enterListener_outline s p l) fun o x hx ho => ?_
    subst ho
    have hsame : (g.enterListener s p l).objects[o]? = g.objects[o]? := by
      cases s with
      | command c => rfl
      | object i =>
        have hne : i ≠ o := fun heq => hs (heq ▸ rfl)
        simp [enterListener, modifyNotifier, modifyObject, Array.getElem?_modify, hne]
    exact hfronts.forwards o x (hsame ▸ hx) rfl
  have hhere : s ≠ .object d → Matches t d b ((g.enterListener s p l).answer g.nextSubscription r)
      ((g'.enterListener s p l).answer g'.nextSubscription r') := fun hs =>
    hnext ▸ hentered.answer (hfrontsEntered hs) hr _
  unfold World.register
  cases s with
  | command c => exact hhere (by simp)
  | object o =>
    have hbase : g'.baseOf o = g.baseOf o := baseOf_congr h.outline o
    have hanswers : g'.answersFor p o = g.answersFor p o := by
      rw [hframe]
      rfl
    simp only [hbase, hanswers]
    by_cases ho : o = d
    · subst ho
      simp only [hfronts.baseOf, hfronts.answersFor]
      exact ⟨h, .one (.subscribe (.refl _ _ _) p l hr)⟩
    · have hne : Subject.object o ≠ .object d := fun heq => ho (Subject.object.inj heq)
      split
      · split
        · exact hhere hne
        · exact ⟨h, .one (.subscribe (.refl _ _ _) p l hr)⟩
      · exact hhere hne

omit hfronts in
theorem Twin.subscribe (s : Subject) (p : String) (l : Listener κ) {r r' : Receiver κ} (hr : r.Twin d b r') :
    Matches t d b (g.subscribe s p l r) (g'.subscribe s p l r') := by
  have hframe := h.frame
  have hregisters : ∀ {g g' : World κ}, g.Twin t d b g' →
      Matches t d b (g, [.register s p l r]) (g', [.register s p l r']) :=
    fun h => ⟨h, .one (.register s p l hr)⟩
  unfold World.subscribe
  cases s with
  | command c => exact hregisters h
  | object o =>
    have hhook : g'.takeHook o p = (g.takeHook o p).map fun e => (e.1, e.2.refit g'.watchers g'.trees) := by
      rw [hframe]
      have hobjects : (g.refit g'.watchers g'.trees).objects = g.objects := rfl
      unfold takeHook
      simp only [hobjects, Option.bind_eq_bind, Option.pure_def]
      cases g.objects[o]? with
      | none => rfl
      | some x =>
        simp only [Option.bind_some]
        cases x.hooks.findIdx? _ with
        | none => rfl
        | some i =>
          simp only [Option.bind_some]
          cases x.hooks[i]? <;> rfl
    simp only [hhook]
    cases htaken : g.takeHook o p with
    | none => exact hregisters h
    | some e =>
      obtain ⟨k, g₁⟩ := e
      obtain ⟨i, rfl⟩ := takeHook_eq htaken
      refine ⟨h.frameOf (g.modifyObject o _) rfl rfl, ?_⟩
      exact (Woven.refl (Task.Twin.refl t d b) (callOn k o)).append (.one (.register _ p l hr))

/-! ### Delivering -/

theorem Twin.memberChanged (w : WatcherId) (i : Nat) :
    Woven (Task.Twin t d b) (Task.Spare b) (g.memberChanged w i) (g'.memberChanged w i) := by
  have hw := h.watcher w
  unfold World.memberChanged
  generalize g.watchers[w]? = x at hw ⊢
  generalize g'.watchers[w]? = x' at hw ⊢
  cases hw with
  | none => exact .nil
  | some hx =>
    cases hx with
    | collection _ => exact .nil
    | @object plan site site' f _ _ hguise hbound =>
      cases hbound with
      | none => exact .nil
      | @some y y' hy =>
        simp only [Plan.place?_map]
        cases plan.place? i with
        | none => exact .nil
        | some e =>
          simp only [Option.map_some, hy.children, h.memberValue hfronts hy.subject]
          refine (Woven.refl (Task.Twin.refl t d b) _).append ?_
          exact .cons (.fire hguise _) (.cons (.release hy.subject.value) (.one (.same rfl)))

theorem Twin.membershipChanged (w : WatcherId) (change : Change) :
    Matches t d b (g.membershipChanged w change) (g'.membershipChanged w change) := by
  have hw := h.watcher w
  unfold World.membershipChanged
  generalize g.watchers[w]? = x at hw ⊢
  generalize g'.watchers[w]? = x' at hw ⊢
  cases hw with
  | none => exact ⟨h, .nil⟩
  | some hx =>
    cases hx with
    | object _ _ => exact ⟨h, .nil⟩
    | @collection item membership site site' f bound hguise =>
      cases bound with
      | none => exact ⟨h, .nil⟩
      | some y =>
        cases change.isEmpty with
        | true => exact ⟨h, .nil⟩
        | false =>
          refine ⟨(h.bindCollection w _).foldl_unbind (hfronts.of_watching rfl (hfronts.forwards.congr rfl)) _, ?_⟩
          exact .cons (.enrol (.intro hguise)) (.one (.same rfl))

end

/-! ### Scenes -/

section

variable {agenda agenda' : List (Task κ)} (h : g.Twin t d b g') (hfronts : g.Fronts d b)
  (hheld : HeldAlike d b (Scene.held { world := g, agenda }) (Scene.held { world := g', agenda := agenda' }))

include h hheld

theorem Twin.isLive (w : WatcherId) :
    Scene.isLive { world := g', agenda := agenda' } w = Scene.isLive { world := g, agenda } w := by
  simp only [Scene.isLive, h.planted, h.heldNodes hheld.watchers]

include hfronts

theorem Twin.bury (i : TreeId) : (Scene.bury { world := g, agenda } i).Twin t d b
    (Scene.bury { world := g', agenda := agenda' } i) := by
  have hdropped : g'.trees[i]?.map (·.dropped) = g.trees[i]?.map (·.dropped) := by
    rw [h.tree]
    cases g.trees[i]? with
    | none => rfl
    | some x =>
      simp only [Option.map_some, Tree.guise]
      split <;> rfl
  have hcontains : (Scene.held { world := g', agenda := agenda' }).contains (.tree i) =
      (Scene.held { world := g, agenda }).contains (.tree i) := by
    rw [Bool.eq_iff_iff, List.contains_iff_mem, List.contains_iff_mem]
    exact hheld.trees i
  unfold Scene.bury
  simp only [hdropped, hcontains]
  split
  · exact h.dispose hfronts i
  · exact h

variable (hd : Scene.alive { world := g, agenda } d = true)

include hd

/-- **Twins look alike** to client code. -/
theorem Twin.alike : Scene.Alike { world := g, agenda } { world := g', agenda := agenda' } where
  world := h.frame
  alive := h.alive hfronts hheld hd
  trees := h.trees_size
  attached := h.isAttached
  count := h.subscriptionCount

theorem Twin.deliver (s : Subject) (id : SubscriptionId) (l : Listener κ) : Woven (Task.Twin t d b) (Task.Spare b)
    (Scene.deliver { world := g, agenda } s id l) (Scene.deliver { world := g', agenda := agenda' } s id l) := by
  have hnotifier : g'.notifierOf s = g.notifierOf s := by
    rw [h.frame]
    cases s <;> rfl
  unfold Scene.deliver
  simp only [hnotifier, (h.alike hfronts hheld hd).alive, h.isLive hheld]
  split
  · cases l with
    | code k context =>
      cases context with
      | none => exact .refl (.refl t d b) _
      | some o => exact .refl (.refl t d b) _
    | member w i =>
      simp only
      split
      · exact h.memberChanged hfronts w i
      · exact .nil
  · exact .nil

omit hd in
theorem Twin.deliverChange (c : CollectionId) (id : SubscriptionId) (l : ChangeListener κ) (change : Change) :
    Matches t d b (Scene.deliverChange { world := g, agenda } c id l change)
      (Scene.deliverChange { world := g', agenda := agenda' } c id l change) := by
  have hlisteners : g'.listenersOfCollection c = g.listenersOfCollection c := by
    rw [h.frame]
    rfl
  unfold Scene.deliverChange
  simp only [hlisteners, h.isLive hheld]
  split
  · cases l with
    | code k => exact h.plain _
    | membership w =>
      simp only
      split
      · exact h.membershipChanged hfronts w change
      · exact ⟨h, .nil⟩
  · exact ⟨h, .nil⟩

end

/-! ### Granting -/

section

variable (h : g.Twin t d b g') (hfronts : g.Fronts d b)

include h hfronts

/-- Any other tree is attached alike. -/
theorem Twin.attach {i : TreeId} (hi : i ≠ t) (context : ObjectId) :
    Matches t d b (g.attach i context) (g'.attach i context) := by
  have hdisposed := h.dispose hfronts i
  have htree := hdisposed.tree i
  unfold World.attach
  simp only [htree]
  cases (g.dispose i).trees[i]? with
  | none => exact ⟨hdisposed, .nil⟩
  | some x =>
    simp only [Option.map_some, Tree.guise, if_neg hi, hdisposed.size]
    exact ⟨hdisposed.addWatcher (.refl d b _), .refl (.refl t d b) _⟩

/-- **The tree and its copy**: one is attached to the base, the other to the object that
forwards to it. -/
theorem Twin.attachCopy : Matches t d b (g.attach t b) (g'.attach t d) := by
  have hdisposed := h.dispose hfronts t
  have htree := hdisposed.tree t
  unfold World.attach
  simp only [htree]
  cases (g.dispose t).trees[t]? with
  | none => exact ⟨hdisposed, .nil⟩
  | some x =>
    simp only [Option.map_some, Tree.guise, if_true, hdisposed.size]
    refine ⟨hdisposed.addWatcher (.object (.based t _) .none), ?_⟩
    exact .cons (.bind _ (Or.inr ⟨rfl, rfl⟩)) (.refl (.refl t d b) _)

/-- **What is asked for** alike is granted alike. -/
theorem Twin.grant (ht : t < g.trees.size) {rest rest' : List (Task κ)}
    (hrest : Woven (Task.Twin t d b) (Task.Spare b) rest rest') (r : Request κ)
    (hattach : ∀ context, r ≠ .attach t context) : Matches t d b (g.grant rest r) (g'.grant rest' r) := by
  have hframe := h.frame
  by_cases hplants : r.plants = false
  · by_cases hnew : ∃ plan, r = .newTree plan
    · obtain ⟨plan, rfl⟩ := hnew
      exact (h.newTree ht plan).plain []
    · have hnew' : ∀ plan, r ≠ .newTree plan := fun plan heq => hnew ⟨plan, heq⟩
      have hsame : g'.grant rest' r = ((g.grant rest r).1.refit g'.watchers g'.trees, (g.grant rest r).2) := by
        have hrestless : ∀ g : World κ, g.grant rest' r = g.grant rest r := by
          intro g
          cases r <;> first | rfl | cases hplants
        rw [hrestless]
        conv_lhs => rw [hframe]
        exact g.grant_refit _ _ rest hplants hnew'
      have hkept : g.grant rest r = ((g.grant rest r).1.refit g.watchers g.trees, (g.grant rest r).2) :=
        g.grant_refit g.watchers g.trees rest hplants hnew'
      have hworld := congrArg Prod.fst hkept
      rw [hsame]
      exact (h.frameOf _ (congrArg World.watchers hworld :) (congrArg World.trees hworld :)).plain _
  · cases r <;> first | exact absurd rfl hplants | skip
    case attach i context =>
      have hi : i ≠ t := fun heq => hattach context (heq ▸ rfl)
      have hobject : g'.hasObject context = g.hasObject context := hasValue_congr h.outline (.object context)
      simp only [World.grant, hobject]
      split
      · exact h.attach hfronts hi context
      · exact ⟨h, .nil⟩
    case dispose i => exact ⟨h.dispose hfronts i, .nil⟩
    case drop i =>
      exact ⟨(h.giveUp i).bury (hfronts.of_watching rfl (hfronts.forwards.congr rfl)) hrest.held i, .nil⟩

end

end World
end LiveRules
