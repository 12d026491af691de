/-
# Binding at once

While a watcher is bound the machine takes many small steps, each of which
puts the next in front of everything else; where no hook is due, nobody else
gets a word in between. So a task that binds comes to one change of the world:
the one that `World.rebind` describes.

Key definitions: `Task.isBinding`, `Works`, `Binding.join`.
Key theorems: `works_subscribe`, `works_members`, `works_bind`, `works_enrol`.
-/
import LiveRules.Proofs.Watching.Apart
import LiveRules.Proofs.Watching.Rebind

namespace LiveRules

/-! ### Tasks that bind -/

section

variable {κ σ : Type}

/-- A subscription is made for a watcher. -/
def Receiver.isBinding (l : Listener κ) : Receiver κ → Bool
  | .binding _ => true
  | .code _ => l.watcher?.isSome

/-- Nobody has a word between such a task and what it causes. -/
def Task.isBinding : Task κ → Bool
  | .bind _ _ => true
  | .bindMembers _ => true
  | .enrol _ => true
  | .subscribe _ _ l receiver => receiver.isBinding l
  | .register _ _ l receiver => receiver.isBinding l
  | .plant _ _ => true
  | _ => false

/-- The machine comes from `m` to `m'` by tasks that bind. -/
inductive Works (L : Language κ σ) : Machine κ σ → Machine κ σ → Prop
  | done (m : Machine κ σ) : Works L m m
  | step {m m' : Machine κ σ} {t : Task κ} {rest : List (Task κ)} (hm : m.agenda = t :: rest)
      (ht : t.isBinding = true) (h : Works L (L.step m) m') : Works L m m'

variable {L : Language κ σ}

theorem Works.trans {m₁ m₂ m₃ : Machine κ σ} (h : Works L m₁ m₂) (h' : Works L m₂ m₃) : Works L m₁ m₃ := by
  induction h with
  | done m => exact h'
  | step hm ht _ ih => exact .step hm ht (ih h')

/-- A machine in the world `g` with the agenda `a`. -/
def machine (g : World κ) (a : List (Task κ)) (s : σ) : Machine κ σ :=
  { world := g, agenda := a, state := s }

/-- The first task binds, and comes to `r`. -/
theorem Works.task {g : World κ} {t : Task κ} {rest : List (Task κ)} {s : σ} {m : Machine κ σ}
    (ht : t.isBinding = true) {r : World κ × List (Task κ)}
    (hr : L.carry g s t rest = { world := r.1, state := s, tasks := r.2 })
    (h : Works L (machine r.1 (r.2 ++ rest) s) m) : Works L (machine g (t :: rest) s) m := by
  refine .step rfl ht ?_
  have hstep : L.step (machine g (t :: rest) s) = machine r.1 (r.2 ++ rest) s := by
    simp only [Language.step, machine, hr]
  rw [hstep]
  exact h

theorem World.Sane.takeHook {g : World κ} (hg : g.Sane) (o : ObjectId) (p : String) : g.takeHook o p = none := by
  unfold World.takeHook
  cases hx : g.objects[o]? with
  | none => rfl
  | some x => simp [hg.unhooked o x hx]

/-- Where no hook is due, a subscription is made where the property is answered for. -/
theorem works_subscribe {g : World κ} (hg : g.Sane) (subject : Subject) (p : String) (l : Listener κ)
    (b : Binding κ) (rest : List (Task κ)) (s : σ) :
    let r := (g.enterListener (g.home subject p) p l).bindChild b g.nextSubscription
    Works L (machine g (.subscribe subject p l (.binding b) :: rest) s) (machine r.1 (r.2 ++ rest) s) := by
  cases subject with
  | command c => exact .task rfl rfl (.task rfl rfl (.done _))
  | object o =>
    induction o using Nat.strong_induction_on with
    | _ o ih =>
      have hfirst : g.subscribe (.object o) p l (.binding b) = (g, [.register (.object o) p l (.binding b)]) := by
        simp only [World.subscribe, hg.takeHook o p]
      refine .task rfl (congrArg (fun r => Effect.mk r.1 s r.2) hfirst) ?_
      have hhome : g.home (.object o) p = .object (g.holder o p) := rfl
      rw [hhome, hg.holder_eq]
      by_cases ha : g.answersFor p o = true
      · have hreg : g.register (.object o) p l (.binding b) =
            (g.enterListener (.object o) p l).bindChild b g.nextSubscription := by
          cases hb : g.baseOf o <;> simp only [World.register, World.answer, hb, ha, if_true]
        rw [if_pos ha]
        exact .task rfl (congrArg (fun r => Effect.mk r.1 s r.2) hreg) (.done _)
      · cases hb : g.baseOf o with
        | none => exact absurd (World.answersFor_of_baseOf_none hb) ha
        | some c =>
          have hreg : g.register (.object o) p l (.binding b) =
              (g, [.subscribe (.object c) p l (.binding b)]) := by
            simp only [World.register, hb, if_neg ha]
          rw [if_neg ha]
          exact .task rfl (congrArg (fun r => Effect.mk r.1 s r.2) hreg) (ih c (hg.older o c hb))

/-! ### Binding a watcher -/

/-- The books that a binding has come to so far. -/
def Binding.books (b : Binding κ) : BoundObject :=
  { subject := b.subject, subscriptions := b.subscriptions, children := b.children }

/-- That binding to the properties of `rest` comes to following it. -/
def WorksMembers (L : Language κ σ) (rest : WatchPlan κ) : Prop :=
  ∀ {g : World κ} {b : Binding κ} (tasks : List (Task κ)) (s : σ), g.Sane → b.rest = rest →
    b.watcher < g.watchers.size →
    Works L (machine g (.bindMembers b :: tasks) s)
      (machine (World.follow rest (g.bindObject b.watcher b.books) b.watcher b.site b.books) tasks s)

theorem WorksMembers.bindObject {plan : WatchPlan κ} (h : WorksMembers L plan) {g : World κ} (hg : g.Sane) {w : Nat}
    {site bound} (hw : (g.unbind w).watchers[w]? = some (.object plan site bound)) (v : Value)
    (tasks : List (Task κ)) (s : σ) :
    Works L (machine g (.bind w v :: tasks) s) (machine (g.rebind w v) tasks s) := by
  have hlt : w < (g.unbind w).watchers.size := (Array.getElem?_eq_some_iff.mp hw).1
  cases hv : v.subject? with
  | none =>
    have hbind : g.bind w v = (g.unbind w, []) := by simp only [World.bind, hw, hv]
    have hrebind : g.rebind w v = g.unbind w := by simp only [World.rebind, hw, hv, Option.elim]
    rw [hrebind]
    exact .task rfl (congrArg (fun r => Effect.mk r.1 s r.2) hbind) (.done _)
  | some t =>
    have hbind : g.bind w v = (g.unbind w, [.bindMembers { watcher := w, site, subject := t, rest := plan }]) := by
      simp only [World.bind, hw, hv]
    have hrebind : g.rebind w v = World.follow plan ((g.unbind w).bindObject w (World.opened t)) w site
        (World.opened t) := by
      simp only [World.rebind, hw, hv, Option.elim]
    rw [hrebind]
    exact .task rfl (congrArg (fun r => Effect.mk r.1 s r.2) hbind)
      (h (b := { watcher := w, site, subject := t, rest := plan }) tasks s
        (hg.congr (g.unbind_outline w)) rfl hlt)

/-- What an enrolment comes to when all members are done: the books it is for, and
what it causes. -/
def Enrolment.Closes (e : Enrolment κ) (g : World κ) (b : BoundCollection) (out : List (Task κ)) : Prop :=
  match e.binds with
  | some (collection, subscription) => b = { collection, subscription, items := [] } ∧ out = []
  | none => ∃ item membership site, g.watchers[e.watcher]? = some (.collection item membership site (some b)) ∧
      out = [.fire site membership]

/-- What an enrolment without pending members comes to. -/
def World.closed (g : World κ) (e : Enrolment κ) : World κ × List (Task κ) :=
  match e.binds with
  | some (collection, subscription) => (g.bindCollection e.watcher { collection, subscription, items := e.done }, [])
  | none =>
    match g.watchers[e.watcher]? with
    | some (.collection _ membership site (some b)) =>
      (g.bindCollection e.watcher { b with items := b.items ++ e.done }, [.fire site membership])
    | _ => ((e.done.map (·.2)).foldl World.unbind g, [])

theorem World.enrol_closed {g : World κ} {e : Enrolment κ} (hdone : e.item.isNil = true ∨ e.pending = []) :
    g.enrol e = g.closed e := by
  unfold World.enrol
  rcases hdone with hnil | hnil
  · generalize e.item.isNil = nil at hnil
    subst hnil
    rfl
  · rw [hnil]
    cases e.item.isNil <;> rfl

theorem Enrolment.Closes.enrol {e : Enrolment κ} {g : World κ} {b : BoundCollection} {out : List (Task κ)}
    (h : e.Closes g b out) (hdone : e.item.isNil = true ∨ e.pending = []) :
    g.enrol e = (g.bindCollection e.watcher { b with items := b.items ++ e.done }, out) := by
  rw [World.enrol_closed hdone]
  unfold World.closed
  unfold Enrolment.Closes at h
  cases hb : e.binds with
  | some r =>
    simp only [hb] at h ⊢
    obtain ⟨rfl, rfl⟩ := h
    rfl
  | none =>
    simp only [hb] at h ⊢
    obtain ⟨item, membership, site, hw, rfl⟩ := h
    simp only [hw]

/-- The watcher of a collection with these books. -/
def Watcher.withBooks (b : BoundCollection) : Watcher κ → Watcher κ
  | .collection item membership site _ => .collection item membership site (some b)
  | x => x

theorem works_enrol {item : WatchPlan κ} (h : WorksMembers L item) {w : Nat} {b : BoundCollection}
    (out : List (Task κ)) :
    ∀ (pending : List ObjectId) {g : World κ} {e : Enrolment κ} (tasks : List (Task κ)) (s : σ), g.Sane →
      e.item = item → e.watcher = w → e.pending = pending → w < g.watchers.size → e.Closes g b out →
      Works L (machine g (.enrol e :: tasks) s)
        (machine (World.enlistAll (fun g x b => World.follow item g x e.site b) w item e.site
          (if item.isNil then [] else pending) (g.bindCollection w { b with items := b.items ++ e.done })
          { b with items := b.items ++ e.done }) (out ++ tasks) s) := by
  intro pending
  induction pending with
  | nil =>
    rintro g e tasks s hg rfl rfl hpending hw hclose
    have hlist : (if e.item.isNil then ([] : List ObjectId) else []) = [] := by split <;> rfl
    rw [hlist]
    exact .task rfl (congrArg (fun r => Effect.mk r.1 s r.2) (hclose.enrol (Or.inr hpending))) (.done _)
  | cons o os ih =>
    rintro g e tasks s hg rfl rfl hpending hw hclose
    cases hnil : e.item.isNil with
    | true =>
      exact .task rfl (congrArg (fun r => Effect.mk r.1 s r.2) (hclose.enrol (Or.inl hnil))) (.done _)
    | false =>
      have henrol : g.enrol e = (g.addWatcher (.object e.item e.site none),
          [.bind g.watchers.size (.object o),
           .enrol { e with done := e.done ++ [(o, g.watchers.size)], pending := os }]) := by
        simp only [World.enrol, hnil, hpending]
      refine .task rfl (congrArg (fun r => Effect.mk r.1 s r.2) henrol) ?_
      -- the member's watcher is bound, which does not concern the collection's watcher
      set g₁ := g.addWatcher (.object e.item e.site none) with hg₁
      have hx : g₁.watchers[g.watchers.size]? = some (.object e.item e.site none) := by
        rw [hg₁, World.getElem?_addWatcher, if_pos rfl]
      have hw₁ : e.watcher < g₁.watchers.size := by
        simpa [hg₁, World.addWatcher] using Nat.lt_succ_of_lt hw
      have hwx : e.watcher ≠ g.watchers.size := ne_of_lt hw
      have hbound := h.bindObject (L := L) (hg.congr (g.addWatcher_outline _) : g₁.Sane)
        (by rw [World.unbind_dormant hx rfl]; exact hx) (.object o)
        (.enrol { e with done := e.done ++ [(o, g.watchers.size)], pending := os } :: tasks) s
      rw [World.rebind_object hx] at hbound
      have hopen := World.bindObject_apart hwx (World.opened (.object o)) hw₁
      have hfollow :=
        hopen.comp (World.follow_apart e.watcher e.site e.item (b := World.opened (.object o)) hwx hopen.2.1)
      set g₂ := World.follow e.item (g₁.bindObject g.watchers.size (World.opened (.object o))) g.watchers.size
        e.site (World.opened (.object o)) with hg₂
      have hget₂ : g₂.watchers[e.watcher]? = g.watchers[e.watcher]? := by
        have hget₁ : g₁.watchers[e.watcher]? = g.watchers[e.watcher]? := by
          rw [hg₁, World.getElem?_addWatcher, if_neg hwx]
        exact hfollow.1.trans hget₁
      have hclose' : Enrolment.Closes { e with done := e.done ++ [(o, g.watchers.size)], pending := os } g₂ b out := by
        unfold Enrolment.Closes at hclose ⊢
        simp only [hget₂]
        exact hclose
      have hsane₂ : g₂.Sane := hg.congr (World.follow_outline e.site e.item _ _ _)
      refine hbound.trans ?_
      have hrest := ih (e := { e with done := e.done ++ [(o, g.watchers.size)], pending := os }) tasks s hsane₂ rfl
        rfl rfl hfollow.2.1 hclose'
      have hbooks : b.items ++ e.done ++ [(o, g.watchers.size)] = b.items ++ (e.done ++ [(o, g.watchers.size)]) :=
        List.append_assoc ..
      have hmember : ((g.bindCollection e.watcher { b with items := b.items ++ e.done }).addWatcher
          (.object e.item e.site none)).enlist e.watcher { b with items := b.items ++ e.done } (o, g.watchers.size) =
          g₁.bindCollection e.watcher { b with items := b.items ++ (e.done ++ [(o, g.watchers.size)]) } := by
        rw [← hbooks]
        have hadd := World.rewatch_addWatcher g (Watcher.withBooks { b with items := b.items ++ e.done }) hw
          (.object e.item e.site none)
        exact (congrArg (World.enlist · e.watcher { b with items := b.items ++ e.done }
          (o, g.watchers.size)) hadd).trans
          (World.bindCollection_bindCollection ..)
      have hsize : (g.bindCollection e.watcher { b with items := b.items ++ e.done }).watchers.size =
          g.watchers.size := by simp [World.bindCollection]
      have hcomm : World.follow e.item ((g₁.bindCollection e.watcher
          { b with items := b.items ++ (e.done ++ [(o, g.watchers.size)]) }).bindObject g.watchers.size
            (World.opened (.object o))) g.watchers.size e.site (World.opened (.object o)) =
          g₂.bindCollection e.watcher { b with items := b.items ++ (e.done ++ [(o, g.watchers.size)]) } :=
        hfollow.2.2 _
      simp only [hnil, Bool.false_eq_true, if_false] at hrest ⊢
      rw [World.enlistAll]
      simp only [hsize, hmember, hcomm, hbooks]
      exact hrest

theorem WorksMembers.bindCollection {item : WatchPlan κ} (h : WorksMembers L item) {g : World κ} (hg : g.Sane)
    {w : Nat} {batch site bound} (hw : (g.unbind w).watchers[w]? = some (.collection item batch site bound))
    (v : Value) (tasks : List (Task κ)) (s : σ) :
    Works L (machine g (.bind w v :: tasks) s) (machine (g.rebind w v) tasks s) := by
  have hlt : w < (g.unbind w).watchers.size := (Array.getElem?_eq_some_iff.mp hw).1
  cases hv : v.collection? with
  | none =>
    have hbind : g.bind w v = (g.unbind w, []) := by simp only [World.bind, hw, hv]
    have hrebind : g.rebind w v = g.unbind w := by simp only [World.rebind, hw, hv, Option.elim]
    rw [hrebind]
    exact .task rfl (congrArg (fun r => Effect.mk r.1 s r.2) hbind) (.done _)
  | some c =>
    set g' := (g.unbind w).enterChangeListener c (.membership w) with hg'
    set e : Enrolment κ := { watcher := w, site, item, binds := some (c, (g.unbind w).nextSubscription)
                             pending := g'.itemsOf c } with he
    have hbind : g.bind w v = (g', [.enrol e]) := by simp only [World.bind, hw, hv, hg', he]
    have hrebind : g.rebind w v = World.enlistAll (fun g x b => World.follow item g x site b) w item site
        ((g.unbind w).wanted item c) ((g.unbind w).openCollection w c)
        { collection := c, subscription := (g.unbind w).nextSubscription, items := [] } := by
      simp only [World.rebind, hw, hv, Option.elim]
    have hsane : g'.Sane := hg.congr (((g.unbind w).enterChangeListener_outline _ _).trans (g.unbind_outline w))
    have hitems : g'.itemsOf c = (g.unbind w).itemsOf c :=
      World.itemsOf_congr ((g.unbind w).enterChangeListener_outline _ _) c
    have henrol := works_enrol h (b := { collection := c, subscription := (g.unbind w).nextSubscription, items := [] })
      [] (L := L) (g'.itemsOf c) (e := e) tasks s hsane rfl rfl rfl hlt ⟨rfl, rfl⟩
    rw [hrebind]
    refine .task rfl (congrArg (fun r => Effect.mk r.1 s r.2) hbind) ?_
    rw [hitems] at henrol
    exact henrol

theorem World.subscribeMember_bindObject (g : World κ) (w : WatcherId) (b : BoundObject) (name : String)
    (child : Option WatcherId) :
    (g.bindObject w b).subscribeMember w b name child =
      (g.enterListener (g.home b.subject name) name (.member w b.subscriptions.length)).bindObject w
        (b.join g.nextSubscription child) := by
  unfold World.subscribeMember
  rw [home_congr (g.bindObject_outline w b)]
  have hcomm : (g.bindObject w b).enterListener (g.home b.subject name) name (.member w b.subscriptions.length) =
      (g.enterListener (g.home b.subject name) name (.member w b.subscriptions.length)).bindObject w b :=
    g.rewatch_enterListener _ _ _ _
  rw [hcomm, bindObject_bindObject]
  rfl

/-- Posting a watcher below one whose books are opened early or late. -/
theorem World.post_bindObject (g : World κ) {w : Nat} (hw : w < g.watchers.size) (b : BoundObject)
    (name : String) (x : Watcher κ) :
    ((g.bindObject w b).addWatcher x).subscribeMember w b name (some (g.bindObject w b).watchers.size) =
      ((g.enterListener (g.home b.subject name) name (.member w b.subscriptions.length)).addWatcher x).bindObject w
        (b.join g.nextSubscription (some g.watchers.size)) := by
  have hsize : (g.bindObject w b).watchers.size = g.watchers.size := by simp [World.bindObject]
  have hadd : (g.bindObject w b).addWatcher x = (g.addWatcher x).bindObject w b :=
    g.rewatch_addWatcher _ hw x
  rw [hsize, hadd, World.subscribeMember_bindObject, home_congr (g.addWatcher_outline x)]
  cases g.home b.subject name <;> rfl

/-- The binding after a subscription to the next property, with what watches its value. -/
def Binding.join (b : Binding κ) (id : SubscriptionId) (child : Option WatcherId) : Binding κ :=
  { b with subscriptions := b.subscriptions ++ [id], children := b.children ++ [child], rest := b.rest.tail }

/-- What a subscription comes to: a watcher is posted if the plan asks for one. -/
theorem World.bindChild_cases (g : World κ) {b : Binding κ} {p : String} {batch : Batch κ}
    (hplace : b.rest.place? 0 = some (p, batch)) (id : SubscriptionId) :
    b.rest.post? b.site 0 = none ∧ g.bindChild b id = (g, [.bindMembers (b.join id none)]) ∨
      ∃ x, b.rest.post? b.site 0 = some x ∧ x.target = none ∧ g.bindChild b id = (g.addWatcher x,
        [.bind g.watchers.size (g.memberValue b.subject p), .bindMembers (b.join id (some g.watchers.size))]) := by
  unfold World.bindChild Binding.join
  cases hrest : b.rest with
  | nil =>
    rw [hrest] at hplace
    cases hplace
  | value name f next => exact Or.inl ⟨rfl, rfl⟩
  | object name f inside next =>
    rw [hrest] at hplace
    cases hplace
    exact Or.inr ⟨_, rfl, rfl, rfl⟩
  | collection name f membership item next =>
    rw [hrest] at hplace
    cases hplace
    exact Or.inr ⟨_, rfl, rfl, rfl⟩

/-- Binding starts with the subscription to the first property. -/
theorem works_first {g : World κ} (hg : g.Sane) {b : Binding κ} {name : String} {batch : Batch κ}
    (hplace : b.rest.place? 0 = some (name, batch)) (tasks : List (Task κ)) (s : σ) :
    let r := (g.enterListener (g.home b.subject name) name (.member b.watcher b.subscriptions.length)).bindChild b
      g.nextSubscription
    Works L (machine g (.bindMembers b :: tasks) s) (machine r.1 (r.2 ++ tasks) s) := by
  have hbind : g.bindMembers b =
      (g, [.subscribe b.subject name (.member b.watcher b.subscriptions.length) (.binding b)]) := by
    cases hrest : b.rest <;> rw [hrest] at hplace <;> cases hplace <;> simp only [World.bindMembers, hrest]
  exact .task rfl (congrArg (fun r => Effect.mk r.1 s r.2) hbind) (works_subscribe hg ..)

/-- A property that is looked into has a watcher made below, which is bound next. -/
theorem works_post {g : World κ} (hg : g.Sane) {b : Binding κ} (hw : b.watcher < g.watchers.size) {name : String}
    {batch : Batch κ} (hplace : b.rest.place? 0 = some (name, batch)) {x : Watcher κ}
    (hpost : b.rest.post? b.site 0 = some x) (tasks : List (Task κ)) (s : σ) :
    let g' := (g.enterListener (g.home b.subject name) name (.member b.watcher b.subscriptions.length)).addWatcher x
    Works L (machine g (.bindMembers b :: tasks) s)
        (machine g' (.bind g.watchers.size (g.memberValue b.subject name) ::
          .bindMembers (b.join g.nextSubscription (some g.watchers.size)) :: tasks) s) ∧
      g'.Sane ∧ g'.watchers[g.watchers.size]? = some x ∧ b.watcher < g'.watchers.size := by
  intro g'
  have hwatchers := g.enterListener_watchers (g.home b.subject name) name (.member b.watcher b.subscriptions.length)
  have houtline := g.enterListener_outline (g.home b.subject name) name (.member b.watcher b.subscriptions.length)
  refine ⟨?_, hg.congr houtline, ?_, ?_⟩
  · have hworks := works_first (L := L) hg hplace tasks s
    rcases World.bindChild_cases _ hplace g.nextSubscription with ⟨hnone, -⟩ | ⟨y, hy, -, hchild⟩
    · rw [hnone] at hpost
      cases hpost
    · rw [hpost] at hy
      cases hy
      rw [hchild, hwatchers, World.memberValue_congr houtline] at hworks
      exact hworks
  · rw [World.getElem?_addWatcher, hwatchers, if_pos rfl]
  · simpa [g', World.addWatcher, hwatchers] using Nat.lt_succ_of_lt hw

/-- **Binding** to properties comes to following them. -/
theorem works_members (rest : WatchPlan κ) : WorksMembers L rest := by
  induction rest with
  | nil =>
    intro g b tasks s hg hrest hw
    have hbind : g.bindMembers b = (g.bindObject b.watcher b.books, []) := by
      simp only [World.bindMembers, hrest, Binding.books]
    exact .task rfl (congrArg (fun r => Effect.mk r.1 s r.2) hbind) (.done _)
  | value name batch next ih =>
    intro g b tasks s hg hrest hw
    refine (works_first hg (show b.rest.place? 0 = some (name, batch) by rw [hrest]; rfl) tasks s).trans ?_
    set g₁ := g.enterListener (g.home b.subject name) name (.member b.watcher b.subscriptions.length) with hg₁
    have hchild : g₁.bindChild b g.nextSubscription =
        (g₁, [.bindMembers (b.join g.nextSubscription none)]) := by
      simp only [World.bindChild, hrest, Binding.join, Plan.tail]
    rw [hchild]
    have hsane₁ : g₁.Sane := hg.congr (g.enterListener_outline _ _ _)
    have hlt : b.watcher < g₁.watchers.size := by rwa [hg₁, World.enterListener_watchers]
    rw [World.follow, World.subscribeMember_bindObject]
    exact ih (b := b.join g.nextSubscription none) tasks s hsane₁ (congrArg Plan.tail hrest) hlt
  | object name batch inside next ihInside ih =>
    intro g b tasks s hg hrest hw
    set b' : Binding κ := b.join g.nextSubscription (some g.watchers.size) with hb'
    obtain ⟨hworks, hsane₂, hx, hlt₂⟩ := works_post (L := L) hg hw (show b.rest.place? 0 = some (name, batch) by
      rw [hrest]; rfl) (show b.rest.post? b.site 0 = some (.object inside b.site none) by rw [hrest]; rfl) tasks s
    refine hworks.trans ?_
    set g₂ := (g.enterListener (g.home b.subject name) name (.member b.watcher b.subscriptions.length)).addWatcher
      (.object inside b.site none) with hg₂
    have hwx : b.watcher ≠ g.watchers.size := ne_of_lt hw
    refine (ihInside.bindObject hsane₂ (by rw [World.unbind_dormant hx rfl]; exact hx) _ _ s).trans ?_
    rw [World.rebind_object hx, World.follow, World.post_bindObject g hw]
    have hgrown : World.memberValue (g.bindObject b.watcher b.books) b.subject name = g.memberValue b.subject name :=
      World.memberValue_congr (g.bindObject_outline _ _) _ _
    have hsize : (g.bindObject b.watcher b.books).watchers.size = g.watchers.size := by simp [World.bindObject]
    -- what is below does not look at the books of `b.watcher`
    have hvalue : ∀ v : Option Subject, World.Apart b.watcher (fun h => v.elim h fun s =>
        World.follow inside (h.bindObject g.watchers.size (World.opened s)) g.watchers.size b.site
          (World.opened s)) g₂ ∧
        (v.elim g₂ fun s => World.follow inside (g₂.bindObject g.watchers.size (World.opened s)) g.watchers.size
          b.site (World.opened s)).Sane := by
      rintro (_ | s)
      · exact ⟨⟨rfl, hlt₂, fun f => rfl⟩, hsane₂⟩
      · have hopen := World.bindObject_apart hwx (World.opened s) hlt₂
        exact ⟨hopen.comp (World.follow_apart _ b.site inside hwx hopen.2.1),
          hsane₂.congr (World.follow_outline b.site inside _ _ _)⟩
    obtain ⟨hapart, hsane₃⟩ := hvalue (g.memberValue b.subject name).subject?
    have heq : ((g.memberValue b.subject name).subject?.elim (g₂.bindObject b.watcher b'.books) fun s =>
        World.follow inside ((g₂.bindObject b.watcher b'.books).bindObject g.watchers.size (World.opened s))
          g.watchers.size b.site (World.opened s)) = World.bindObject _ b.watcher b'.books := hapart.2.2 _
    have hbooks : b.books.join g.nextSubscription (some g.watchers.size) = b'.books := rfl
    have hsubject : b.books.subject = b.subject := rfl
    have hnextId : (g.bindObject b.watcher b.books).nextSubscription = g.nextSubscription := rfl
    have hentered : (g.enterListener (g.home b.subject name) name
        (.member b.watcher b.books.subscriptions.length)).addWatcher (.object inside b.site none) = g₂ := rfl
    simp only [hsize, hsubject, hgrown, hnextId, hentered, hbooks, heq]
    exact ih (b := b') tasks s hsane₃ (congrArg Plan.tail hrest) hapart.2.1
  | collection name batch membership item next ihItem ih =>
    intro g b tasks s hg hrest hw
    set b' : Binding κ := b.join g.nextSubscription (some g.watchers.size) with hb'
    obtain ⟨hworks, hsane₂, hx, hlt₂⟩ := works_post (L := L) hg hw (show b.rest.place? 0 = some (name, batch) by
      rw [hrest]; rfl) (show b.rest.post? b.site 0 = some (.collection item membership b.site none) by
      rw [hrest]; rfl) tasks s
    refine hworks.trans ?_
    set g₂ := (g.enterListener (g.home b.subject name) name (.member b.watcher b.subscriptions.length)).addWatcher
      (.collection item membership b.site none) with hg₂
    have hwx : b.watcher ≠ g.watchers.size := ne_of_lt hw
    refine (ihItem.bindCollection hsane₂ (by rw [World.unbind_dormant hx rfl]; exact hx) _ _ s).trans ?_
    rw [World.rebind_collection hx, World.follow, World.post_bindObject g hw]
    have hgrown : World.memberValue (g.bindObject b.watcher b.books) b.subject name = g.memberValue b.subject name :=
      World.memberValue_congr (g.bindObject_outline _ _) _ _
    have hsize : (g.bindObject b.watcher b.books).watchers.size = g.watchers.size := by simp [World.bindObject]
    have hvalue : ∀ v : Option CollectionId, World.Apart b.watcher (fun h => v.elim h fun d =>
        World.enlistAll (fun g x b' => World.follow item g x b.site b') g.watchers.size item b.site
          (g₂.wanted item d) (h.openCollection g.watchers.size d)
          { collection := d, subscription := g₂.nextSubscription, items := [] }) g₂ ∧
        (v.elim g₂ fun d => World.enlistAll (fun g x b' => World.follow item g x b.site b') g.watchers.size item
          b.site (g₂.wanted item d) (g₂.openCollection g.watchers.size d)
          { collection := d, subscription := g₂.nextSubscription, items := [] }).Sane := by
      rintro (_ | d)
      · exact ⟨⟨rfl, hlt₂, fun f => rfl⟩, hsane₂⟩
      · have hopen := World.openCollection_apart hwx d hlt₂
        refine ⟨hopen.comp (World.enlistAll_apart (World.follow_apart _ b.site item) hwx item b.site _ _ hopen.2.1),
          hsane₂.congr ?_⟩
        exact (World.enlistAll_outline (World.follow_outline b.site item) _ _ _ _ _ _).trans
          (World.openCollection_outline _ _ d)
    obtain ⟨hapart, hsane₃⟩ := hvalue (g.memberValue b.subject name).collection?
    have heq : ((g.memberValue b.subject name).collection?.elim (g₂.bindObject b.watcher b'.books) fun d =>
        World.enlistAll (fun g x b' => World.follow item g x b.site b') g.watchers.size item b.site
          (g₂.wanted item d) ((g₂.bindObject b.watcher b'.books).openCollection g.watchers.size d)
          { collection := d, subscription := g₂.nextSubscription, items := [] }) =
        World.bindObject _ b.watcher b'.books := hapart.2.2 _
    have hbooks : b.books.join g.nextSubscription (some g.watchers.size) = b'.books := rfl
    have hsubject : b.books.subject = b.subject := rfl
    have hnextId : (g.bindObject b.watcher b.books).nextSubscription = g.nextSubscription := rfl
    have hentered : (g.enterListener (g.home b.subject name) name
        (.member b.watcher b.books.subscriptions.length)).addWatcher
          (.collection item membership b.site none) = g₂ := rfl
    have hwanted : ∀ d, (g₂.bindObject b.watcher b'.books).wanted item d = g₂.wanted item d := by
      intro d
      unfold World.wanted
      rw [World.itemsOf_congr (g₂.bindObject_outline _ _)]
    have hnextId₂ : (g₂.bindObject b.watcher b'.books).nextSubscription = g₂.nextSubscription := rfl
    simp only [hsize, hsubject, hgrown, hnextId, hentered, hbooks, hwanted, hnextId₂, heq]
    exact ih (b := b') tasks s hsane₃ (congrArg Plan.tail hrest) hapart.2.1

/-- **Binding** a watcher to a value comes to rebinding it at once. -/
theorem works_bind {g : World κ} (hg : g.Sane) {w : Nat} (hw : w < (g.unbind w).watchers.size) (v : Value)
    (tasks : List (Task κ)) (s : σ) :
    Works L (machine g (.bind w v :: tasks) s) (machine (g.rebind w v) tasks s) := by
  have hget := Array.getElem?_eq_getElem hw
  cases hx : (g.unbind w).watchers[w] with
  | object plan site bound => exact WorksMembers.bindObject (works_members plan) hg (hx ▸ hget) v tasks s
  | collection item batch site bound => exact WorksMembers.bindCollection (works_members item) hg (hx ▸ hget) v tasks s

end

end LiveRules
