/-
# Books that are still being written

A watcher that is being bound has subscriptions already, but its books are entered only
when it is done: until then they are a draft that the agenda carries. Here a world is
looked at as if the drafts were entered. It has no hooks either, which are of no concern
to what watchers hold.

Key definitions: `Draft`, `Task.draft?`, `World.enter`, `World.asIf`, `World.Drafted`.
Key theorems: `World.enter_asIf`, `World.asIf_enter`, `World.Drafted.shaped`,
`World.asIf_foldl_release`.
-/
import LiveRules.Proofs.Watching.Regather
import LiveRules.Proofs.World.Hooks

namespace LiveRules

variable {κ : Type}

/-- What a watcher that is being bound has entered so far. -/
inductive Draft
  | object (w : WatcherId) (b : BoundObject)
  | collection (w : WatcherId) (b : BoundCollection)

namespace Draft

def watcher : Draft → WatcherId
  | .object w _ => w
  | .collection w _ => w

/-- The watcher with these books, if they are of its kind. -/
def fill : Draft → Watcher κ → Watcher κ
  | .object _ b, .object plan site _ => .object plan site (some b)
  | .collection _ b, .collection item membership site _ => .collection item membership site (some b)
  | _, x => x

/-- The books are of the watcher's kind. -/
def suits : Draft → Watcher κ → Bool
  | .object _ _, .object _ _ _ => true
  | .collection _ _, .collection _ _ _ _ => true
  | _, _ => false

@[simp] theorem dormant_fill (d : Draft) (x : Watcher κ) : (d.fill x).dormant = x.dormant := by
  cases d <;> cases x <;> rfl

@[simp] theorem fill_fill {d : Draft} {x : Watcher κ} (hd : d.suits x = true) (d' : Draft) :
    d.fill (d'.fill x) = d.fill x := by
  cases d <;> cases x <;> cases d' <;> first | rfl | cases hd

end Draft

def Binding.draft (b : Binding κ) : Draft :=
  .object b.watcher { subject := b.subject, subscriptions := b.subscriptions, children := b.children }

def Receiver.draft? : Receiver κ → Option Draft
  | .code _ => none
  | .binding b => some b.draft

/-- Members that join a watcher which is bound belong to no draft. -/
def Enrolment.draft? (e : Enrolment κ) : Option Draft :=
  e.binds.map fun c => .collection e.watcher { collection := c.1, subscription := c.2, items := e.done }

def Task.draft? : Task κ → Option Draft
  | .bindMembers b => some b.draft
  | .subscribe _ _ _ r => r.draft?
  | .register _ _ _ r => r.draft?
  | .enrol e => e.draft?
  | _ => none

theorem Task.draft?_binding {e : Enrolment κ} {c : CollectionId × SubscriptionId} (h : e.binds = some c) :
    (Task.enrol e).draft? = some (.collection e.watcher ⟨c.1, c.2, e.done⟩) := by
  simp [Task.draft?, Enrolment.draft?, h]

theorem Task.draft?_joining {e : Enrolment κ} (h : e.binds = none) : (Task.enrol e).draft? = none := by
  simp [Task.draft?, Enrolment.draft?, h]

def draftsOf (agenda : List (Task κ)) : List Draft :=
  agenda.filterMap Task.draft?

/-- The watchers with the drafts entered. -/
def written (ds : List Draft) (ws : Array (Watcher κ)) : Array (Watcher κ) :=
  ws.mapIdx fun w x => (ds.find? fun d => d.watcher = w).elim x (·.fill x)

theorem getElem?_written (ds : List Draft) (ws : Array (Watcher κ)) (w : Nat) :
    (written ds ws)[w]? = ws[w]?.map fun x => (ds.find? fun d => d.watcher = w).elim x (·.fill x) := by
  simp [written]

theorem find?_of_not_mem {ds : List Draft} {w : WatcherId} (hw : ∀ d ∈ ds, d.watcher ≠ w) :
    ds.find? (fun d => d.watcher = w) = none :=
  List.find?_eq_none.mpr fun d hd => by simp [hw d hd]

/-- A watcher has one draft. -/
theorem find?_of_mem {ds : List Draft} (hnodup : (ds.map Draft.watcher).Nodup) {d : Draft} (hd : d ∈ ds) :
    ds.find? (fun d' => d'.watcher = d.watcher) = some d := by
  induction ds with
  | nil => cases hd
  | cons c ds ih =>
    rw [List.map_cons, List.nodup_cons] at hnodup
    rcases List.mem_cons.mp hd with rfl | hd
    · simp
    · have hne : c.watcher ≠ d.watcher := fun heq => hnodup.1 (heq ▸ List.mem_map_of_mem hd)
      rw [List.find?_cons_of_neg (by simp [hne]), ih hnodup.2 hd]

namespace World

/-- The world with a draft entered. -/
def enter (g : World κ) (d : Draft) : World κ :=
  { g with watchers := g.watchers.modify d.watcher d.fill }

theorem bindObject_eq_enter (g : World κ) (w : WatcherId) (b : BoundObject) :
    g.bindObject w b = g.enter (.object w b) := by
  refine congrArg (fun f => { g with watchers := g.watchers.modify w f }) (funext fun x => ?_)
  cases x <;> rfl

theorem bindCollection_eq_enter (g : World κ) (w : WatcherId) (b : BoundCollection) :
    g.bindCollection w b = g.enter (.collection w b) := by
  refine congrArg (fun f => { g with watchers := g.watchers.modify w f }) (funext fun x => ?_)
  cases x <;> rfl

/-- The world as if these drafts were entered, without hooks. -/
def asIf (g : World κ) (ds : List Draft) : World κ :=
  g.dressed (written ds g.watchers)

variable {g : World κ} {ds : List Draft} {w : Nat}

/-! ### Single watchers -/

theorem getElem?_asIf (g : World κ) (ds : List Draft) (w : Nat) : (g.asIf ds).watchers[w]? =
    g.watchers[w]?.map fun x => (ds.find? fun d => d.watcher = w).elim x (·.fill x) :=
  getElem?_written ds g.watchers w

theorem getElem?_asIf_of_not_mem (hw : ∀ d ∈ ds, d.watcher ≠ w) : (g.asIf ds).watchers[w]? = g.watchers[w]? := by
  rw [getElem?_asIf, find?_of_not_mem hw]
  cases g.watchers[w]? <;> rfl

theorem getElem?_asIf_of_mem (hnodup : (ds.map Draft.watcher).Nodup) {d : Draft} (hd : d ∈ ds) :
    (g.asIf ds).watchers[d.watcher]? = g.watchers[d.watcher]?.map d.fill := by
  rw [getElem?_asIf, find?_of_mem hnodup hd]
  rfl

@[simp] theorem size_asIf (g : World κ) (ds : List Draft) : (g.asIf ds).watchers.size = g.watchers.size := by
  simp [asIf, dressed, written]

/-- Entering drafts changes nothing about a watcher but its books. -/
theorem dormant_asIf (g : World κ) (ds : List Draft) (w : Nat) :
    (g.asIf ds).watchers[w]?.map Watcher.dormant = g.watchers[w]?.map Watcher.dormant := by
  rw [getElem?_asIf, Option.map_map]
  refine congrArg (g.watchers[w]?.map ·) (funext fun x => ?_)
  simp only [Function.comp_apply]
  cases ds.find? fun d => decide (d.watcher = w) <;> simp

theorem exists_of_asIf {y : Watcher κ} (hy : (g.asIf ds).watchers[w]? = some y) :
    ∃ x, g.watchers[w]? = some x ∧ x.dormant = y.dormant := by
  have hdormant := dormant_asIf g ds w
  rw [hy] at hdormant
  exact Option.map_eq_some_iff.mp hdormant.symm

theorem exists_asIf (ds : List Draft) {x : Watcher κ} (hx : g.watchers[w]? = some x) :
    ∃ y, (g.asIf ds).watchers[w]? = some y ∧ y.dormant = x.dormant := by
  have hdormant := dormant_asIf g ds w
  rw [hx] at hdormant
  exact Option.map_eq_some_iff.mp hdormant

/-! ### Whole worlds -/

section

variable {d : Draft} {x : Watcher κ} (hx : g.watchers[d.watcher]? = some x) (hd : d.suits x = true)

include hx hd

/-- Entering books is making them a draft. -/
theorem enter_asIf (ds : List Draft) : (g.asIf ds).enter d = g.asIf (d :: ds) := by
  refine congrArg g.dressed (Array.ext_getElem? fun v => ?_)
  show ((written ds g.watchers).modify d.watcher d.fill)[v]? = _
  rw [Array.getElem?_modify, getElem?_written, getElem?_written]
  by_cases hv : d.watcher = v
  · subst hv
    rw [if_pos rfl, hx]
    cases ds.find? fun d' => decide (d'.watcher = d.watcher) <;> simp [hd]
  · rw [if_neg hv, List.find?_cons_of_neg (by simp [hv])]

/-- Of two drafts the later is entered. -/
theorem enter_redraft (ds : List Draft) (d' : Draft) (hsame : d'.watcher = d.watcher) :
    (g.asIf (d' :: ds)).enter d = g.asIf (d :: ds) := by
  rw [enter_asIf hx hd]
  refine congrArg g.dressed (Array.ext_getElem? fun v => ?_)
  rw [getElem?_written, getElem?_written]
  by_cases hv : d.watcher = v
  · simp [hv]
  · rw [List.find?_cons_of_neg (by simp [hv]), List.find?_cons_of_neg (by simp [hsame, hv]),
      List.find?_cons_of_neg (by simp [hv])]

omit hd in
/-- When a watcher is done its draft becomes its books. -/
theorem asIf_enter {ds : List Draft} (hds : ∀ d' ∈ ds, d'.watcher ≠ d.watcher) :
    (g.enter d).asIf ds = g.asIf (d :: ds) := by
  refine congrArg g.dressed (Array.ext_getElem? fun v => ?_)
  rw [getElem?_written, getElem?_written]
  show (g.watchers.modify d.watcher d.fill)[v]?.map _ = _
  rw [Array.getElem?_modify]
  by_cases hv : d.watcher = v
  · subst hv
    rw [if_pos rfl, hx, find?_of_not_mem hds]
    simp
  · rw [if_neg hv, List.find?_cons_of_neg (by simp [hv])]

end

/-- What is entered for a watcher that is not being bound has nothing to do with drafts. -/
theorem asIf_bindCollection {ds : List Draft} {item membership site bound}
    (hw : g.watchers[w]? = some (.collection item membership site bound)) (hds : ∀ d ∈ ds, d.watcher ≠ w)
    (b : BoundCollection) : (g.bindCollection w b).asIf ds = (g.asIf ds).bindCollection w b := by
  rw [bindCollection_eq_enter, bindCollection_eq_enter]
  exact (asIf_enter (d := .collection w b) hw hds).trans (enter_asIf (d := .collection w b) hw rfl ds).symm

/-- A new watcher has no draft yet. -/
theorem asIf_addWatcher {ds : List Draft} (hds : ∀ d ∈ ds, d.watcher < g.watchers.size) (x : Watcher κ) :
    (g.addWatcher x).asIf ds = (g.asIf ds).addWatcher x := by
  refine congrArg g.dressed (Array.ext_getElem? fun v => ?_)
  show _ = ((written ds g.watchers).push x)[v]?
  rw [getElem?_written, getElem?_addWatcher, Array.getElem?_push, getElem?_written]
  have hsize : (written ds g.watchers).size = g.watchers.size := by simp [written]
  rw [hsize]
  by_cases hv : v = g.watchers.size
  · subst hv
    rw [if_pos rfl, if_pos rfl, find?_of_not_mem fun d hd => ne_of_lt (hds d hd)]
    rfl
  · rw [if_neg hv, if_neg hv]

theorem asIf_enterListener (g : World κ) (ds : List Draft) (s : Subject) (p : String) (l : Listener κ) :
    (g.enterListener s p l).asIf ds = (g.asIf ds).enterListener s p l := by
  unfold asIf
  rw [enterListener_watchers, dressed_enterListener]

theorem asIf_enterChangeListener (g : World κ) (ds : List Draft) (c : CollectionId) (l : ChangeListener κ) :
    (g.enterChangeListener c l).asIf ds = (g.asIf ds).enterChangeListener c l :=
  rfl

/-! ### Who is being bound -/

/-- Drafts are kept for watchers that are bound to nothing, and are of their kinds. -/
def Drafted (g : World κ) (ds : List Draft) : Prop :=
  ∀ d ∈ ds, ∃ x, g.watchers[d.watcher]? = some x ∧ x.target = none ∧ d.suits x = true

section

variable (hd : g.Drafted ds)

include hd

theorem Drafted.lt {d : Draft} (hmem : d ∈ ds) : d.watcher < g.watchers.size := by
  obtain ⟨x, hx, -⟩ := hd d hmem
  exact (Array.getElem?_eq_some_iff.mp hx).1

/-- What is bound is not being bound. -/
theorem Drafted.ne {x : Watcher κ} (hw : g.watchers[w]? = some x) (ht : x.target.isSome = true) :
    ∀ d ∈ ds, d.watcher ≠ w := by
  rintro d hmem rfl
  obtain ⟨y, hy, hnone, -⟩ := hd d hmem
  rw [hy] at hw
  cases hw
  rw [hnone] at ht
  cases ht

/-- What is bound is so as if drafts were entered, too. -/
theorem Drafted.get_asIf {x : Watcher κ} (hw : g.watchers[w]? = some x) (ht : x.target.isSome = true) :
    (g.asIf ds).watchers[w]? = some x :=
  (getElem?_asIf_of_not_mem (hd.ne hw ht)).trans hw

theorem Drafted.listed_asIf {v w : WatcherId} (hw : w ∈ g.listed v) : w ∈ (g.asIf ds).listed v := by
  obtain ⟨x, hx, hmem⟩ := exists_of_mem_listed hw
  rw [listed_of_get (hd.get_asIf hx (Watcher.target_of_mem_listed hmem))]
  exact hmem

/-- Without the drafts there is below each watcher what its plan asks for, too. -/
theorem Drafted.shaped (hg : (g.asIf ds).Shaped) : g.Shaped := by
  constructor
  case paired => exact fun hw => hg.paired (hd.get_asIf hw rfl)
  case posts =>
    intro w plan site b hw i c hc
    exact (hg.posts (hd.get_asIf hw rfl) i c hc).mono exists_of_asIf
  case items =>
    intro w item batch site b hw e he
    obtain ⟨y, hy, hitem⟩ := hg.items (hd.get_asIf hw rfl) e he
    obtain ⟨x, hx, hdormant⟩ := exists_of_asIf hy
    exact ⟨x, hx, hdormant.trans hitem⟩
  case nodup =>
    intro w
    cases hw : g.watchers[w]? with
    | none => simp [listed, hw]
    | some x =>
      rw [listed_of_get hw]
      cases ht : x.target with
      | none => simp [(holds_nothing ht).1]
      | some v =>
        rw [← listed_of_get (hd.get_asIf hw (by simp [ht]))]
        exact hg.nodup w
  case single => exact fun hv hw => hg.single (hd.listed_asIf hv) (hd.listed_asIf hw)
  case older => exact fun hw => hg.older (hd.listed_asIf hw)

end

/-! ### Releasing -/

theorem dressed_foldl_unsubscribe (s : Subject) (ids : List SubscriptionId) (g : World κ) (ws : Array (Watcher κ)) :
    (ids.foldl (fun g id => g.unsubscribe s id) g).dressed ws =
      ids.foldl (fun g id => g.unsubscribe s id) (g.dressed ws) := by
  induction ids generalizing g with
  | nil => rfl
  | cons id ids ih => rw [List.foldl_cons, List.foldl_cons, ih, dressed_unsubscribe]

/-- Releasing a watcher that is not being bound has nothing to do with the drafts. -/
theorem asIf_release (hw : ∀ d ∈ ds, d.watcher ≠ w) : (g.release w).asIf ds = (g.asIf ds).release w := by
  have hset : ∀ y : Watcher κ, written ds (g.watchers.setIfInBounds w y) =
      (written ds g.watchers).setIfInBounds w y := by
    intro y
    refine Array.ext_getElem? fun v => ?_
    have hsize : (written ds g.watchers).size = g.watchers.size := by simp [written]
    rw [getElem?_written, Array.getElem?_setIfInBounds, Array.getElem?_setIfInBounds, getElem?_written, hsize]
    by_cases hv : w = v
    · subst hv
      rw [if_pos rfl, if_pos rfl, find?_of_not_mem hw]
      split <;> rfl
    · rw [if_neg hv, if_neg hv]
  unfold release
  rw [getElem?_asIf_of_not_mem hw]
  cases g.watchers[w]? with
  | none => rfl
  | some x =>
    cases x with
    | object plan site bound =>
      cases bound with
      | none => rfl
      | some b =>
        simp only
        unfold asIf
        rw [dressed_foldl_unsubscribe, (foldl_unsubscribe_watchers ..).1, hset]
        rfl
    | collection item membership site bound =>
      cases bound with
      | none => rfl
      | some b =>
        simp only
        unfold asIf
        show (World.unsubscribeChanges _ _ _).dressed (written ds (g.watchers.setIfInBounds w _)) = _
        rw [hset]
        rfl

theorem asIf_foldl_release (ws : List WatcherId) (hws : ∀ w ∈ ws, ∀ d ∈ ds, d.watcher ≠ w) (g : World κ) :
    (ws.foldl release g).asIf ds = ws.foldl release (g.asIf ds) := by
  induction ws generalizing g with
  | nil => rfl
  | cons w ws ih =>
    rw [List.foldl_cons, List.foldl_cons, ih fun v hv => hws v (List.mem_cons_of_mem _ hv),
      asIf_release (hws w List.mem_cons_self)]

end World
end LiveRules
