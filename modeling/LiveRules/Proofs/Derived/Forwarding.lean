/-
# What becomes of an object

An object is touched in few ways: a property is stored, code is hooked on it or taken
off, and somebody subscribes or unsubscribes. Subscriptions are entered only at an
object that answers for the property. So what these few leave of an object lasts, and
an object that forwards everything to its base is never subscribed to itself.

Key definitions: `World.Everywhere`, `Lasting`, `World.Forwards`, `World.Fronts`.
Key theorems: `Lasting.step`, `Run.unheard`, `World.Fronts.step`, `World.Fronts.read`,
`World.Fronts.unsubscribe_eq`.
-/
import LiveRules.Proofs.Machine.Alterations

namespace LiveRules

variable {κ σ : Type} {L : Language κ σ}

/-- What holds of an object lasts when a property is stored, hooked code is taken off,
and somebody unsubscribes, or subscribes to what the object answers for. -/
structure Lasting (P : ObjectId → Object κ → Prop) : Prop where
  store : ∀ {o x}, P o x → ∀ properties, P o { x with properties }
  unhook : ∀ {o x}, P o x → ∀ i, P o { x with hooks := x.hooks.eraseIdx i }
  subscribe : ∀ {o x}, P o x → ∀ p id l, x.base = none ∨ p ∈ x.own →
    P o { x with notifier := x.notifier.subscribe p id l }
  unsubscribe : ∀ {o x}, P o x → ∀ id, P o { x with notifier := x.notifier.unsubscribe id }

namespace World

/-- `P` holds of every object. -/
def Everywhere (P : ObjectId → Object κ → Prop) (g : World κ) : Prop :=
  ∀ (o : ObjectId) x, g.objects[o]? = some x → P o x

section

variable {P : ObjectId → Object κ → Prop} {g g' : World κ}

theorem Everywhere.congr (h : g.Everywhere P) (hobjects : g'.objects = g.objects) : g'.Everywhere P := by
  intro o x hx
  exact h o x (hobjects ▸ hx)

theorem Everywhere.modifyObject (h : g.Everywhere P) {o : ObjectId} {f : Object κ → Object κ}
    (hf : ∀ x, g.objects[o]? = some x → P o (f x)) : (g.modifyObject o f).Everywhere P := by
  intro i x hx
  simp only [World.modifyObject, Array.getElem?_modify] at hx
  split at hx
  · rename_i hoi
    subst hoi
    obtain ⟨y, hy, rfl⟩ := Option.map_eq_some_iff.mp hx
    exact hf y hy
  · exact h i x hx

theorem Everywhere.push (h : g.Everywhere P) {x : Object κ} (hx : P g.objects.size x) :
    ({ g with objects := g.objects.push x } : World κ).Everywhere P := by
  intro o y hy
  rw [Array.getElem?_push] at hy
  split at hy
  · rename_i ho
    cases hy
    exact ho ▸ hx
  · exact h o y hy

variable (hP : Lasting P)

include hP

theorem Everywhere.store (h : g.Everywhere P) (o : ObjectId) (p : String) (v : Value) : (g.store o p v).Everywhere P :=
  h.modifyObject fun x hx => hP.store (h _ x hx) _

theorem Everywhere.set (h : g.Everywhere P) (o : ObjectId) (p : String) (v : Value) :
    (g.set o p v).1.Everywhere P := by
  unfold World.set
  split
  · exact h
  · exact h.store hP o p v

theorem Everywhere.unsubscribe (h : g.Everywhere P) (s : Subject) (id : SubscriptionId) :
    (g.unsubscribe s id).Everywhere P := by
  unfold World.unsubscribe
  generalize g.reach s = ss
  induction ss generalizing g with
  | nil => exact h
  | cons s ss ih =>
    refine ih ?_
    cases s with
    | object o => exact h.modifyObject fun x hx => hP.unsubscribe (h o x hx) id
    | command c => exact h.congr rfl

theorem Everywhere.enterListener (h : g.Everywhere P) {s : Subject} {p : String} (l : Listener κ)
    (hs : ∀ o x, s = .object o → g.objects[o]? = some x → x.base = none ∨ p ∈ x.own) :
    (g.enterListener s p l).Everywhere P := by
  cases s with
  | object o =>
    have hmodified : (g.modifyNotifier (.object o) (·.subscribe p g.nextSubscription l)).Everywhere P :=
      h.modifyObject fun x hx => hP.subscribe (h o x hx) p _ l (hs o x rfl hx)
    exact hmodified.congr rfl
  | command c => exact h.congr rfl

theorem Everywhere.release (h : g.Everywhere P) (w : WatcherId) : (g.release w).Everywhere P := by
  unfold World.release
  split
  · rename_i plan site b _
    simp only
    generalize hg : ({ g with watchers := g.watchers.setIfInBounds w (.object plan site none) } : World κ) = g₀
    have h₀ : g₀.Everywhere P := h.congr (hg ▸ rfl)
    clear hg
    induction b.subscriptions generalizing g₀ with
    | nil => exact h₀
    | cons id ids ih => exact ih _ (h₀.unsubscribe hP _ id)
  · exact h.congr rfl
  · exact h

theorem Everywhere.unbind (h : g.Everywhere P) (w : WatcherId) : (g.unbind w).Everywhere P := by
  unfold World.unbind
  generalize g.nodes w = ws
  induction ws generalizing g with
  | nil => exact h
  | cons w ws ih => exact ih (h.release hP w)

theorem Everywhere.foldl_unbind (ws : List WatcherId) (h : g.Everywhere P) :
    (ws.foldl World.unbind g).Everywhere P := by
  induction ws generalizing g with
  | nil => exact h
  | cons w ws ih => exact ih (h.unbind hP w)

theorem Everywhere.dispose (h : g.Everywhere P) (t : TreeId) : (g.dispose t).Everywhere P := by
  unfold World.dispose
  split
  · have hmodified : (g.modifyTree t fun x => { x with root := none }).Everywhere P := h.congr rfl
    exact hmodified.unbind hP _
  · exact h

theorem Everywhere.bury (scene : Scene κ) (h : scene.world.Everywhere P) (t : TreeId) :
    (scene.bury t).Everywhere P := by
  rcases scene.bury_cases t with hbury | hbury
  · exact hbury ▸ h.dispose hP t
  · exact hbury ▸ h

theorem Everywhere.bind (h : g.Everywhere P) (w : WatcherId) (v : Value) : (g.bind w v).1.Everywhere P := by
  have hunbind := h.unbind hP w
  unfold World.bind
  simp only
  split
  · split <;> exact hunbind
  · split
    · exact hunbind.congr rfl
    · exact hunbind
  · exact hunbind

theorem Everywhere.enrol (h : g.Everywhere P) (e : Enrolment κ) : (g.enrol e).1.Everywhere P := by
  unfold World.enrol
  split
  · exact h.congr rfl
  · split
    · exact h.congr rfl
    · split
      · exact h.congr rfl
      · exact h.foldl_unbind hP _

theorem Everywhere.deliverChange (scene : Scene κ) (h : scene.world.Everywhere P) (c : CollectionId)
    (id : SubscriptionId)
    (l : ChangeListener κ) (change : Change) : (scene.deliverChange c id l change).1.Everywhere P := by
  unfold Scene.deliverChange
  simp only
  split
  · split
    · exact h
    · split
      · unfold World.membershipChanged
        split
        · exact Everywhere.foldl_unbind hP _ (h.congr rfl)
        · exact h
      · exact h
  · exact h

theorem Everywhere.attach (h : g.Everywhere P) (t : TreeId) (context : ObjectId) :
    (g.attach t context).1.Everywhere P := by
  have hdispose := h.dispose hP t
  unfold World.attach
  simp only
  split
  · exact hdispose.congr rfl
  · exact hdispose

theorem Everywhere.subscribe (h : g.Everywhere P) (s : Subject) (p : String) (l : Listener κ) (r : Receiver κ) :
    (g.subscribe s p l r).1.Everywhere P := by
  unfold World.subscribe
  split
  · split
    · rename_i hhook
      obtain ⟨i, rfl⟩ := takeHook_eq hhook
      exact h.modifyObject fun x hx => hP.unhook (h _ x hx) i
    · exact h
  · exact h

/-- A subscription is entered at an object that answers for the property. -/
theorem Everywhere.register (h : g.Everywhere P) (s : Subject) (p : String) (l : Listener κ) (r : Receiver κ) :
    (g.register s p l r).1.Everywhere P := by
  have hhere : (∀ o x, s = .object o → g.objects[o]? = some x → x.base = none ∨ p ∈ x.own) →
      ((g.enterListener s p l).answer g.nextSubscription r).1.Everywhere P := by
    intro hs
    have hentered := h.enterListener hP l hs
    cases r with
    | code k => exact hentered
    | binding b =>
      unfold World.answer World.bindChild
      simp only
      split
      · exact hentered
      · exact hentered
      all_goals exact hentered.congr rfl
  unfold World.register
  simp only
  split
  · rename_i o
    split
    · split
      · rename_i hanswers
        refine hhere fun o' x ho hx => ?_
        cases ho
        unfold World.answersFor at hanswers
        simpa [hx] using hanswers
      · exact h
    · rename_i hbase
      refine hhere fun o' x ho hx => Or.inl ?_
      cases ho
      simpa [World.baseOf, hx] using hbase
  · exact hhere fun o x ho => by cases ho

theorem Everywhere.grant (h : g.Everywhere P) (rest : List (Task κ)) (r : Request κ)
    (hmake : ∀ label properties base own, P g.objects.size { label, properties, base, own })
    (hhook : ∀ o p k x, r = .hook o p k → g.objects[o]? = some x → P o { x with hooks := x.hooks ++ [(p, k)] }) :
    (g.grant rest r).1.Everywhere P := by
  cases r <;> simp only [World.grant]
  case newObject =>
    split
    · exact (h.push (hmake _ _ _ _)).congr rfl
    · exact h
  case write =>
    split
    · exact h.store hP _ _ _
    · exact h
  case hook o p k => exact h.modifyObject fun x hx => hhook o p k x rfl hx
  case unsubscribe =>
    split
    · exact h.unsubscribe hP _ _
    · exact h
  case attach =>
    split
    · exact h.attach hP _ _
    · exact h
  case dispose => exact h.dispose hP _
  case drop t =>
    have hgiven : (g.modifyTree t fun x => { x with dropped := true }).Everywhere P := h.congr rfl
    exact Everywhere.bury hP { world := g.modifyTree t fun x => { x with dropped := true }, agenda := rest } hgiven t
  case newCollection | nameCommand | subscribe | subscribeChanges | unsubscribeChanges =>
    split <;> exact h
  case push | insert | remove | clear | report =>
    split
    · split <;> exact h
    · exact h
  all_goals exact h

theorem Everywhere.perform (scene : Scene κ) (h : scene.world.Everywhere P) (L : Language κ σ) (s : σ) (a : Action κ)
    (context : ObjectId) : (L.perform scene s a context).world.Everywhere P := by
  have hsettle : ∀ {scene : Scene κ}, scene.world.Everywhere P → ∀ s c, (L.settle scene s c).1.Everywhere P := by
    intro scene h s c
    unfold Language.settle
    simp only
    split
    · split
      · exact h.congr rfl
      · exact h
    · exact h
  cases a <;> simp only [Language.perform]
  case assign =>
    split
    · exact h.set hP _ _ _
    · exact h
  case create binding target =>
    refine Everywhere.set hP (hsettle ?_ _ _) _ _ _
    exact h.congr rfl
  case refresh =>
    split
    · unfold Language.refresh
      simp only
      split
      · split
        · exact h.congr rfl
        · exact h
      · exact h
    · exact h
  case settle =>
    split
    · exact hsettle h _ _
    · exact h
  all_goals exact h

end

end World

/-- **What holds of every object** lasts for a step, if it holds of new objects, and with
the code that the step hooks on an object. -/
theorem Lasting.step {P : ObjectId → Object κ → Prop} (hP : Lasting P) {m : Machine κ σ} (h : m.world.Everywhere P)
    (hmake : ∀ label properties base own, P m.world.objects.size { label, properties, base, own })
    (hhook : ∀ o p k rest x, m.agenda = .request (.hook o p k) :: rest → m.world.objects[o]? = some x →
      P o { x with hooks := x.hooks ++ [(p, k)] }) : (L.step m).world.Everywhere P := by
  obtain ⟨⟨g, agenda⟩, s⟩ := m
  cases agenda with
  | nil => exact h
  | cons t rest =>
    show (L.carry g s t rest).world.Everywhere P
    have hg : g.Everywhere P := h
    cases t with
    | request r =>
      have hgrant : (g.grant rest r).1.Everywhere P :=
        hg.grant hP rest r hmake fun o p k x hr hx => hhook o p k rest x (by rw [hr]) hx
      cases r with
      | call k signal => exact hg
      | _ => exact hgrant
    | perform a context =>
      exact World.Everywhere.perform hP { world := g, agenda := .perform a context :: rest } hg L s a context
    | deliverChange c id l change =>
      exact World.Everywhere.deliverChange hP { world := g, agenda := .deliverChange c id l change :: rest } hg c id l
        change
    | bind w v => exact hg.bind hP w v
    | bindMembers b =>
      have hsame : (g.bindMembers b).1.objects = g.objects := by
        unfold World.bindMembers
        simp only
        split <;> rfl
      exact hg.congr hsame
    | enrol e => exact hg.enrol hP e
    | subscribe s p l r => exact hg.subscribe hP s p l r
    | register s p l r => exact hg.register hP s p l r
    | plant t w => exact hg.congr rfl
    | release held =>
      cases held with
      | tree t => exact World.Everywhere.bury hP { world := g, agenda := rest } hg t
      | value v => exact hg
      | watcher w => exact hg
    | fire site batch => exact hg
    | deliver s id l => exact hg

/-! ### Objects that forward -/

/-- Unsubscribing leaves a notifier empty that is. -/
theorem Notifier.unsubscribe_empty {α : Type} (id : SubscriptionId) : ({} : Notifier α).unsubscribe id = {} :=
  rfl

/-- Nobody is subscribed to an object that answers for no property. -/
def Object.Unheard (_ : ObjectId) (x : Object κ) : Prop :=
  x.base ≠ none → x.own = [] → x.notifier = {}

theorem Object.lasting_unheard : Lasting (Object.Unheard (κ := κ)) where
  store h _ := h
  unhook h _ := h
  subscribe h p id l hanswers hbase hown := by
    rcases hanswers with hnone | hmem
    · exact absurd hnone hbase
    · rw [hown] at hmem
      cases hmem
  unsubscribe h id hbase hown := by
    show Notifier.unsubscribe _ id = {}
    rw [h hbase hown]
    rfl

/-- **In every run** nobody is subscribed to an object that answers for no property. -/
theorem Run.unheard {past : List (Machine κ σ)} {m : Machine κ σ} (h : Run L past m) :
    m.world.Everywhere Object.Unheard := by
  induction h with
  | start s => exact fun o x hx => by simp [machine] at hx
  | ask _ requests s' ih => exact ih
  | step _ ih =>
    refine Object.lasting_unheard.step ih (fun _ _ _ _ _ _ => rfl) fun o p k rest x _ hx => ?_
    exact ih o x hx

/-- If it is `d`, the object answers for nothing, no code is due on it and nobody is
subscribed to it. -/
def Object.FrontsFor (d b : ObjectId) (o : ObjectId) (x : Object κ) : Prop :=
  o = d → x.base = some b ∧ x.own = [] ∧ x.hooks = [] ∧ x.notifier = {}

theorem Object.lasting_frontsFor (d b : ObjectId) : Lasting (Object.FrontsFor (κ := κ) d b) where
  store h _ := h
  unhook h i ho := by
    obtain ⟨hbase, hown, hhooks, hnotifier⟩ := h ho
    exact ⟨hbase, hown, by simp [hhooks], hnotifier⟩
  subscribe h p id l hanswers ho := by
    obtain ⟨hbase, hown, -, -⟩ := h ho
    simp [hbase, hown] at hanswers
  unsubscribe h id ho := by
    obtain ⟨hbase, hown, hhooks, hnotifier⟩ := h ho
    exact ⟨hbase, hown, hhooks, by simp only [hnotifier, Notifier.unsubscribe_empty]⟩

/-- The next step hooks code on `o`. -/
def Machine.hooksOn (m : Machine κ σ) (o : ObjectId) : Bool :=
  match m.agenda with
  | .request (.hook i _ _) :: _ => i = o
  | _ => false

namespace World

/-- Whatever is read off `d`, written to it or subscribed to through it, is on `b`, and
no code is due on `d`. -/
def Forwards (g : World κ) (d b : ObjectId) : Prop :=
  ∃ x, g.objects[d]? = some x ∧ x.base = some b ∧ x.own = [] ∧ x.hooks = []

/-- So it is, and nobody is subscribed to `d` itself. -/
structure Fronts (g : World κ) (d b : ObjectId) : Prop where
  made : g.hasObject d = true
  forwards : g.Everywhere (Object.FrontsFor d b)
  sane : g.unhooked.Sane

theorem Forwards.fronts {g : World κ} {d b : ObjectId} (h : g.Forwards d b) (hunheard : g.Everywhere Object.Unheard)
    (hsane : g.unhooked.Sane) : g.Fronts d b := by
  obtain ⟨x, hx, hbase, hown, hhooks⟩ := h
  refine ⟨by simpa [hasObject] using (Array.getElem?_eq_some_iff.mp hx).1, ?_, hsane⟩
  rintro o y hy rfl
  rw [hx] at hy
  cases hy
  exact ⟨hbase, hown, hhooks, hunheard _ x hx (by simp [hbase]) hown⟩

namespace Fronts

variable {g g' : World κ} {d b : ObjectId}

/-- **An object that forwards** goes on to do so while no code is hooked on it. -/
theorem step {m : Machine κ σ} (h : m.world.Fronts d b) (hhook : m.hooksOn d = false) :
    (L.step m).world.Fronts d b where
  made := (L.step_lasts m).hasObject h.made
  forwards := by
    have hlt : d < m.world.objects.size := by simpa [hasObject] using h.made
    exact (Object.lasting_frontsFor d b).step h.forwards (fun _ _ _ _ hsize => absurd hsize (ne_of_gt hlt))
      fun o p k rest y hm _ ho => by simp [Machine.hooksOn, hm, ho] at hhook
  sane := L.sane_step h.sane

theorem of_watching (h : g.Fronts d b) (houtline : g'.outline = g.outline)
    (hforwards : g'.Everywhere (Object.FrontsFor d b)) : g'.Fronts d b where
  made := (hasValue_congr houtline (.object d)).trans h.made
  forwards := hforwards
  sane := h.sane.congr (outline_dressed houtline _ _)

theorem release (h : g.Fronts d b) (w : WatcherId) : (g.release w).Fronts d b :=
  h.of_watching (g.release_outline w) (h.forwards.release (Object.lasting_frontsFor d b) w)

theorem unbind (h : g.Fronts d b) (w : WatcherId) : (g.unbind w).Fronts d b :=
  h.of_watching (g.unbind_outline w) (h.forwards.unbind (Object.lasting_frontsFor d b) w)

theorem unsubscribe (h : g.Fronts d b) (s : Subject) (id : SubscriptionId) : (g.unsubscribe s id).Fronts d b :=
  h.of_watching (g.unsubscribe_outline s id) (h.forwards.unsubscribe (Object.lasting_frontsFor d b) s id)

section

variable (h : g.Fronts d b)

include h

theorem object : ∃ x, g.objects[d]? = some x ∧ x.base = some b ∧ x.own = [] ∧ x.hooks = [] ∧ x.notifier = {} := by
  have hlt : d < g.objects.size := by simpa [hasObject] using h.made
  exact ⟨_, Array.getElem?_eq_getElem hlt, h.forwards d _ (Array.getElem?_eq_getElem hlt) rfl⟩

theorem baseOf : g.baseOf d = some b := by
  obtain ⟨x, hx, hbase, -⟩ := h.object
  simp [World.baseOf, hx, hbase]

theorem answersFor (p : String) : g.answersFor p d = false := by
  obtain ⟨x, hx, hbase, hown, -⟩ := h.object
  simp [World.answersFor, hx, hbase, hown]

/-- A base is older. -/
theorem lt : b < d := by
  refine h.sane.older d b ?_
  rw [unhooked, baseOf_dressed]
  exact h.baseOf

theorem made_base : g.hasObject b = true := by
  have hlt : d < g.objects.size := by simpa [hasObject] using h.made
  simpa [hasObject] using h.lt.trans hlt

theorem lineage : g.lineage d = d :: g.lineage b := by
  have hlineage := h.sane.lineage_eq d
  simp only [unhooked, lineage_dressed, baseOf_dressed, h.baseOf] at hlineage
  exact hlineage

theorem holder (p : String) : g.holder d p = g.holder b p := by
  have hholder := h.sane.holder_eq d p
  simp only [unhooked, holder_dressed, answersFor_dressed, baseOf_dressed, h.baseOf, h.answersFor] at hholder
  exact hholder

/-- **Everything is read** off the base. -/
theorem read (p : String) : g.read d p = g.read b p := by
  unfold World.read
  rw [h.holder]

/-- **Everything is taken back** at the base. -/
theorem unsubscribe_eq (id : SubscriptionId) : g.unsubscribe (.object d) id = g.unsubscribe (.object b) id := by
  obtain ⟨x, hx, -, -, -, hnotifier⟩ := h.object
  have hsame : g.modifyNotifier (.object d) (·.unsubscribe id) = g := by
    have hobjects : (g.objects.modify d fun x => { x with notifier := x.notifier.unsubscribe id }) = g.objects := by
      apply Array.ext_getElem?
      intro i
      rw [Array.getElem?_modify]
      split
      · rename_i hdi
        subst hdi
        rw [hx, Option.map_some, hnotifier, Notifier.unsubscribe_empty, ← hnotifier]
      · rfl
    simp only [modifyNotifier, modifyObject, hobjects]
  simp only [World.unsubscribe, reach, h.lineage, List.map_cons, List.foldl_cons, hsame]

/-- **A subscription** through the object passes on to the base. -/
theorem subscribe_eq (p : String) (l : Listener κ) (r : Receiver κ) :
    g.subscribe (.object d) p l r = (g, [.register (.object d) p l r]) := by
  obtain ⟨x, hx, -, -, hhooks, -⟩ := h.object
  have hnone : g.takeHook d p = none := by simp [takeHook, hx, hhooks]
  simp only [World.subscribe, hnone]

theorem register_eq (p : String) (l : Listener κ) (r : Receiver κ) :
    g.register (.object d) p l r = (g, [.subscribe (.object b) p l r]) := by
  simp [World.register, h.baseOf, h.answersFor]

end

end Fronts
end World
end LiveRules
