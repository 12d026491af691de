/-
# What a collection reports

Each time the members of a collection change, a delivery for each of its listeners comes on
the agenda, and while one of them is told the members may change again. So a listener may
hear of the later change first; but what it has been told and what it is still to be told
make up, at any time, all the changes since it came. At rest nothing is still to be told,
and the changes add up to the difference between the members then and now.

Key definitions: `Change.worth`, `Machine.edit`, `Machine.report`, `World.Reports`.
Key theorems: `Language.carry_reports`, `Resumes.reports`, `reports_add_up`.
-/
import LiveRules.Proofs.Machine.Listening
import LiveRules.Proofs.World.Edits
import LiveRules.Session.Things
import Mathlib.Algebra.BigOperators.Group.List.Basic

namespace LiveRules

variable {κ σ : Type} {L : Language κ σ}

/-- By how much the change adds to the number of times that an object is a member. -/
def Change.worth (o : ObjectId) (change : Change) : ℤ :=
  change.added.count o - change.removed.count o

/-- The change that a task makes in the collection. -/
def Task.edit (g : World κ) (c : CollectionId) : Task κ → Option Change
  | .request r => g.edit c r
  | _ => none

/-- The listener of the collection that the task tells under this id, and the change. -/
def Task.report (c : CollectionId) (id : SubscriptionId) : Task κ → Option (ChangeListener κ × Change)
  | .deliverChange d i l change => if d = c ∧ i = id then some (l, change) else none
  | _ => none

theorem Task.edit_nonempty {g : World κ} {c : CollectionId} {t : Task κ} {change : Change}
    (h : t.edit g c = some change) : change.isEmpty = false := by
  cases t with
  | request r =>
    simp only [Task.edit, World.edit] at h
    split at h
    · obtain ⟨items, -, hchange⟩ := Option.bind_eq_some_iff.mp h
      exact Request.change_nonempty hchange
    · cases h
  | _ => cases h

namespace Machine

/-- The change that the next step makes in the collection. -/
def edit (c : CollectionId) (m : Machine κ σ) : Option Change :=
  m.agenda.head?.bind (Task.edit m.world c)

/-- The next step tells a listener of the collection, which is subscribed under this id, of
a change. -/
def report (c : CollectionId) (id : SubscriptionId) (m : Machine κ σ) : Option (ChangeListener κ × Change) :=
  if (m.world.listenersOfCollection c).has id then m.agenda.head?.bind (Task.report c id) else none

end Machine

/-! ### One step -/

section

variable {c : CollectionId} {id : SubscriptionId} {l : ChangeListener κ} {g g' : World κ} {tasks : List (Task κ)}

theorem Task.report_of_not_change {t : Task κ} (h : t.isChange = false) : t.report c id = none := by
  cases t <;> first | rfl | cases h

theorem filterMap_report_eq_nil (h : ∀ t ∈ tasks, t.isChange = false) : tasks.filterMap (Task.report c id) = [] :=
  List.filterMap_eq_nil_iff.mpr fun t ht => Task.report_of_not_change (h t ht)

namespace World

/-- The listener stands on the list of the collection, under this id and once. -/
def Enlists (g : World κ) (c : CollectionId) (id : SubscriptionId) (l : ChangeListener κ) : Prop :=
  (g.listenersOfCollection c).filter (·.1 = id) = [(id, l)]

theorem filterMap_changeRound (honce : g.Enlists c id l) (d : CollectionId) (change : Change) :
    (g.changeRound d change).filterMap (Task.report c id) = if d = c then [(l, change)] else [] := by
  have hreleases : ((change.added ++ change.removed).map fun o => Task.release (κ := κ) (.value (.object o))).filterMap
      (Task.report c id) = [] := by
    refine filterMap_report_eq_nil fun t ht => ?_
    obtain ⟨o, -, rfl⟩ := List.mem_map.mp ht
    rfl
  rw [changeRound, List.filterMap_append, hreleases, List.append_nil, List.filterMap_map]
  split
  · rename_i heq
    subst heq
    have hfilter : ∀ es : List (SubscriptionId × ChangeListener κ),
        es.filterMap (Task.report d id ∘ fun e => .deliverChange d e.1 e.2 change) =
          (es.filter (·.1 = id)).map fun e => (e.2, change) := by
      intro es
      induction es with
      | nil => rfl
      | cons e es ih => by_cases he : e.1 = id <;> simp [Task.report, he, ih]
    rw [hfilter, honce]
    rfl
  · rename_i hne
    exact List.filterMap_eq_nil_iff.mpr fun e _ => if_neg fun h => hne h.1

/-- From `g` to `g'` the members of the collection change as `change` says, if at all, and
the tasks tell the listener so. -/
structure Reports (c : CollectionId) (id : SubscriptionId) (l : ChangeListener κ) (change : Option Change)
    (g g' : World κ) (tasks : List (Task κ)) : Prop where
  told : tasks.filterMap (Task.report c id) = change.toList.map (Prod.mk l)
  counts : ∀ items, g.listOf c = some items → ∃ items', g'.listOf c = some items' ∧
    ∀ o, (items'.count o : ℤ) = items.count o + (change.toList.map (Change.worth o)).sum

theorem reports_of_quiet (h : Quiet g g' tasks) : Reports c id l none g g' tasks := by
  refine ⟨filterMap_report_eq_nil h.2, fun items hitems => ⟨items, ?_, fun o => by simp⟩⟩
  rw [(h.1 c (hasValue_of_listOf hitems)).2, hitems]

/-- **A request for other members** tells the listener what it changes. -/
theorem reports_grant {items : List ObjectId} (hitems : g.listOf c = some items) (honce : g.Enlists c id l)
    (r : Request κ) (rest : List (Task κ)) :
    Reports c id l (g.edit c r) g (g.grant rest r).1 (g.grant rest r).2 := by
  have hnothing : Reports c id l none g g [] := reports_of_quiet ⟨Lists.refl g, by simp⟩
  have hother : ∀ {d} news change, d ≠ c →
      Reports c id l none g (g.changeItems d news change).1 (g.changeItems d news change).2 := by
    intro d news change hd
    refine ⟨(filterMap_changeRound honce d change).trans (if_neg hd), fun old hold => ⟨old, ?_, fun o => by simp⟩⟩
    exact (g.listOf_changeItems d news c).trans ((if_neg hd).trans hold)
  cases hr : r.edits with
  | some d =>
    cases hold : g.listOf d with
    | none =>
      have hne : d ≠ c := fun heq => by simp [heq, hitems] at hold
      have hedit : g.edit c r = none := if_neg fun heq => hne (Option.some.inj (hr.symm.trans heq))
      have hgrant : g.grant rest r = (g, []) := by
        cases r <;> cases hr <;> simp only [grant, hold]
      rw [hedit, hgrant]
      exact hnothing
    | some old =>
      rw [g.grant_edit hold hr rest]
      by_cases hd : d = c
      · subst hd
        obtain rfl : items = old := Option.some.inj (hitems.symm.trans hold)
        have hedit : g.edit d r = r.change g items := by rw [edit, if_pos hr, hitems, Option.bind_some]
        rw [hedit]
        cases hchange : r.change g items with
        | none => exact hnothing
        | some change =>
          refine ⟨(filterMap_changeRound honce d change).trans (if_pos rfl),
            fun _ h => ⟨r.members items, ?_, fun o => ?_⟩⟩
          · exact (g.listOf_changeItems d _ d).trans (by rw [if_pos rfl, hitems, Option.map_some])
          · obtain rfl := Option.some.inj (hitems.symm.trans h)
            have hcount := Request.count_members hchange o
            simp only [Option.toList_some, List.map_cons, List.map_nil, List.sum_singleton, Change.worth]
            omega
      · have hedit : g.edit c r = none := if_neg fun heq => hd (Option.some.inj (hr.symm.trans heq))
        rw [hedit]
        cases r.change g old with
        | none => exact hnothing
        | some change => exact hother _ change hd
  | none =>
    have hedit : g.edit c r = none := if_neg (by simp [hr])
    rw [hedit]
    cases r with
    | report d news change =>
      simp only [grant]
      split
      · rename_i x hx
        split
        · rename_i hfree
          rw [Bool.and_eq_true] at hfree
          refine hother _ change ?_
          rintro rfl
          simp [listOf, hx, hfree.1] at hitems
        · exact hnothing
      · exact hnothing
    | push | insert | remove | clear => cases hr
    | _ => exact reports_of_quiet (quiet_grant g rest rfl)

end World

/-- **One task** changes the members as it says, if at all, and has the listener told. -/
theorem Language.carry_reports (L : Language κ σ) {items : List ObjectId} (hitems : g.listOf c = some items)
    (honce : g.Enlists c id l) (s : σ) (t : Task κ) (rest : List (Task κ)) :
    World.Reports c id l (t.edit g c) g (L.carry g s t rest).world (L.carry g s t rest).tasks := by
  have hquiet : (∀ r, t = .request r → r.isEdit = false) →
      World.Reports c id l none g (L.carry g s t rest).world (L.carry g s t rest).tasks :=
    fun h => World.reports_of_quiet (L.quiet_carry g s rest h)
  cases t with
  | request r =>
    cases r with
    | call k signal => exact hquiet fun r hr => by cases hr; rfl
    | _ => exact World.reports_grant hitems honce _ rest
  | _ => exact hquiet fun r hr => by cases hr

end

/-! ### A run -/

section

variable {c : CollectionId} {id : SubscriptionId} {l : ChangeListener κ} {past later : List (Machine κ σ)}
  {m₀ m : Machine κ σ}

/-- In any run, a listener that is there has an id that was given out, and is there once. -/
theorem Run.enlists (h : Run L past m) (hl : (id, l) ∈ m.world.listenersOfCollection c) :
    id < m.world.nextSubscription ∧ m.world.Enlists c id l := by
  obtain ⟨s, hresumes⟩ := h.resumes
  have hamended := hresumes.relists.collection c
  have hnone : (machine ({} : World κ) [] s).world.listenersOfCollection c = [] := by
    simp [machine, World.listenersOfCollection]
  rw [hnone] at hamended
  exact ⟨hamended.older (by simp) _ hl, Table.filter_of_mem (hamended.nodup List.nodup_nil) hl⟩

/-- As long as it is there, it is there as it was. -/
theorem Resumes.enlists (h : Resumes L m₀ later m) (hid : id < m₀.world.nextSubscription)
    (honce : m₀.world.Enlists c id l) (hstays : (m.world.listenersOfCollection c).has id = true) :
    m.world.Enlists c id l :=
  ((h.relists.collection c).keeps hid hstays).2.trans honce

theorem filterMap_cons_toList {α β : Type} (f : α → Option β) (a : α) (as : List α) :
    (a :: as).filterMap f = (f a).toList ++ as.filterMap f := by
  cases h : f a <;> simp [h]

/-- What is still to be told is told next, or later. -/
theorem Machine.filterMap_agenda (hhas : (m.world.listenersOfCollection c).has id = true) :
    m.agenda.filterMap (Task.report c id) =
      (m.report c id).toList ++ m.agenda.tail.filterMap (Task.report c id) := by
  unfold Machine.report
  rw [if_pos hhas]
  cases m.agenda with
  | nil => rfl
  | cons t rest => exact filterMap_cons_toList _ t rest

/-- **A step** puts what it changes on the agenda of the listener. -/
theorem Language.step_reports {items : List ObjectId} (hitems : m.world.listOf c = some items)
    (honce : m.world.Enlists c id l) :
    (L.step m).agenda.filterMap (Task.report c id) =
        (m.edit c).toList.map (Prod.mk l) ++ m.agenda.tail.filterMap (Task.report c id) ∧
      ∃ items', (L.step m).world.listOf c = some items' ∧
        ∀ o, (items'.count o : ℤ) = items.count o + ((m.edit c).toList.map (Change.worth o)).sum := by
  obtain ⟨⟨g, agenda⟩, s⟩ := m
  cases agenda with
  | nil => exact ⟨rfl, items, hitems, fun o => by simp [Machine.edit]⟩
  | cons t rest =>
    obtain ⟨htold, hcounts⟩ := L.carry_reports hitems honce s t rest
    refine ⟨?_, hcounts items hitems⟩
    exact (List.filterMap_append ..).trans (congrArg (· ++ _) htold)

/-- **At any time** what the listener has been told and what it is still to be told are the
changes made since; they add up to the difference that was made. -/
theorem Resumes.reports (h : Resumes L m₀ later m) (hid : id < m₀.world.nextSubscription)
    (honce : m₀.world.Enlists c id l) {items₀ : List ObjectId} (hitems₀ : m₀.world.listOf c = some items₀)
    (hrest : m₀.agenda = []) (hstays : (m.world.listenersOfCollection c).has id = true) :
    (later.filterMap (Machine.report c id) ++ m.agenda.filterMap (Task.report c id)).Perm
        ((later.filterMap (Machine.edit c)).map (Prod.mk l)) ∧
      ∃ items, m.world.listOf c = some items ∧ ∀ o, (items.count o : ℤ) =
        items₀.count o + ((later.filterMap (Machine.edit c)).map (Change.worth o)).sum := by
  induction h with
  | here => exact ⟨by simp [hrest], items₀, hitems₀, by simp⟩
  | @ask later g s _ requests s' ih =>
    have hnone : (requests.map Task.request).filterMap (Task.report (κ := κ) c id) = [] :=
      filterMap_report_eq_nil fun t ht => by
        obtain ⟨r, -, rfl⟩ := List.mem_map.mp ht
        rfl
    have hsofar := ih hstays
    simp only [machine, hnone] at hsofar ⊢
    exact hsofar
  | @step later m h ih =>
    have hbefore : (m.world.listenersOfCollection c).has id = true :=
      ((L.step_relists m).collection c).keeps (lt_of_lt_of_le hid h.relists.next) hstays |>.1
    obtain ⟨hperm, items, hitems, hcount⟩ := ih hbefore
    obtain ⟨htold, items', hitems', hcount'⟩ := L.step_reports hitems (h.enlists hid honce hbefore)
    rw [filterMap_cons_toList, filterMap_cons_toList, List.map_append]
    refine ⟨?_, items', hitems', fun o => ?_⟩
    · -- what is told now has waited, and what is changed now is to wait
      rw [Machine.filterMap_agenda hbefore] at hperm
      rw [htold]
      refine (List.perm_append_comm_assoc _ _ _).trans (.append_left _ ?_)
      rw [List.append_assoc]
      exact (List.perm_append_comm_assoc _ _ _).trans hperm
    · rw [hcount', hcount, List.map_append, List.sum_append]
      ring

end

/-! ### The account -/

/-- A request for other members is carried out in one step. -/
theorem Language.step_edit (L : Language κ σ) {n : Machine κ σ} {c : CollectionId} {items : List ObjectId}
    {r : Request κ}
    {rest : List (Task κ)} (hitems : n.world.listOf c = some items) (hagenda : n.agenda = .request r :: rest)
    (hr : r.edits = some c) : L.step n = match r.change n.world items with
      | some change => machine (n.world.changeItems c (r.members items) change).1
          ((n.world.changeItems c (r.members items) change).2 ++ rest) n.state
      | none => machine n.world rest n.state := by
  obtain ⟨⟨g, agenda⟩, s⟩ := n
  obtain rfl : agenda = _ := hagenda
  have hcarry : L.carry g s (.request r) rest =
      { world := (g.grant rest r).1, state := s, tasks := (g.grant rest r).2 } := by
    cases r <;> first | rfl | cases hr
  simp only [Language.step, hcarry, g.grant_edit hitems hr rest]
  cases r.change g items <;> rfl

/-- A request that is in vain is done with. -/
theorem Language.step_in_vain (L : Language κ σ) {n : Machine κ σ} {c : CollectionId} {items : List ObjectId}
    {r : Request κ} {rest : List (Task κ)} (hitems : n.world.listOf c = some items)
    (hagenda : n.agenda = .request r :: rest)
    (hr : r.edits = some c) (hvain : n.edit c = none) : L.step n = machine n.world rest n.state := by
  have hnone : r.change n.world items = none := by
    simpa [Machine.edit, hagenda, Task.edit, World.edit, hr, hitems] using hvain
  rw [L.step_edit hitems hagenda hr, hnone]

/-- Taking an object out where it first stands is not in vain. -/
theorem Language.step_remove_first (L : Language κ σ) {n : Machine κ σ} {c : CollectionId} {items : List ObjectId}
    {o : ObjectId} {index : Nat} {rest : List (Task κ)} (hitems : n.world.listOf c = some items)
    (hindex : items.findIdx? (· = o) = some index) (hagenda : n.agenda = .request (.remove c index) :: rest) :
    n.edit c = some { removed := [o] } ∧ (L.step n).world.listOf c = some (items.erase o) := by
  obtain ⟨hchange, hmembers⟩ := Request.change_first n.world hindex c
  refine ⟨by simp [Machine.edit, hagenda, Task.edit, World.edit, Request.edits, hitems, hchange], ?_⟩
  rw [L.step_edit hitems hagenda rfl, hchange, hmembers]
  exact (n.world.listOf_changeItems c _ c).trans (by rw [if_pos rfl, hitems, Option.map_some])

/-- What a listener is told of under its id is there to be told when its turn comes. -/
theorem Machine.agenda_of_report {c : CollectionId} {id : SubscriptionId} {n : Machine κ σ} {k : ChangeListener κ}
    {change : Change} (h : n.report c id = some (k, change)) :
    ∃ rest, n.agenda = .deliverChange c id k change :: rest := by
  obtain ⟨⟨g, agenda⟩, s⟩ := n
  unfold Machine.report at h
  split at h
  · obtain ⟨t, ht, hreport⟩ := Option.bind_eq_some_iff.mp h
    obtain ⟨rest, rfl⟩ : ∃ rest, agenda = t :: rest := List.head?_eq_some_iff.mp ht
    cases t with
    | deliverChange d i l' change' =>
      simp only [Task.report] at hreport
      split at hreport
      · rename_i hwho
        obtain ⟨rfl, rfl⟩ := hwho
        obtain ⟨rfl, rfl⟩ := Prod.mk.inj (Option.some.inj hreport)
        exact ⟨rest, rfl⟩
      · cases hreport
    | _ => cases hreport
  · cases h

/-- Where a session takes out an item, it looks for its first place. -/
theorem Session.Turn.removeItem_requests {t : Session.Turn} {ref item : String} {c : CollectionId}
    {items : List ObjectId} {o : ObjectId} (hc : t.collectionOf false ref = .ok (c, items))
    (ho : t.object item = .ok o) : ∃ outcome, t.collectionStatement (.removeItem ref item) = .ok outcome ∧
      outcome.requests = match items.findIdx? (· = o) with
        | some index => [.remove c index, .hold (.collection c)]
        | none => [] := by
  simp only [Session.Turn.collectionStatement, hc, ho, bind, Except.bind]
  cases items.findIdx? (· = o) with
  | none => exact ⟨_, rfl, rfl⟩
  | some index => exact ⟨_, rfl, rfl⟩

/-- **Reports add up.** In any run, with whatever hooks, a collection keeps its own account
of its members, and somebody listens to it at rest and is there at a later rest. In between

* what the listener was told is what was changed, each change as often as it was made: one
  that is made puts one delivery on the agenda for the listener, any other step none, and a
  delivery that is carried out tells the listener itself;
* a request that is in vain has no other effect than to be done with, and taking an object
  out where it first stands is not in vain;
* no change that was told is empty, and what joined and left by all of them is the
  difference between the members then and now.

Where a session takes out an item, it looks for its first place, and asks for nothing if
there is none. -/
theorem reports_add_up {past later : List (Machine κ σ)} {m₀ m : Machine κ σ} {c : CollectionId} {id : SubscriptionId}
    {l : ChangeListener κ} {items₀ : List ObjectId} (h : Run L past m₀) (hrest₀ : m₀.agenda = [])
    (hitems₀ : m₀.world.listOf c = some items₀) (hl : (id, l) ∈ m₀.world.listenersOfCollection c)
    (h' : Resumes L m₀ later m) (hrest : m.agenda = [])
    (hstays : (m.world.listenersOfCollection c).has id = true) :
    let made := later.filterMap (Machine.edit c)
    let told := later.filterMap (Machine.report c id)
    told.Perm (made.map (Prod.mk l)) ∧
    (∀ n ∈ later,
      (L.step n).agenda.filterMap (Task.report c id) =
        (n.edit c).toList.map (Prod.mk l) ++ n.agenda.tail.filterMap (Task.report c id) ∧
      (∀ k change, n.report c id = some (k, change) →
        k = l ∧ ∃ rest, n.agenda = .deliverChange c id l change :: rest ∧
          ∀ f, l = .code f → (L.step n).agenda = .request (.call f (.changed change)) :: rest) ∧
      (∀ r rest, n.agenda = .request r :: rest → r.edits = some c → n.edit c = none →
        L.step n = machine n.world rest n.state) ∧
      ∀ items o index rest, n.world.listOf c = some items → items.findIdx? (· = o) = some index →
        n.agenda = .request (.remove c index) :: rest →
          n.edit c = some { removed := [o] } ∧ (L.step n).world.listOf c = some (items.erase o)) ∧
    (∀ e ∈ told, e.2.isEmpty = false) ∧
    (∃ items, m.world.listOf c = some items ∧
      ∀ o, (items.count o : ℤ) - items₀.count o = (told.map fun e => e.2.worth o).sum) ∧
    ∀ (t : Session.Turn) ref item items o, t.collectionOf false ref = .ok (c, items) → t.object item = .ok o →
      ∃ outcome, t.collectionStatement (.removeItem ref item) = .ok outcome ∧
        outcome.requests = match items.findIdx? (· = o) with
          | some index => [.remove c index, .hold (.collection c)]
          | none => [] := by
  intro made told
  obtain ⟨hid, honce⟩ := h.enlists hl
  obtain ⟨hperm, items, hitems, hcount⟩ := h'.reports hid honce hitems₀ hrest₀ hstays
  rw [hrest, List.filterMap_nil, List.append_nil] at hperm
  refine ⟨hperm, fun n hn => ?_, fun e he => ?_, ⟨items, hitems, fun o => ?_⟩,
    fun t ref item items o => Session.Turn.removeItem_requests⟩
  · obtain ⟨before, after, hbefore, hafter⟩ := h'.between hn
    have hhas : (n.world.listenersOfCollection c).has id = true :=
      ((hafter.relists.collection c).keeps (lt_of_lt_of_le hid hbefore.relists.next) hstays).1
    obtain ⟨-, old, hold, -⟩ := hbefore.reports hid honce hitems₀ hrest₀ hhas
    refine ⟨(L.step_reports hold (hbefore.enlists hid honce hhas)).1, fun k change hreport => ?_,
      fun r rest => L.step_in_vain hold, fun items o index rest => L.step_remove_first⟩
    have htold : (k, change) ∈ told := List.mem_filterMap.mpr ⟨n, hn, hreport⟩
    obtain ⟨_, -, heq⟩ := List.mem_map.mp (hperm.mem_iff.mp htold)
    obtain ⟨rfl, -⟩ := Prod.mk.inj heq
    obtain ⟨rest, hagenda⟩ := Machine.agenda_of_report hreport
    refine ⟨rfl, rest, hagenda, ?_⟩
    rintro f rfl
    simp [Language.step, hagenda, Language.carry, Scene.deliverChange, hhas]
  · obtain ⟨change, hchange, rfl⟩ := List.mem_map.mp (hperm.mem_iff.mp he)
    obtain ⟨n, -, hedit⟩ := List.mem_filterMap.mp hchange
    obtain ⟨t, -, hedit⟩ := Option.bind_eq_some_iff.mp hedit
    exact Task.edit_nonempty hedit
  · rw [hcount, add_sub_cancel_left, (hperm.map fun e => e.2.worth o).sum_eq, List.map_map]
    rfl

/-! ### Two listeners that sweep -/

/-- Two listeners take out the first member whenever the collection changes. -/
def sweepers : List (Machine Unit Unit) × Machine Unit Unit :=
  sweeper.trail 6 [] (machine {} ([.newObject "item" [] none [], .newCollection "list" [] false,
    .subscribeChanges 0 () (), .subscribeChanges 0 () ()].map .request) ())

theorem sweepers_run : Run sweeper sweepers.1 (machine sweepers.2.world [] ()) :=
  ((Run.start ()).ask _ ()).trail 6

/-- An item joins, and then one is to be taken out where nothing is. -/
def sweptTwice : List (Machine Unit Unit) × Machine Unit Unit :=
  sweeper.trail 16 [] (machine sweepers.2.world ([.push 0 0, .remove 0 5].map .request) ())

theorem sweptTwice_resumes :
    Resumes sweeper (machine sweepers.2.world [] ()) sweptTwice.1 (machine sweptTwice.2.world [] ()) :=
  (Resumes.here.ask _ ()).trail 16

/-- The second listener hears that the item has left before it hears that it has joined,
the last news being listed first, and of nothing else; the two come to nothing. -/
theorem reports_add_up_swept :
    sweepers.2.world.listOf 0 = some [] ∧ (1, .code ()) ∈ sweepers.2.world.listenersOfCollection 0 ∧
      (sweptTwice.2.world.listenersOfCollection 0).has 1 = true ∧
      sweptTwice.1.filterMap (Machine.report 0 1) = [(.code (), { added := [0] }), (.code (), { removed := [0] })] ∧
      (sweptTwice.1.filterMap (Machine.report 0 1)).Perm
        ((sweptTwice.1.filterMap (Machine.edit 0)).map (Prod.mk (.code ()))) ∧
      ∃ items, sweptTwice.2.world.listOf 0 = some items ∧ ∀ o, (items.count o : ℤ) - ([] : List ObjectId).count o =
        ((sweptTwice.1.filterMap (Machine.report 0 1)).map fun e => e.2.worth o).sum := by
  have hlist : sweepers.2.world.listOf 0 = some [] := by rfl
  have hlisteners : sweepers.2.world.listenersOfCollection 0 = [(0, .code ()), (1, .code ())] := by rfl
  have hlisted : (1, .code ()) ∈ sweepers.2.world.listenersOfCollection 0 := by simp [hlisteners]
  have hstays : (sweptTwice.2.world.listenersOfCollection 0).has 1 = true := by rfl
  obtain ⟨htold, -, -, hbalance, -⟩ := reports_add_up sweepers_run rfl hlist hlisted sweptTwice_resumes rfl hstays
  exact ⟨hlist, hlisted, hstays, by rfl, htold, hbalance⟩

end LiveRules
