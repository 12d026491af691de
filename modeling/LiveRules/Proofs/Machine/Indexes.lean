/-
# The notifiers of a run

Whatever client code does while it is told of a change, subscribes, takes subscriptions
back and has others told meanwhile, each step leaves both indexes of every notifier in
agreement. Ids only grow, so the order of a list is the order in which its subscriptions
were made.

Key definitions: `World.Registers`, `meddler`.
Key theorems: `Notifier.Amended.indexed`, `World.notifierOf_unsubscribe`, `Run.registers`,
`notifier_indexes_agree`.
-/
import LiveRules.Proofs.Machine.Listening
import LiveRules.Proofs.Machine.Strides

namespace LiveRules

variable {κ σ : Type} {L : Language κ σ}

/-! ### What a step leaves -/

namespace Notifier

variable {α : Type} {first bound : SubscriptionId} {n n' : Notifier α}

/-- Entering and taking back keep the indexes in agreement, if the ids are new. -/
theorem Amended.indexed (h : Amended first n bound n') (hn : n.Indexed)
    (hold : ∀ p, ∀ e ∈ n.listenersOf p, e.1 < first) : n'.Indexed := by
  induction h with
  | refl => exact hn
  | subscribe h p hid _ l ih => exact subscribe_indexed ih (fun q e he => lt_of_lt_of_le (h.older hold q e he) hid) p l
  | unsubscribe _ id ih => exact unsubscribe_indexed ih id

theorem unsubscribe_unsubscribe (n : Notifier α) (id : SubscriptionId) :
    (n.unsubscribe id).unsubscribe id = n.unsubscribe id :=
  unsubscribe_unknown (by rw [owners_unsubscribe, if_pos rfl])

end Notifier

namespace World

/-- A subject that does not exist has nobody to tell. -/
theorem notifierOf_of_not_hasValue {g : World κ} {s : Subject} (h : g.hasValue s.value = false) :
    g.notifierOf s = {} := by
  cases s with
  | object o =>
    have ho : g.objects[o]? = none := by simpa [Subject.value, hasValue, hasObject] using h
    simp [notifierOf, ho]
  | command c =>
    have hc : g.commands[c]? = none := by simpa [Subject.value, hasValue] using h
    simp [notifierOf, hc]

theorem notifierOf_modifyNotifier_unsubscribe (g : World κ) (s t : Subject) (id : SubscriptionId) :
    (g.modifyNotifier s (·.unsubscribe id)).notifierOf t =
      if s = t then (g.notifierOf t).unsubscribe id else g.notifierOf t := by
  rw [notifierOf_modifyNotifier]
  by_cases hst : s = t
  · subst hst
    cases hs : g.hasValue s.value with
    | true => simp
    | false =>
      have hempty : ({} : Notifier (Listener κ)).unsubscribe id = {} := Notifier.unsubscribe_unknown rfl
      simp [notifierOf_of_not_hasValue hs, hempty]
  · simp [hst]

/-- **Taking a subscription back** asks each notifier where it can be, and no other. -/
theorem notifierOf_unsubscribe (g : World κ) (s t : Subject) (id : SubscriptionId) :
    (g.unsubscribe s id).notifierOf t = if t ∈ g.reach s then (g.notifierOf t).unsubscribe id else g.notifierOf t := by
  unfold World.unsubscribe
  generalize g.reach s = ss
  induction ss generalizing g with
  | nil => simp
  | cons s ss ih =>
    rw [List.foldl_cons, ih, notifierOf_modifyNotifier_unsubscribe]
    by_cases hst : s = t
    · by_cases ht : t ∈ ss <;> simp [hst, ht, Notifier.unsubscribe_unsubscribe]
    · simp [hst, Ne.symm hst]

/-- The indexes of the subject's notifier agree, and its subscriptions have ids that were
given out. -/
structure Registers (g : World κ) (s : Subject) : Prop where
  indexed : (g.notifierOf s).Indexed
  older : ∀ p, ∀ e ∈ (g.notifierOf s).listenersOf p, e.1 < g.nextSubscription

theorem Relists.registers {g g' : World κ} {s : Subject} (h : g.Relists g') (hg : g.Registers s) : g'.Registers s :=
  ⟨(h.subject s).indexed hg.indexed hg.older, (h.subject s).older hg.older⟩

end World

/-! ### A run -/

section

variable {past : List (Machine κ σ)} {m : Machine κ σ}

theorem Run.registers (h : Run L past m) (s : Subject) : m.world.Registers s := by
  obtain ⟨s₀, hresumes⟩ := h.resumes
  have hempty : (machine ({} : World κ) [] s₀).world.notifierOf s = {} := by
    cases s <;> simp [machine, World.notifierOf]
  refine hresumes.relists.registers ⟨?_, ?_⟩ <;> rw [hempty]
  · exact Notifier.empty_indexed
  · simp [Notifier.listenersOf, Table.get?]

theorem Language.step_unsubscribe (L : Language κ σ) {s : Subject} {id : SubscriptionId} {rest : List (Task κ)}
    (hagenda : m.agenda = .request (.unsubscribe s id) :: rest) :
    L.step m = machine (if m.world.ownedByCode s id then m.world.unsubscribe s id else m.world) rest m.state := by
  simp only [Language.step, hagenda, Language.carry, World.grant, List.nil_append, machine]

/-- **The two indexes of every notifier agree**, at every machine of every run, whatever
client code does while it is told of a change:

* a subscription is entered for a property exactly if it is on the list of that property,
  and it is on no other list;
* no list is empty, and each is in the order of the ids, under which subscriptions are
  entered one after the other: a step enters what is new behind what is there, under ids
  that were not given out before;
* all subscriptions are those of the properties that somebody listens to;
* taking back an id that is not entered changes nothing, and taking back one that is
  takes out this one entry and leaves all others where they are;
* and this is all that a request to take a subscription back does, to the notifiers where
  the subscription can be and to no others, unless it is a watcher's. -/
theorem notifier_indexes_agree (h : Run L past m) (s : Subject) :
    let n := m.world.notifierOf s
    (∀ id p, n.owners.get? id = some p ↔ ∃ l, (id, l) ∈ n.listenersOf p) ∧
    (∀ id p q l k, (id, l) ∈ n.listenersOf p → (id, k) ∈ n.listenersOf q → p = q ∧ l = k) ∧
    (∀ e ∈ n.subscribers, n.listenersOf e.1 = e.2 ∧ e.2 ≠ []) ∧
    (∀ p, (n.listenersOf p).Pairwise fun a b => a.1 < b.1) ∧
    n.Amended m.world.nextSubscription (L.step m).world.nextSubscription ((L.step m).world.notifierOf s) ∧
    (∃ ps : Finset String, (∀ p, p ∈ ps ↔ n.countOf p ≠ 0) ∧ n.count = ∑ p ∈ ps, n.countOf p) ∧
    (∀ id, n.owners.get? id = none → n.unsubscribe id = n) ∧
    (∀ id p, n.owners.get? id = some p →
      (∃ before l after, n.listenersOf p = before ++ (id, l) :: after ∧
        (n.unsubscribe id).listenersOf p = before ++ after) ∧
      (∀ q, q ≠ p → (n.unsubscribe id).listenersOf q = n.listenersOf q) ∧
      (∀ i, (n.unsubscribe id).owners.get? i = if id = i then none else n.owners.get? i) ∧
      (n.unsubscribe id).count + 1 = n.count) ∧
    ∀ s' id rest, m.agenda = .request (.unsubscribe s' id) :: rest → (L.step m).world.notifierOf s =
      if s ∈ m.world.reach s' ∧ m.world.ownedByCode s' id = true then n.unsubscribe id else n := by
  intro n
  have hn : n.Indexed := (h.registers s).indexed
  refine ⟨hn.owner, fun id p q l k => hn.single, fun e he => ⟨hn.listenersOf_eq he, hn.nonempty e he⟩, hn.ascending,
    (L.step_relists m).subject s, ⟨_, fun p => List.mem_toFinset.trans hn.mem_lists_iff, hn.count_eq_sum⟩,
    fun id => Notifier.unsubscribe_unknown, fun id p hp => ⟨hn.unsubscribe_known hp, fun q hq => ?_,
      fun i => Notifier.owners_unsubscribe id i, hn.count_unsubscribe hp⟩, fun s' id rest hagenda => ?_⟩
  · rw [Notifier.listenersOf_unsubscribe_of_owner, if_neg fun heq => hq (Option.some.inj (hp.symm.trans heq)).symm]
  · rw [L.step_unsubscribe hagenda]
    cases howned : m.world.ownedByCode s' id with
    | false => simp [machine, n]
    | true => simp [machine, World.notifierOf_unsubscribe, n]

end

/-! ### Somebody who meddles -/

/-- Code `true`, when it runs for the first time, takes one subscription back that there is
and one that there is not, makes a new one, and has everybody told once more. -/
def meddler : Language Bool Bool where
  run k signal _ s :=
    match k, signal, s with
    | true, .enter _ _, false => (true, [.unsubscribe (.object 0) 1, .unsubscribe (.object 0) 7,
        .subscribe (.object 0) "value" false none false, .notify 0 "value"])
    | _, _, _ => (s, [])
  value _ _ _ _ := .null
  test _ _ _ _ s := (true, s)

/-- Three listen to an object, the first of which meddles. -/
def meddlers : List (Machine Bool Bool) × Machine Bool Bool :=
  meddler.trail 13 [] (machine {} ([.newObject "host" [] none [], .subscribe (.object 0) "value" true none false,
    .subscribe (.object 0) "value" false none false,
    .subscribe (.object 0) "value" false none false].map .request) false)

theorem meddlers_run : Run meddler meddlers.1 (machine meddlers.2.world [] false) :=
  ((Run.start false).ask _ false).trail 13

/-- They are told, and the first is about to have the others told once more. -/
def meddled : List (Machine Bool Bool) × Machine Bool Bool :=
  meddler.trail 9 meddlers.1 (machine meddlers.2.world ([.notify 0 "value"].map .request) false)

theorem meddled_run : Run meddler meddled.1 meddled.2 :=
  (meddlers_run.ask _ false).trail 9

/-- In the middle of the round three subscriptions are left, the third of which is new. -/
theorem notifier_indexes_agree_meddled :
    (meddled.2.world.notifierOf (.object 0)).listenersOf "value" =
        [(0, .code true none), (2, .code false none), (3, .code false none)] ∧
      (∃ l, (3, l) ∈ (meddled.2.world.notifierOf (.object 0)).listenersOf "value") ∧
      (meddled.2.world.notifierOf (.object 0)).unsubscribe 1 = meddled.2.world.notifierOf (.object 0) ∧
      ∃ ps : Finset String, (∀ p, p ∈ ps ↔ (meddled.2.world.notifierOf (.object 0)).countOf p ≠ 0) ∧
        (meddled.2.world.notifierOf (.object 0)).count =
          ∑ p ∈ ps, (meddled.2.world.notifierOf (.object 0)).countOf p := by
  obtain ⟨howner, -, -, -, -, hcount, hunknown, -⟩ := notifier_indexes_agree meddled_run (.object 0)
  exact ⟨by rfl, (howner 3 "value").mp (by rfl), hunknown 1 (by rfl), hcount⟩

end LiveRules
