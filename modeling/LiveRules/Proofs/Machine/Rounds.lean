/-
# Rounds

A round has everybody told who listened to a property when it started, in the order in which
they subscribed. Whoever is told may subscribe, take subscriptions back and start another
round, which then is over before the next one is told. So a subscription may be gone when
its *turn* comes, and then it is passed over; once it is gone it stays gone, since its id is
never given out again. A subscription that stays is called once for every round, however
deep the round is nested.

Key definitions: `Machine.called`, `Machine.takenBack`, `Language.Turn`, `Machine.Spent`.
Key theorems: `Language.Passes.live_iff`, `Language.Passes.turn`, `Run.spent`,
`Resumes.accounts`, `rounds_call_whoever_stays`.
-/
import LiveRules.Proofs.Machine.Courses
import LiveRules.Proofs.Machine.Indexes
import LiveRules.Proofs.Machine.Notices

namespace LiveRules

variable {κ σ : Type} {L : Language κ σ}

/-- The subscription waits for its turn. -/
def Task.addresses (s : Subject) (id : SubscriptionId) : Task κ → Bool
  | .deliver t i _ => t = s && i = id
  | _ => false

theorem Task.isNotice_of_addresses {s : Subject} {id : SubscriptionId} {u : Task κ} (h : u.addresses s id = true) :
    u.isNotice = true := by
  unfold Task.addresses at h
  split at h
  · rfl
  · cases h

namespace Machine

/-- The next step calls the listener that is subscribed under this id. -/
def called (s : Subject) (id : SubscriptionId) (m : Machine κ σ) : Bool :=
  (m.world.notifierOf s).isLive id && m.agenda.head?.any (Task.addresses s id)

/-- The next step takes the subscription back. -/
def takenBack (L : Language κ σ) (s : Subject) (id : SubscriptionId) (m : Machine κ σ) : Bool :=
  (m.world.notifierOf s).isLive id && !((L.step m).world.notifierOf s).isLive id

end Machine

theorem Machine.agenda_of_called {s : Subject} {id : SubscriptionId} {m : Machine κ σ} (h : m.called s id = true) :
    ∃ l rest, m.agenda = .deliver s id l :: rest := by
  obtain ⟨⟨g, agenda⟩, st⟩ := m
  rw [Machine.called, Bool.and_eq_true] at h
  cases agenda with
  | nil => cases h.2
  | cons u rest =>
    cases u with
    | deliver t i l =>
      have hsame : t = s ∧ i = id := by simpa [Task.addresses] using h.2
      obtain ⟨rfl, rfl⟩ := hsame
      exact ⟨l, rest, rfl⟩
    | _ => cases h.2

/-! ### Subscriptions that stay, and such that are gone -/

section

variable {s : Subject} {id : SubscriptionId} {p : String}

theorem World.Relists.owner {g g' : World κ} (h : g.Relists g') (hid : id < g.nextSubscription)
    (howner : (g'.notifierOf s).owners.get? id = some p) : (g.notifierOf s).owners.get? id = some p :=
  ((h.subject s).keeps hid howner).1

/-- What is there and is not new was there before. -/
theorem World.Relists.listed {g g' : World κ} (h : g.Relists g') (hagrees : (g'.notifierOf s).Agrees)
    {e : SubscriptionId × Listener κ} (he : e ∈ (g'.notifierOf s).listenersOf p) (hid : e.1 < g.nextSubscription) :
    e ∈ (g.notifierOf s).listenersOf p := by
  have hsame := ((h.subject s).keeps hid ((hagrees.owner _ _).mpr ⟨e.2, he⟩)).2
  have hmem : e ∈ ((g'.notifierOf s).listenersOf p).filter (·.1 = e.1) := List.mem_filter.mpr ⟨he, by simp⟩
  exact List.mem_of_mem_filter (hsame ▸ hmem)

/-- What is gone stays gone. -/
theorem World.Relists.gone {g g' : World κ} (h : g.Relists g') (hid : id < g.nextSubscription)
    (hgone : (g.notifierOf s).isLive id = false) : (g'.notifierOf s).isLive id = false := by
  refine Bool.eq_false_iff.mpr fun hlive => Bool.eq_false_iff.mp hgone ?_
  obtain ⟨p, hp⟩ := Option.isSome_iff_exists.mp hlive
  exact Option.isSome_iff_exists.mpr ⟨p, h.owner hid hp⟩

/-- **A subscription is still there** exactly if no step has taken it back. -/
theorem Language.Passes.live_iff {m n : Machine κ σ} {ms : List (Machine κ σ)} (h : L.Passes m ms n)
    (hid : id < m.world.nextSubscription) (hlive : (m.world.notifierOf s).isLive id = true) :
    (n.world.notifierOf s).isLive id = true ↔ ∀ q ∈ ms, q.takenBack L s id = false := by
  induction h with
  | done m => simp [hlive]
  | @step m n ms hpasses ih =>
    have hnext := (L.step_relists m).next
    rw [List.forall_mem_cons]
    cases hstays : ((L.step m).world.notifierOf s).isLive id with
    | true =>
      have htaken : m.takenBack L s id = false := by simp [Machine.takenBack, hstays]
      rw [ih (lt_of_lt_of_le hid hnext) hstays]
      simp [htaken]
    | false =>
      have htaken : m.takenBack L s id = true := by simp [Machine.takenBack, hlive, hstays]
      have hgone := hpasses.resumes.relists.gone (lt_of_lt_of_le hid hnext) hstays
      simp [htaken, hgone]

end

/-! ### Turns -/

namespace Language

/-- From `m` on, the machine `k` is the first at which no more than `left` is left to be
done: it is the turn of what comes first there. The machines before it are `ms`. -/
structure Turn (L : Language κ σ) (m : Machine κ σ) (ms : List (Machine κ σ)) (left : List (Task κ))
    (k : Machine κ σ) : Prop where
  passes : L.Passes m ms k
  busy : ∀ q ∈ ms, q.Busy left
  agenda : k.agenda = left

variable {m n k k' : Machine κ σ} {ms ms' : List (Machine κ σ)} {left : List (Task κ)}

theorem Turn.unique (h : L.Turn m ms left k) (h' : L.Turn m ms' left k') : ms' = ms ∧ k' = k :=
  h.passes.unique h'.passes (fun q hq => (h.busy q hq).ne) (fun q hq => (h'.busy q hq).ne) h.agenda h'.agenda

/-- **A turn comes**, unless what is before it goes on. -/
theorem Passes.turn (h : L.Passes m ms n) {front : List (Task κ)} (hagenda : m.agenda = front ++ left) :
    (∀ q ∈ ms ++ [n], q.Busy left) ∨ ∃ early k late, ms ++ [n] = early ++ k :: late ∧ L.Turn m early left k := by
  induction h generalizing front with
  | done m =>
    cases front with
    | nil => exact .inr ⟨[], m, [], rfl, .done m, by simp, hagenda⟩
    | cons u front => exact .inl (by simpa using ⟨u :: front, by simp, hagenda⟩)
  | @step m n ms _ ih =>
    cases front with
    | nil => exact .inr ⟨[], m, ms ++ [n], rfl, .done m, by simp, hagenda⟩
    | cons u front =>
      have hbusy : m.Busy left := ⟨u :: front, by simp, hagenda⟩
      have hnext : ∃ new, (L.step m).agenda = (new ++ front) ++ left := by
        simp only [Language.step, hagenda, List.cons_append, List.append_assoc]
        exact ⟨_, rfl⟩
      obtain ⟨new, hnew⟩ := hnext
      rcases ih hnew with hall | ⟨early, k, late, hsplit, hturn⟩
      · exact .inl (List.forall_mem_cons.mpr ⟨hbusy, hall⟩)
      · exact .inr ⟨m :: early, k, late, congrArg (m :: ·) hsplit, .step hturn.passes,
          List.forall_mem_cons.mpr ⟨hbusy, hturn.busy⟩, hturn.agenda⟩

/-- What is done at a turn. -/
theorem step_deliver (L : Language κ σ) {s : Subject} {id : SubscriptionId} {l : Listener κ} {behind : List (Task κ)}
    (hagenda : k.agenda = .deliver s id l :: behind) :
    k.called s id = (k.world.notifierOf s).isLive id ∧
      L.step k = machine k.world (k.toScene.deliver s id l ++ behind) k.state := by
  obtain ⟨⟨g, agenda⟩, st⟩ := k
  obtain rfl : agenda = _ := hagenda
  exact ⟨by simp [Machine.called, Task.addresses], rfl⟩

end Language

/-! ### How often somebody is called -/

section

variable {s : Subject} {id : SubscriptionId} {p : String} {past later : List (Machine κ σ)} {m₀ m : Machine κ σ}

/-- Whoever listens or waits for a turn has an id that was given out; and whoever waits, and
whose subscription is still there, is the one that subscribed. -/
structure Machine.Spent (m : Machine κ σ) : Prop where
  registers : ∀ s, m.world.Registers s
  waiting : ∀ {s id l}, .deliver s id l ∈ m.agenda → id < m.world.nextSubscription ∧
    ∀ p, (m.world.notifierOf s).owners.get? id = some p → (id, l) ∈ (m.world.notifierOf s).listenersOf p

theorem Machine.Spent.step (h : m.Spent) : (L.step m).Spent := by
  have hrelists := L.step_relists m
  refine ⟨fun s => hrelists.registers (h.registers s), fun {s id l} hl => ?_⟩
  have hbefore : id < m.world.nextSubscription ∧
      ∀ p, (m.world.notifierOf s).owners.get? id = some p → (id, l) ∈ (m.world.notifierOf s).listenersOf p := by
    rcases L.step_notices hl rfl with hl | ⟨t, p, -, hround⟩
    · exact h.waiting hl
    · obtain ⟨e, he, heq⟩ := List.mem_map.mp hround
      cases heq
      have hindexed := (h.registers s).indexed
      refine ⟨(h.registers s).older p e he, fun q hq => ?_⟩
      obtain ⟨k, hk⟩ := (hindexed.owner _ _).mp hq
      exact (hindexed.single he hk).1 ▸ he
  refine ⟨lt_of_lt_of_le hbefore.1 hrelists.next, fun p hp => ?_⟩
  obtain ⟨howner, hsame⟩ := (hrelists.subject s).keeps hbefore.1 hp
  have hmem : (id, l) ∈ (((L.step m).world.notifierOf s).listenersOf p).filter (·.1 = id) := by
    rw [hsame]
    exact List.mem_filter.mpr ⟨hbefore.2 p howner, by simp⟩
  exact List.mem_of_mem_filter hmem

theorem Machine.Spent.resumes (h₀ : m₀.Spent) (h : Resumes L m₀ later m) : m.Spent := by
  induction h with
  | here => exact h₀
  | ask _ requests s' ih =>
    refine ⟨ih.registers, fun hl => ?_⟩
    obtain ⟨r, -, heq⟩ := List.mem_map.mp hl
    cases heq
  | step _ ih => exact ih.step

/-- **In every run**, with whatever hooks, nobody listens or waits under an id that is still
to be given out. -/
theorem Run.spent (h : Run L past m) : m.Spent := by
  obtain ⟨s₀, hresumes⟩ := h.resumes
  have hstart : (machine ({} : World κ) [] s₀).Spent := ⟨(Run.start (L := L) s₀).registers, fun hl => by cases hl⟩
  exact hstart.resumes hresumes

/-- A round has a subscription wait for its turn once if it is for the property, and not at
all otherwise. -/
theorem World.countP_round {g : World κ} (hagrees : (g.notifierOf s).Agrees) (t : Subject) (q : String) :
    (g.round t q).countP (Task.addresses s id) =
      if t = s ∧ (g.notifierOf s).owners.get? id = some q then 1 else 0 := by
  unfold World.round
  rw [List.countP_map]
  by_cases ht : t = s
  · subst ht
    have hnodup : (((g.notifierOf t).listenersOf q).map (·.1)).Nodup := by
      rw [List.Nodup, List.pairwise_map]
      exact (hagrees.ascending q).imp fun hab => ne_of_lt hab
    have hcount : ((g.notifierOf t).listenersOf q).countP (Task.addresses t id ∘ fun e => .deliver t e.1 e.2) =
        (((g.notifierOf t).listenersOf q).map (·.1)).count id := by
      rw [List.count, List.countP_map]
      exact List.countP_congr fun e _ => by simp [Task.addresses]
    have hlisted : id ∈ ((g.notifierOf t).listenersOf q).map (·.1) ↔ (g.notifierOf t).owners.get? id = some q := by
      rw [hagrees.owner]
      simp
    rw [hcount, hnodup.count]
    simp [hlisted]
  · rw [if_neg fun h => ht h.1]
    exact List.countP_eq_zero.mpr fun e _ => by simp [Task.addresses, ht]

/-- **One step**: of a subscription that is there, the calls and the turns that it waits for
are those that it has waited for and one more if its property is told of. -/
theorem Language.step_accounts (L : Language κ σ) (hagrees : (m.world.notifierOf s).Agrees)
    (howner : (m.world.notifierOf s).owners.get? id = some p) :
    (if m.called s id then 1 else 0) + (L.step m).agenda.countP (Task.addresses s id) =
      m.agenda.countP (Task.addresses s id) + if m.notified L = some (s, p) then 1 else 0 := by
  have hlive : (m.world.notifierOf s).isLive id = true := Option.isSome_iff_exists.mpr ⟨p, howner⟩
  obtain ⟨tasks, hagenda, htasks⟩ := L.step_informs m
  have hnew : tasks.countP (Task.addresses s id) = if m.notified L = some (s, p) then 1 else 0 := by
    cases hnotified : m.notified L with
    | none =>
      rw [hnotified] at htasks
      refine List.countP_eq_zero.mpr fun u hu haddresses => ?_
      cases (htasks u hu).symm.trans (Task.isNotice_of_addresses haddresses)
    | some e =>
      rw [hnotified] at htasks
      rw [show tasks = m.world.round e.1 e.2 from htasks, World.countP_round hagrees, howner]
      simp [Prod.ext_iff, eq_comm]
  have hhead : m.agenda.countP (Task.addresses s id) =
      (if m.called s id then 1 else 0) + m.agenda.tail.countP (Task.addresses s id) := by
    unfold Machine.called
    cases m.agenda with
    | nil => simp
    | cons u rest => simp [hlive, List.countP_cons, add_comm]
  rw [hagenda, List.countP_append, hnew, hhead]
  omega

/-- **At any time** the calls that a subscription has had since `m₀` and the turns that it
waits for are those that it waited for then and one for every round since. -/
theorem Resumes.accounts (h₀ : m₀.Spent) (h : Resumes L m₀ later m) (hid : id < m₀.world.nextSubscription)
    (howner : (m.world.notifierOf s).owners.get? id = some p) :
    later.countP (Machine.called s id) + m.agenda.countP (Task.addresses s id) =
      m₀.agenda.countP (Task.addresses s id) + later.countP fun q => q.notified L = some (s, p) := by
  induction h with
  | here => simp
  | ask _ requests s' ih =>
    have hnone : (requests.map (Task.request (κ := κ))).countP (Task.addresses s id) = 0 := by
      refine List.countP_eq_zero.mpr fun u hu => ?_
      obtain ⟨r, -, rfl⟩ := List.mem_map.mp hu
      simp [Task.addresses]
    simpa [machine, hnone] using ih howner
  | @step later m h ih =>
    have hbefore := (L.step_relists m).owner (lt_of_lt_of_le hid h.relists.next) howner
    have hstep := L.step_accounts ((h₀.resumes h).registers s).indexed.toAgrees hbefore
    have hsofar := ih hbefore
    simp only [List.countP_cons, decide_eq_true_eq]
    omega

/-- **At its turn** a subscription is called exactly if nobody has taken it back since the
round started, and otherwise it is passed over. -/
theorem Run.turn (h : Run L past m₀) {l : Listener κ} (hl : (id, l) ∈ (m₀.world.notifierOf s).listenersOf p)
    {ms : List (Machine κ σ)} {k : Machine κ σ} {behind : List (Task κ)}
    (hturn : L.Turn (L.step m₀) ms (.deliver s id l :: behind) k) :
    (k.called s id = true ↔ ∀ q ∈ m₀ :: ms, q.takenBack L s id = false) ∧
      (∀ f, l = .code f none → k.called s id = true →
        L.step k = machine k.world (.request (.call f (.enter none 0)) :: behind) k.state) ∧
      (k.called s id = false → L.step k = machine k.world behind k.state) := by
  obtain ⟨hcalled, hstep⟩ := L.step_deliver hturn.agenda
  have hlive : (m₀.world.notifierOf s).isLive id = true :=
    (Notifier.isLive_iff (h.registers s).indexed.toAgrees).mpr ⟨p, l, hl⟩
  refine ⟨?_, fun f hf hcall => ?_, fun hpassed => ?_⟩
  · rw [hcalled]
    exact (Language.Passes.step hturn.passes).live_iff ((h.registers s).older p _ hl) hlive
  · rw [hstep, hf]
    simp [Scene.deliver, hcalled.symm.trans hcall]
  · rw [hstep]
    simp [Scene.deliver, hcalled.symm.trans hpassed]

/-- **Rounds call whoever stays.** In any run, whatever those who are called do:

* when a property is told of, everybody who listens to it is put on the agenda, in the order
  in which they subscribed, in front of what was to be done next. Each has one turn, which
  comes unless what is before it goes on for ever, and when only those that subscribed later
  are left behind it. At its turn a subscription is called exactly if it has not been taken
  back since the round started, and otherwise it is passed over and nothing happens;
* nobody is called but in a round;
* whoever subscribes during the round has a larger id than all who are told by it;
* once a subscription is taken back it is gone, and what is gone is never called again, in
  whatever round;
* as long as a subscription stays, it is its own listener that is called, and the calls and
  the turns that it waits for make up one for each round for its property. -/
theorem rounds_call_whoever_stays (h : Run L past m₀) (s : Subject) :
    let n₀ := m₀.world.notifierOf s
    (∀ p, m₀.notified L = some (s, p) →
      (L.step m₀).agenda = ((n₀.listenersOf p).map fun e => .deliver s e.1 e.2) ++ m₀.agenda.tail ∧
      (n₀.listenersOf p).Pairwise (fun a b => a.1 < b.1) ∧
      ∀ before id l after, n₀.listenersOf p = before ++ (id, l) :: after →
        let behind := (after.map fun e => .deliver s e.1 e.2) ++ m₀.agenda.tail
        let left := .deliver s id l :: behind
        (∀ ms n, L.Passes (L.step m₀) ms n → (∀ q ∈ ms ++ [n], q.Busy left) ∨
          ∃ early k late, ms ++ [n] = early ++ k :: late ∧ L.Turn (L.step m₀) early left k) ∧
        ∀ ms k, L.Turn (L.step m₀) ms left k →
          (∀ ms' k', L.Turn (L.step m₀) ms' left k' → ms' = ms ∧ k' = k) ∧
          (k.called s id = true ↔ ∀ q ∈ m₀ :: ms, q.takenBack L s id = false) ∧
          (∀ f, l = .code f none → k.called s id = true →
            L.step k = machine k.world (.request (.call f (.enter none 0)) :: behind) k.state) ∧
          (k.called s id = false → L.step k = machine k.world behind k.state)) ∧
    (m₀.notified L = none → ∃ tasks, (L.step m₀).agenda = tasks ++ m₀.agenda.tail ∧ ∀ u ∈ tasks, u.isNotice = false) ∧
    (∀ p, ∀ e ∈ n₀.listenersOf p, e.1 < m₀.world.nextSubscription) ∧
    (∀ s' id rest, m₀.agenda = .request (.unsubscribe s' id) :: rest → m₀.world.ownedByCode s' id = true →
      s ∈ m₀.world.reach s' → ((L.step m₀).world.notifierOf s).isLive id = false) ∧
    ∀ later m, Resumes L m₀ later m →
      (∀ p, ∀ e ∈ (m.world.notifierOf s).listenersOf p, e.1 < m₀.world.nextSubscription → e ∈ n₀.listenersOf p) ∧
      (∀ id, id < m₀.world.nextSubscription → n₀.isLive id = false →
        (m.world.notifierOf s).isLive id = false ∧ m.called s id = false) ∧
      ∀ p id l, (id, l) ∈ n₀.listenersOf p → (m.world.notifierOf s).isLive id = true →
        (∀ n ∈ later, n.called s id = true → ∃ rest, n.agenda = .deliver s id l :: rest) ∧
        later.countP (Machine.called s id) + m.agenda.countP (Task.addresses s id) =
          m₀.agenda.countP (Task.addresses s id) + later.countP fun q => q.notified L = some (s, p) := by
  intro n₀
  have hn₀ : n₀.Indexed := (h.registers s).indexed
  refine ⟨fun p hnotified => ⟨L.step_notified hnotified, hn₀.ascending p, ?_⟩, fun hnotified => ?_,
    (h.registers s).older, fun s' id rest hagenda howned hreach => ?_, fun later m h' => ⟨?_, ?_, ?_⟩⟩
  · intro before id l after hsplit behind left
    have hl : (id, l) ∈ n₀.listenersOf p := hsplit ▸ by simp
    have hagenda : (L.step m₀).agenda = before.map (fun e => .deliver s e.1 e.2) ++ left := by
      rw [L.step_notified hnotified, World.round, show (m₀.world.notifierOf s).listenersOf p = _ from hsplit]
      simp [left, behind]
    exact ⟨fun ms n hpasses => hpasses.turn hagenda, fun ms k hturn => ⟨fun ms' k' => hturn.unique, h.turn hl hturn⟩⟩
  · have hinforms := L.step_informs m₀
    rwa [hnotified] at hinforms
  · rw [L.step_unsubscribe hagenda, if_pos howned]
    have hnotifier : (machine (m₀.world.unsubscribe s' id) rest m₀.state).world.notifierOf s = n₀.unsubscribe id :=
      (World.notifierOf_unsubscribe ..).trans (if_pos hreach)
    rw [hnotifier, Notifier.isLive, Table.has, Notifier.owners_unsubscribe, if_pos rfl, Option.isSome_none]
  · exact fun p e he hid => h'.relists.listed ((h.resume h').registers s).indexed.toAgrees he hid
  · intro id hid hgone
    have hstill := h'.relists.gone (s := s) hid hgone
    exact ⟨hstill, by simp [Machine.called, hstill]⟩
  · intro p id l hl hlive
    obtain ⟨q, hq⟩ := Option.isSome_iff_exists.mp hlive
    have hid := (h.registers s).older p _ hl
    obtain rfl : q = p := Option.some.inj ((h'.relists.owner hid hq).symm.trans ((hn₀.owner id p).mpr ⟨l, hl⟩))
    refine ⟨fun n hn hcalled => ?_, Resumes.accounts h.spent h' hid hq⟩
    obtain ⟨k, rest, hagenda⟩ := Machine.agenda_of_called hcalled
    obtain ⟨before, after, hbefore, hafter⟩ := h'.between hn
    have hrun := h.resume hbefore
    have hidn := lt_of_lt_of_le hid hbefore.relists.next
    -- who is called is listed, and was listed when `l` was
    have hk := (hrun.spent.waiting (hagenda ▸ List.mem_cons_self)).2 q (hafter.relists.owner hidn hq)
    have hk₀ := hbefore.relists.listed (hrun.registers s).indexed.toAgrees hk hid
    obtain rfl := (hn₀.single hk₀ hl).2
    exact ⟨rest, hagenda⟩

end

/-! ### A round that is meddled with -/

/-- Everybody is to be told, and the first of them meddles. -/
def meddling : Machine Bool Bool :=
  machine meddlers.2.world ([.notify 0 "value"].map .request) false

theorem meddling_run : Run meddler meddlers.1 meddling :=
  meddlers_run.ask _ false

/-- What comes of it. -/
def meddledThrough : List (Machine Bool Bool) × Machine Bool Bool :=
  meddler.trail 19 [] meddling

/-- The round for three listeners is over when the first of them has had the rest told in a
round of its own. The second one, which it has taken back before, is called in neither, the
last one in both, and one that it has made in the new round only. The turn of the last one
comes in the old round, too. -/
theorem rounds_call_whoever_stays_meddled :
    meddling.notified meddler = some (.object 0, "value") ∧
      (meddling.world.notifierOf (.object 0)).listenersOf "value" =
        [(0, .code true none), (1, .code false none), (2, .code false none)] ∧
      meddledThrough.2.agenda = [] ∧
      [0, 1, 2, 3].map (fun id => meddledThrough.1.countP (Machine.called (.object 0) id)) = [2, 0, 2, 1] ∧
      (∃ early k late, meddledThrough.1.reverse.tail ++ [meddledThrough.2] = early ++ k :: late ∧
        meddler.Turn (meddler.step meddling) early [.deliver (.object 0) 2 (.code false none)] k) ∧
      meddledThrough.1.countP (Machine.called (.object 0) 2) +
          meddledThrough.2.agenda.countP (Task.addresses (.object 0) 2) =
        meddling.agenda.countP (Task.addresses (.object 0) 2) +
          meddledThrough.1.countP fun q => q.notified meddler = some (.object 0, "value") := by
  have hnotified : meddling.notified meddler = some (.object 0, "value") := by rfl
  have hlisteners : (meddling.world.notifierOf (.object 0)).listenersOf "value" =
      [(0, .code true none), (1, .code false none), (2, .code false none)] := by rfl
  have hrest : meddledThrough.2.agenda = [] := by rfl
  have hpasses : meddler.Passes (meddler.step meddling) meddledThrough.1.reverse.tail meddledThrough.2 :=
    meddler.passes_trail 18 (meddler.step meddling)
  have hlater : Resumes meddler meddling meddledThrough.1 meddledThrough.2 := Resumes.here.trail 19
  obtain ⟨hround, -, -, -, hafter⟩ := rounds_call_whoever_stays meddling_run (.object 0)
  obtain ⟨-, -, hturns⟩ := hround "value" hnotified
  obtain ⟨hcomes, -⟩ := hturns [(0, .code true none), (1, .code false none)] 2 (.code false none) [] hlisteners
  obtain ⟨-, -, hstays⟩ := hafter _ _ hlater
  obtain ⟨-, hcount⟩ := hstays "value" 2 (.code false none) (by rw [hlisteners]; simp) (by rfl)
  refine ⟨hnotified, hlisteners, hrest, by rfl, ?_, hcount⟩
  rcases hcomes _ _ hpasses with hbusy | hturn
  · have hlast := hbusy meddledThrough.2 (by simp)
    obtain ⟨front, hne, hagenda⟩ := hlast
    rw [hrest] at hagenda
    simp at hagenda
  · exact hturn

end LiveRules
