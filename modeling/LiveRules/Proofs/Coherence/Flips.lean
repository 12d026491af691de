/-
# Flips are told

A command that can be evaluated by itself tells its listeners when an evaluation differs
from what it had cached, and a command that cannot tells them at every evaluation. A
listener may change the condition again: then the new flip is told to everybody first, and
the rest of the old round comes after it. So at any time the calls that a listener has had
and those that wait for it on the agenda make up what the command has had to tell since the
listener was entered, and at rest nothing waits.

A command that is bound to nothing has no condition, and tells of evaluations in which
nothing flips.

Key definitions: `Machine.calls`, `Machine.flips`, `Machine.settled`.
Key theorems: `Machine.notifies_iff`, `Resumes.told`, `Resumes.flipped`, `flips_are_told`,
`unbound_tells_unflipped`.
-/
import LiveRules.Proofs.Coherence.Commands
import LiveRules.Proofs.Machine.Rounds

namespace LiveRules

variable {κ σ : Type} {L : Language κ σ}

/-! ### What a step does to a command -/

/-- What the command has cached. -/
def World.enabled (g : World κ) (c : CommandId) : Bool :=
  (g.commands[c]?.map (·.enabled)).getD false

namespace Machine

/-- The command that the next step evaluates anew. -/
def refreshed (m : Machine κ σ) : Option CommandId :=
  match m.agenda with
  | .perform (.refresh takesArgument target) context :: _ => m.world.commandIn context target takesArgument
  | _ => none

/-- The next step calls a listener of the command. -/
def calls (x : CommandId) (id : SubscriptionId) (m : Machine κ σ) : Bool :=
  match m.agenda with
  | .deliver (.command c) i _ :: _ => c = x && i = id && (m.world.notifierOf (.command c)).isLive i
  | _ => false

/-- The command that the next step evaluates silently. -/
def settled (m : Machine κ σ) : Option CommandId :=
  match m.agenda with
  | .perform (.settle takesArgument target) context :: _ => m.world.commandIn context target takesArgument
  | _ => none

/-- The next step evaluates the command anew, and not to what it has cached. -/
def flips (L : Language κ σ) (x : CommandId) (m : Machine κ σ) : Bool :=
  m.refreshed = some x && m.world.commands[x]?.any fun y =>
    y.selfEvaluating && (L.canRun m.toScene m.state x 0).1 ≠ y.enabled

/-- The next step makes the command tell its listeners. -/
def notifies (L : Language κ σ) (x : CommandId) (m : Machine κ σ) : Bool :=
  m.refreshed = some x && m.world.commands[x]?.any fun y =>
    !y.selfEvaluating || (L.canRun m.toScene m.state x 0).1 ≠ y.enabled

end Machine

theorem Machine.agenda_of_refreshed {m : Machine κ σ} {c : CommandId} (h : m.refreshed = some c) :
    ∃ takesArgument target context rest, m.agenda = .perform (.refresh takesArgument target) context :: rest ∧
      m.world.commandIn context target takesArgument = some c := by
  unfold Machine.refreshed at h
  split at h
  · rename_i takesArgument target context rest hagenda
    exact ⟨takesArgument, target, context, rest, hagenda, h⟩
  · cases h

/-- What evaluating a command anew comes to, in one step. -/
theorem Language.step_refreshed (L : Language κ σ) {m : Machine κ σ} {c : CommandId} (h : m.refreshed = some c) :
    (L.step m).world = (L.refresh m.toScene m.state c).world := by
  obtain ⟨⟨g, agenda⟩, s⟩ := m
  obtain ⟨takesArgument, target, context, rest, rfl, hcommand⟩ := Machine.agenda_of_refreshed h
  have hcommand : g.commandIn context target takesArgument = some c := hcommand
  simp only [Language.step, Language.carry, Language.perform, hcommand]

section

variable {x : CommandId} {id : SubscriptionId}

theorem Machine.calls_eq_called (m : Machine κ σ) : m.calls x id = m.called (.command x) id := by
  obtain ⟨⟨g, agenda⟩, s⟩ := m
  unfold Machine.calls Machine.called
  cases agenda with
  | nil => simp
  | cons u rest =>
    cases u with
    | deliver t i l =>
      cases t with
      | object o => simp [Task.addresses]
      | command c =>
        by_cases hc : c = x <;> by_cases hi : i = id <;> simp [Task.addresses, hc, hi]
    | _ => simp [Task.addresses]

/-- A command tells its listeners of its enabled state, and of nothing else. -/
theorem Machine.notifies_iff {m : Machine κ σ} :
    m.notifies L x = true ↔ m.notified L = some (.command x, canExecute) := by
  obtain ⟨⟨g, agenda⟩, s⟩ := m
  have hobject : ∀ o p v, g.notifiedOf o p v ≠ some (.command x, canExecute) := by
    intro o p v
    unfold World.notifiedOf
    split <;> simp
  unfold Machine.notifies Machine.notified Machine.refreshed
  cases agenda with
  | nil => simp
  | cons u rest =>
    cases u with
    | perform a context =>
      cases a with
      | refresh takesArgument target =>
        cases hin : g.commandIn context target takesArgument with
        | none => simp [Language.notified, hin]
        | some c =>
          by_cases hc : c = x
          · simp [Language.notified, Language.notifiedBy, hin, hc]
          · simp [Language.notified, Language.notifiedBy, hin, hc]
      | assign source target =>
        simp only [List.head?_cons, Option.bind_some, Language.notified]
        split <;> simp [hobject]
      | create binding target => simp [Language.notified, hobject]
      | _ => simp [Language.notified]
    | request r =>
      cases r with
      | write o p v =>
        simp only [List.head?_cons, Option.bind_some, Language.notified, World.notified]
        split <;> simp
      | _ => simp [Language.notified, World.notified]
    | _ => simp [Language.notified]

/-- The listener `l` has been entered for the enabled state of the command, under this id
and once, and does not wait for anything. -/
structure Machine.Entered (m : Machine κ σ) (x : CommandId) (id : SubscriptionId) (l : Listener κ) : Prop where
  spent : m.Spent
  next : id < m.world.nextSubscription
  owner : (m.world.notifierOf (.command x)).owners.get? id = some canExecute
  once : ((m.world.notifierOf (.command x)).listenersOf canExecute).filter (·.1 = id) = [(id, l)]
  idle : m.agenda.countP (Task.addresses (.command x) id) = 0

variable {l : Listener κ} {m₀ m : Machine κ σ} {later : List (Machine κ σ)}

/-- **At any time** the calls that the listener has had and those that wait for it are what
the command has told since the listener was entered. -/
theorem Resumes.told (h : Resumes L m₀ later m) (h₀ : m₀.Entered x id l)
    (hlive : (m.world.notifierOf (.command x)).isLive id = true) :
    later.countP (Machine.calls x id) + m.agenda.countP (Task.addresses (.command x) id) =
      later.countP (Machine.notifies L x) := by
  obtain ⟨p, hp⟩ := Option.isSome_iff_exists.mp hlive
  obtain rfl : canExecute = p := Option.some.inj (h₀.owner.symm.trans (h.relists.owner h₀.next hp))
  have haccounts := h.accounts h₀.spent h₀.next hp
  have hcalls : later.countP (Machine.calls x id) = later.countP (Machine.called (.command x) id) :=
    List.countP_congr fun n _ => by rw [Machine.calls_eq_called]
  have hnotifies : later.countP (Machine.notifies L x) =
      later.countP fun n => n.notified L = some (.command x, canExecute) :=
    List.countP_congr fun n _ => by rw [Machine.notifies_iff, decide_eq_true_eq]
  rw [hcalls, hnotifies, haccounts, h₀.idle, Nat.zero_add]

/-- Whoever is told under the listener's id is the listener. -/
theorem Resumes.addressed (h : Resumes L m₀ later m) (h₀ : m₀.Entered x id l)
    (hlive : (m.world.notifierOf (.command x)).isLive id = true) :
    ∀ k, .deliver (.command x) id k ∈ m.agenda → k = l := by
  intro k hk
  obtain ⟨p, hp⟩ := Option.isSome_iff_exists.mp hlive
  obtain ⟨howner, hsame⟩ := (h.relists.notifier x).keeps h₀.next hp
  obtain rfl : canExecute = p := Option.some.inj (h₀.owner.symm.trans howner)
  have hlisted : (id, k) ∈ ((m.world.notifierOf (.command x)).listenersOf canExecute).filter (·.1 = id) :=
    List.mem_filter.mpr ⟨((h₀.spent.resumes h).waiting hk).2 _ hp, by simp⟩
  rw [hsame, h₀.once] at hlisted
  exact congrArg Prod.snd (List.mem_singleton.mp hlisted)

/-- A listener that is registered has been entered. -/
theorem Machine.Spent.entered {n : Machine κ σ} (h : n.Spent) (hx : n.world.hasValue (.command x) = true) {receiver : κ}
    {rest : List (Task κ)} (hregister : n.agenda = .register (.command x) canExecute l (.code receiver) :: rest) :
    (L.step n).Entered x n.world.nextSubscription l := by
  have hstep : L.step n = machine (n.world.enterListener (.command x) canExecute l)
      (.request (.call receiver (.subscribed n.world.nextSubscription)) :: rest) n.state := by
    unfold Language.step
    rw [hregister]
    rfl
  have hnotifier : (L.step n).world.notifierOf (.command x) =
      (n.world.notifierOf (.command x)).subscribe canExecute n.world.nextSubscription l := by
    have hentered : (n.world.enterListener (.command x) canExecute l).notifierOf (.command x) = _ :=
      n.world.notifierOf_modifyNotifier (.command x) (.command x) (·.subscribe canExecute n.world.nextSubscription l)
    rw [if_pos ⟨rfl, hx⟩] at hentered
    rw [hstep]
    exact hentered
  constructor
  case spent => exact h.step
  case next =>
    rw [hstep]
    exact Nat.lt_succ_self _
  case owner =>
    rw [hnotifier]
    exact (Table.get?_set ..).trans (if_pos rfl)
  case once =>
    have hnew : ((n.world.notifierOf (.command x)).listenersOf canExecute).filter
        (·.1 = n.world.nextSubscription) = [] := by
      refine List.filter_eq_nil_iff.mpr fun e he => ?_
      simpa using ((h.registers _).older canExecute e he).ne
    rw [hnotifier, Notifier.listenersOf_subscribe, if_pos rfl, List.filter_append, hnew]
    simp
  case idle =>
    rw [hstep]
    refine List.countP_eq_zero.mpr fun u hu haddresses => ?_
    cases u with
    | deliver t i k =>
      obtain ⟨rfl, rfl⟩ : t = .command x ∧ i = n.world.nextSubscription := by
        simpa [Task.addresses] using haddresses
      rcases List.mem_cons.mp hu with heq | hu
      · cases heq
      · exact (h.waiting (hregister ▸ List.mem_cons_of_mem _ hu)).1.ne rfl
    | _ => cases haddresses

/-! ### What is cached -/

theorem lasts_enable_other (g : World κ) {c : CommandId} (hc : c ≠ x) (enabled : Bool) :
    g.Lasts (fun c _ => c ≠ x) (g.modifyCommand c fun y => { y with enabled }) :=
  have hother : ∀ y : Command κ, Command.Lasts (fun c _ => c ≠ x) c y { y with enabled } :=
    fun _ => ⟨rfl, rfl, Or.inr hc⟩
  { (World.Lasts.refl g : g.Lasts (fun c _ => c ≠ x) g) with
    commands := .modify (Command.Lasts.refl _) hother _ }

theorem Language.lasts_settle_other (L : Language κ σ) (scene : Scene κ) (s : σ) {c : CommandId} (hc : c ≠ x) :
    scene.world.Lasts (fun c _ => c ≠ x) (L.settle scene s c).1 := by
  unfold Language.settle
  simp only
  split
  · split
    · exact lasts_enable_other _ hc _
    · exact .refl _
  · exact .refl _

theorem Language.lasts_refresh_other (L : Language κ σ) (scene : Scene κ) (s : σ) {c : CommandId} (hc : c ≠ x) :
    scene.world.Lasts (fun c _ => c ≠ x) (L.refresh scene s c).world := by
  unfold Language.refresh
  simp only
  split
  · split
    · exact lasts_enable_other _ hc _
    · exact .refl _
  · exact .refl _

/-- A step that does not evaluate the command leaves what it has cached. -/
theorem Language.lasts_carry_other (L : Language κ σ) {g : World κ} {s : σ} {t : Task κ} {rest : List (Task κ)}
    (hx : g.hasValue (.command x) = true) (hrefreshed : Machine.refreshed (machine g (t :: rest) s) ≠ some x)
    (hsettled : Machine.settled (machine g (t :: rest) s) ≠ some x) :
    g.Lasts (fun c _ => c ≠ x) (L.carry g s t rest).world := by
  cases t with
  | request r =>
    cases r with
    | call k signal => exact .refl g
    | _ => exact g.lasts_grant rest _
  | perform a context =>
    cases a with
    | refresh takesArgument target =>
      have hother : g.commandIn context target takesArgument ≠ some x := hrefreshed
      simp only [Language.carry, Language.perform]
      split
      · rename_i c hc
        exact L.lasts_refresh_other { world := g, agenda := .perform (.refresh takesArgument target) context :: rest } s
          fun hcx => hother (hc.trans (congrArg some hcx))
      · exact .refl g
    | settle takesArgument target =>
      have hother : g.commandIn context target takesArgument ≠ some x := hsettled
      simp only [Language.carry, Language.perform]
      split
      · rename_i c hc
        exact L.lasts_settle_other { world := g, agenda := .perform (.settle takesArgument target) context :: rest } s
          fun hcx => hother (hc.trans (congrArg some hcx))
      · exact .refl g
    | create binding target =>
      have hnew : g.commands.size ≠ x := by
        simp only [World.hasValue, decide_eq_true_eq] at hx
        exact hx.ne'
      set y : Command κ := { takesArgument := binding.takesArgument, bound := some (binding, context) } with hy
      have hsettle := L.lasts_settle_other (x := x)
        { world := { g with commands := g.commands.push y },
          agenda := .perform (.create binding target) context :: rest } s hnew
      exact ((g.lasts_pushCommand y).trans hsettle).trans (World.lasts_set _ _ _ _)
    | assign source target =>
      simp only [Language.carry, Language.perform]
      split
      · exact World.lasts_set _ _ _ _
      · exact .refl g
    | code k => exact .refl g
    | onBase inner => exact .refl g
  | subscribe subject p l r => exact g.lasts_subscribe subject p l r
  | _ => exact (L.carry_watches g s rfl rest).lasts

theorem World.enabled_of_lasts {g g' : World κ} (h : g.Lasts (fun c _ => c ≠ x) g')
    (hx : g.hasValue (.command x) = true) : g'.enabled x = g.enabled x := by
  simp only [World.hasValue, decide_eq_true_eq] at hx
  obtain ⟨y, hy, hlasts⟩ := h.commands x _ (Array.getElem?_eq_getElem hx)
  unfold World.enabled
  rw [hy, Array.getElem?_eq_getElem hx]
  exact hlasts.enabled.resolve_right fun hne => hne rfl

/-- **One step**, if it is not a silent evaluation, changes what is cached exactly if it flips. -/
theorem Language.step_enabled (L : Language κ σ) {m : Machine κ σ} (hx : m.world.hasValue (.command x) = true)
    (hsettled : m.settled ≠ some x) : (L.step m).world.enabled x = (m.world.enabled x ^^ m.flips L x) := by
  by_cases hrefreshed : m.refreshed = some x
  · rw [L.step_refreshed hrefreshed]
    simp only [World.hasValue, decide_eq_true_eq] at hx
    have hy := Array.getElem?_eq_getElem hx
    set y := m.world.commands[x]
    unfold Language.refresh Machine.flips World.enabled
    simp only [hrefreshed, hy]
    cases hself : y.selfEvaluating with
    | false => simp [hself, hy]
    | true =>
      cases hcan : (L.canRun m.toScene m.state x 0).1 <;> cases hcached : y.enabled <;>
        simp [hself, hcached, World.modifyCommand, Array.getElem?_modify, hy]
  · have hflips : m.flips L x = false := by simp [Machine.flips, hrefreshed]
    rw [hflips, Bool.xor_false]
    obtain ⟨⟨g, agenda⟩, s⟩ := m
    cases agenda with
    | nil => rfl
    | cons t rest => exact World.enabled_of_lasts (L.lasts_carry_other hx hrefreshed hsettled) hx

/-- **What is cached at two rests** differs exactly if there was an odd number of flips. -/
theorem Resumes.flipped (h : Resumes L m₀ later m) (hx : m₀.world.hasValue (.command x) = true)
    (hsettled : ∀ n ∈ later, n.settled ≠ some x) :
    m.world.enabled x ≠ m₀.world.enabled x ↔ Odd (later.countP (Machine.flips L x)) := by
  induction h with
  | here => simp
  | ask _ requests s' ih => exact ih hsettled
  | @step later m h ih =>
    have hexists : m.world.hasValue (.command x) = true := by
      simp only [World.hasValue, decide_eq_true_eq] at hx ⊢
      obtain ⟨y, hy, -⟩ := h.outlives.1.commands x _ (Array.getElem?_eq_getElem hx)
      exact (Array.getElem?_eq_some_iff.mp hy).1
    have hsofar := ih fun n hn => hsettled n (List.mem_cons_of_mem _ hn)
    rw [L.step_enabled hexists (hsettled m List.mem_cons_self), List.countP_cons]
    cases hflips : m.flips L x with
    | false => simpa using hsofar
    | true =>
      simp only [Bool.xor_true, if_true, Nat.odd_add_one, ← hsofar]
      cases m.world.enabled x <;> cases m₀.world.enabled x <;> simp

end

/-! ### Runs -/

theorem Resumes.trans {m₀ m₁ m₂ : Machine κ σ} {first second : List (Machine κ σ)} (h₁ : Resumes L m₀ first m₁)
    (h₂ : Resumes L m₁ second m₂) : Resumes L m₀ (second ++ first) m₂ := by
  induction h₂ with
  | here => exact h₁
  | ask _ requests s' ih => exact ih.ask requests s'
  | step _ ih => exact ih.step

section

variable {x : CommandId} {y : Command κ} {m₀ m : Machine κ σ} {later : List (Machine κ σ)}

/-- What a command does, and for whom, is settled when it is made. -/
theorem Resumes.selfEvaluating (h : Resumes L m₀ later m) (hy : m₀.world.commands[x]? = some y) :
    ∀ n ∈ later, ∃ z, n.world.commands[x]? = some z ∧ z.selfEvaluating = y.selfEvaluating := by
  intro n hn
  obtain ⟨z, hz, hlasts⟩ := (h.outlives.2 n hn).1.commands x y hy
  refine ⟨z, hz, ?_⟩
  unfold Command.selfEvaluating
  rw [hlasts.takesArgument, hlasts.bound]

/-- A command that can be evaluated by itself tells of flips. -/
theorem Resumes.notifies_flips (h : Resumes L m₀ later m) (hy : m₀.world.commands[x]? = some y)
    (hself : y.selfEvaluating = true) : later.countP (Machine.notifies L x) = later.countP (Machine.flips L x) := by
  refine List.countP_congr fun n hn => ?_
  obtain ⟨z, hz, hsame⟩ := h.selfEvaluating hy n hn
  simp [Machine.notifies, Machine.flips, hz, hsame, hself]

/-- Any other command tells of every evaluation. -/
theorem Resumes.notifies_refreshes (h : Resumes L m₀ later m) (hy : m₀.world.commands[x]? = some y)
    (hself : y.selfEvaluating = false) :
    later.countP (Machine.notifies L x) = later.countP fun n => n.refreshed = some x := by
  refine List.countP_congr fun n hn => ?_
  obtain ⟨z, hz, hsame⟩ := h.selfEvaluating hy n hn
  simp [Machine.notifies, hz, hsame, hself]

end

/-- **Flips are told.** In any run, with whatever hooks, a listener is registered for the
enabled state of a command, and is not taken back. At every later rest it has been called as
often as the command was evaluated anew to something else than it had cached, if the command
is bound and takes no argument, and as often as the command was evaluated anew, if not; and
so it is between two rests. What a command of the first kind has cached at two rests, if
no silent evaluation comes in between, differs exactly if the number of calls is odd. A
call runs the listener's code next. -/
theorem flips_are_told {past first second : List (Machine κ σ)} {n m₁ m₂ : Machine κ σ} {x : CommandId} {y : Command κ}
    {k receiver : κ} {rest : List (Task κ)} (h : Run L past n) (hy : n.world.commands[x]? = some y)
    (hregister : n.agenda = .register (.command x) canExecute (.code k none) (.code receiver) :: rest)
    (h₁ : Resumes L (L.step n) first m₁) (hrest₁ : m₁.agenda = []) (h₂ : Resumes L m₁ second m₂)
    (hrest₂ : m₂.agenda = [])
    (hstays : (m₂.world.notifierOf (.command x)).isLive n.world.nextSubscription = true) :
    let id := n.world.nextSubscription
    (y.selfEvaluating = true →
      first.countP (Machine.calls x id) = first.countP (Machine.flips L x) ∧
      second.countP (Machine.calls x id) = second.countP (Machine.flips L x) ∧
      ((∀ u ∈ second, u.settled ≠ some x) →
        (m₂.world.enabled x ≠ m₁.world.enabled x ↔ Odd (second.countP (Machine.calls x id))))) ∧
    (y.selfEvaluating = false →
      first.countP (Machine.calls x id) = first.countP (fun u => u.refreshed = some x) ∧
      second.countP (Machine.calls x id) = second.countP fun u => u.refreshed = some x) ∧
    ∀ u ∈ second ++ first, u.calls x id = true →
      ∃ rest, (L.step u).agenda = .request (.call k (.enter none 0)) :: rest := by
  intro id
  have hx : n.world.hasValue (.command x) = true := by
    simpa [World.hasValue] using (Array.getElem?_eq_some_iff.mp hy).1
  have hentered : (L.step n).Entered x id (.code k none) := h.spent.entered hx hregister
  have hboth := h₁.trans h₂
  -- the listener was there at the first rest too
  have hlive₁ : (m₁.world.notifierOf (.command x)).isLive id = true := by
    obtain ⟨p, hp⟩ := Option.isSome_iff_exists.mp hstays
    have hkept := (h₂.relists.notifier x).keeps (lt_of_lt_of_le hentered.next h₁.relists.next) hp
    exact Option.isSome_iff_exists.mpr ⟨p, hkept.1⟩
  have htold₁ := h₁.told hentered hlive₁
  have htold := hboth.told hentered hstays
  simp only [hrest₁, hrest₂, List.countP_nil, Nat.add_zero, List.countP_append] at htold₁ htold
  have htold₂ : second.countP (Machine.calls x id) = second.countP (Machine.notifies L x) := by omega
  obtain ⟨y₀, hy₀, hlasts₀⟩ := (L.step_lasts n).commands x y hy
  have hself₀ : y₀.selfEvaluating = y.selfEvaluating := by
    unfold Command.selfEvaluating
    rw [hlasts₀.takesArgument, hlasts₀.bound]
  obtain ⟨y₁, hy₁, hlasts₁⟩ := h₁.outlives.1.commands x y₀ hy₀
  have hself₁ : y₁.selfEvaluating = y.selfEvaluating := by
    rw [← hself₀]
    unfold Command.selfEvaluating
    rw [hlasts₁.takesArgument, hlasts₁.bound]
  refine ⟨fun hself => ?_, fun hself => ?_, fun u hu hcalls => ?_⟩
  · have hflips₁ := h₁.notifies_flips hy₀ (hself₀.trans hself)
    have hflips₂ := h₂.notifies_flips hy₁ (hself₁.trans hself)
    refine ⟨htold₁.trans hflips₁, htold₂.trans hflips₂, fun hsettled => ?_⟩
    rw [htold₂, hflips₂]
    refine h₂.flipped ?_ hsettled
    simpa [World.hasValue] using (Array.getElem?_eq_some_iff.mp hy₁).1
  · exact ⟨htold₁.trans (h₁.notifies_refreshes hy₀ (hself₀.trans hself)),
      htold₂.trans (h₂.notifies_refreshes hy₁ (hself₁.trans hself))⟩
  · obtain ⟨before, -, hbefore, -⟩ := hboth.between hu
    obtain ⟨⟨g, agenda⟩, s⟩ := u
    unfold Machine.calls at hcalls
    simp only at hcalls
    split at hcalls
    · rename_i c i l rest'
      simp only [Bool.and_eq_true, decide_eq_true_eq] at hcalls
      obtain ⟨⟨rfl, rfl⟩, hlive⟩ := hcalls
      obtain rfl := hbefore.addressed hentered hlive l List.mem_cons_self
      refine ⟨rest', ?_⟩
      simp [Language.step, Language.carry, Scene.deliver, hlive]
    · cases hcalls

/-! ### A listener that takes the change back -/

/-- Code `reset` makes the context unready again whenever it finds it ready. -/
def resetting : Language String Unit :=
  { fields with
    run := fun code _ scene s =>
      (s, if code = "reset" && (scene.world.read 0 "ready").isTrue then [.write 0 "ready" (.bool false)] else []) }

/-- The waiting command is made for a context that is not ready. -/
def awaiting : List (Machine String Unit) × Machine String Unit :=
  resetting.trail 15 unready.1 (machine unready.2.world ((waitingBinder.1.attach 0 0).map .request) ())

theorem awaiting_run : Run resetting awaiting.1 (machine awaiting.2.world [] ()) :=
  ((((Run.start ()).ask _ ()).trail 1).ask _ ()).trail 15

/-- Code that resets has been registered for the command, and it is the turn of other code. -/
def registering : List (Machine String Unit) × Machine String Unit :=
  resetting.trail 6 awaiting.1 (machine awaiting.2.world
    ([.subscribe (.command 0) canExecute "reset" none "done", .subscribe (.command 0) canExecute "look" none "done"].map
      .request) ())

theorem registering_run : Run resetting registering.1 registering.2 :=
  (awaiting_run.ask _ ()).trail 6

/-- Both have been registered. -/
def registered : List (Machine String Unit) × Machine String Unit :=
  resetting.trail 1 [] (resetting.step registering.2)

/-- Then the context gets ready, and is reset. -/
def reset : List (Machine String Unit) × Machine String Unit :=
  resetting.trail 22 [] (machine registered.2.world ([.write 0 "ready" (.bool true)].map .request) ())

theorem reset_resumes : Resumes resetting (machine registered.2.world [] ()) reset.1 reset.2 :=
  (Resumes.here.ask _ ()).trail 22

theorem reset_rests : reset.2.agenda = [] :=
  List.isEmpty_iff.mp (by decide +kernel)

/-- There are two flips, the second in the midst of the first, of both of which the other
listener is told: the command is as it was. -/
theorem flips_are_told_reset : reset.1.countP (Machine.flips resetting 0) = 2 ∧
    reset.1.countP (Machine.calls 0 registering.2.world.nextSubscription) = 2 ∧
      reset.2.world.enabled 0 = registered.2.world.enabled 0 := by
  obtain ⟨y, hy, hself⟩ : ∃ y, registering.2.world.commands[0]? = some y ∧ y.selfEvaluating = true := ⟨_, rfl, rfl⟩
  have h₁ : Resumes resetting (resetting.step registering.2) registered.1 (machine registered.2.world [] ()) :=
    Resumes.here.trail 1
  have hflips : reset.1.countP (Machine.flips resetting 0) = 2 := by decide +kernel
  have hsettled : ∀ u ∈ reset.1, u.settled ≠ some 0 := by decide +kernel
  obtain ⟨-, hcalls, hparity⟩ :=
    (flips_are_told registering_run hy rfl h₁ rfl reset_resumes reset_rests (by decide +kernel)).1 hself
  refine ⟨hflips, hcalls.trans hflips, ?_⟩
  have heven := (hparity hsettled).not.mpr (by rw [hcalls, hflips]; decide)
  exact not_not.mp heven

/-! ### A command that is bound to nothing -/

/-- The waiting command has been replaced by one that is bound to nothing, for which code is
to be registered. -/
def idling : List (Machine String Unit) × Machine String Unit :=
  fields.trail 4 (fields.trail 16 unready.1 attachingWaiting).1 (machine attachedWaiting.2.world
    ([.newCommand "idle" false, .write 0 "command" (.command 1),
      .subscribe (.command 1) canExecute "look" none "done"].map .request) ())

theorem idling_run : Run fields idling.1 idling.2 :=
  have h : Run fields (fields.trail 16 unready.1 attachingWaiting).1 (machine attachedWaiting.2.world [] ()) :=
    attachingWaiting_run.trail 16
  (h.ask _ ()).trail 4

/-- The code has been registered, and then the context gets ready. -/
def idled : List (Machine String Unit) × Machine String Unit :=
  let registered := fields.trail 1 [] (fields.step idling.2)
  fields.trail 9 registered.1 (machine registered.2.world ([.write 0 "ready" (.bool true)].map .request) ())

theorem idled_resumes : Resumes fields (fields.step idling.2) idled.1 idled.2 :=
  have h : Resumes fields (fields.step idling.2) (fields.trail 1 [] (fields.step idling.2)).1
      (machine (fields.trail 1 [] (fields.step idling.2)).2.world [] ()) := Resumes.here.trail 1
  (h.ask _ ()).trail 9

/-- **A command that is bound to nothing** takes no argument and never flips, and still tells
its listener. -/
theorem unbound_tells_unflipped :
    ∃ (past later : List (Machine String Unit)) (n m : Machine String Unit) (x : CommandId)
    (y : Command String) (rest : List (Task String)), Run fields past n ∧
      n.agenda = .register (.command x) canExecute (.code "look" none) (.code "done") :: rest ∧
      n.world.commands[x]? = some y ∧ y.takesArgument = false ∧ Resumes fields (fields.step n) later m ∧ m.agenda = [] ∧
      (m.world.notifierOf (.command x)).isLive n.world.nextSubscription = true ∧ (∀ u ∈ later, u.settled = none) ∧
      later.countP (Machine.calls x n.world.nextSubscription) = 1 ∧ later.countP (Machine.flips fields x) = 0 ∧
      m.world.enabled x = n.world.enabled x :=
  ⟨idling.1, idled.1, idling.2, idled.2, 1, _, _, idling_run, rfl, rfl, rfl, idled_resumes,
    List.isEmpty_iff.mp (by decide +kernel), by decide +kernel, by decide +kernel, by decide +kernel,
    by decide +kernel, by decide +kernel⟩

end LiveRules
