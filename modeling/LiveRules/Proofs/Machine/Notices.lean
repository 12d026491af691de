/-
# Who is told

A step puts everybody who listens to a property on the agenda, if it stores a value in
the property, if client code has the property told of, or if a command is evaluated that
then tells its listeners. No other step has anybody told of a property.

Key definitions: `Language.notified`, `Machine.notified`, `World.Informs`.
Key theorems: `Language.carry_informs`, `Language.step_informs`, `Language.step_notices`.
-/
import LiveRules.Proofs.Machine.Listening
import LiveRules.Proofs.World.Outline

namespace LiveRules

variable {κ σ : Type} {L : Language κ σ}

/-! ### What is told of -/

/-- Somebody is to be told of a property. -/
def Task.isNotice : Task κ → Bool
  | .deliver _ _ _ => true
  | _ => false

/-- The property that everybody who listens to it is told of when a request is granted. -/
def World.notified (g : World κ) : Request κ → Option (Subject × String)
  | .write o p v => if g.hasObject o && g.hasValue v then some (.object (g.holder o p), p) else none
  | .notify o p => some (.object (g.holder o p), p)
  | _ => none

/-- The same when the value `v` is stored in a property that may hold it already. -/
def World.notifiedOf (g : World κ) (o : ObjectId) (p : String) (v : Value) : Option (Subject × String) :=
  if g.read o p = v then none else some (.object (g.holder o p), p)

namespace Language

variable (L : Language κ σ) (scene : Scene κ) (s : σ)

/-- The same when a command is evaluated anew. -/
def notifiedBy (c : CommandId) : Option (Subject × String) :=
  if scene.world.commands[c]?.any fun x => !x.selfEvaluating || (L.canRun scene s c 0).1 ≠ x.enabled then
    some (.command c, canExecute)
  else none

/-- The same when a task is carried out. -/
def notified : Task κ → Option (Subject × String)
  | .request r => scene.world.notified r
  | .perform (.assign source target) context =>
    let v := L.value source context scene s
    if scene.world.hasValue v then scene.world.notifiedOf context target v else none
  | .perform (.create _ target) context => scene.world.notifiedOf context target (.command scene.world.commands.size)
  | .perform (.refresh takesArgument target) context =>
    (scene.world.commandIn context target takesArgument).bind (L.notifiedBy scene s)
  | _ => none

end Language

/-- The property that the next step has everybody told of who listens to it. -/
def Machine.notified (L : Language κ σ) (m : Machine κ σ) : Option (Subject × String) :=
  m.agenda.head?.bind (L.notified m.toScene m.state)

/-! ### One task -/

namespace World

variable {g g' : World κ} {tasks : List (Task κ)}

/-- The tasks are a round for what is told of, and nobody else is told of a property. -/
def Informs (g : World κ) : Option (Subject × String) → List (Task κ) → Prop
  | some (s, p), tasks => tasks = g.round s p
  | none, tasks => ∀ u ∈ tasks, u.isNotice = false

theorem informs_nothing (g : World κ) : g.Informs none [] := by simp [Informs]

theorem informs_changeRound (g : World κ) (c : CollectionId) (change : Change) :
    g.Informs none (g.changeRound c change) := by
  intro u hu
  rcases List.mem_append.mp hu with hu | hu <;>
  · obtain ⟨e, -, rfl⟩ := List.mem_map.mp hu
    rfl

theorem informs_set (g : World κ) (o : ObjectId) (p : String) (v : Value) :
    g.Informs (g.notifiedOf o p v) (g.set o p v).2 := by
  unfold World.set notifiedOf
  split
  · exact g.informs_nothing
  · rfl

/-- Commands do not matter to who listens to an object. -/
theorem informs_set_commands (g : World κ) (commands : Array (Command κ)) (o : ObjectId) (p : String) (v : Value) :
    g.Informs (g.notifiedOf o p v) (({ g with commands } : World κ).set o p v).2 := by
  unfold World.set notifiedOf
  simp only [read_commands]
  split
  · exact g.informs_nothing
  · simp only [World.write, holder_commands]
    rfl

theorem informs_grant (g : World κ) (rest : List (Task κ)) (r : Request κ) :
    g.Informs (g.notified r) (g.grant rest r).2 := by
  cases r <;> simp only [World.grant, World.notified]
  case write =>
    split
    · rfl
    · exact g.informs_nothing
  case notify => rfl
  case newObject | newCollection | nameCommand | subscribe | subscribeChanges | perform =>
    split <;> simp [Informs, Task.isNotice]
  case push | insert | remove | clear | report =>
    split
    · split
      all_goals first | exact g.informs_nothing | exact g.informs_changeRound _ _
    · exact g.informs_nothing
  case attach =>
    split
    · unfold World.attach
      simp only
      split <;> simp [Informs, Task.isNotice]
    · exact g.informs_nothing
  all_goals exact g.informs_nothing

theorem informs_bind (g : World κ) (w : WatcherId) (v : Value) : g.Informs none (g.bind w v).2 := by
  unfold World.bind
  simp only
  split
  · split <;> simp [Informs, Task.isNotice]
  · split <;> simp [Informs, Task.isNotice]
  · exact g.informs_nothing

theorem informs_bindMembers (g : World κ) (b : Binding κ) : g.Informs none (g.bindMembers b).2 := by
  unfold World.bindMembers
  simp only
  split <;> simp [Informs, Task.isNotice]

theorem informs_enrol (g : World κ) (e : Enrolment κ) : g.Informs none (g.enrol e).2 := by
  unfold World.enrol
  split
  · simp [Informs, Task.isNotice]
  · split
    · exact g.informs_nothing
    · split <;> simp [Informs, Task.isNotice]

theorem informs_subscribe (g : World κ) (s : Subject) (p : String) (l : Listener κ) (r : Receiver κ) :
    g.Informs none (g.subscribe s p l r).2 := by
  unfold World.subscribe
  split
  · split <;> simp [Informs, callOn, Task.isNotice]
  · simp [Informs, Task.isNotice]

theorem informs_register (g : World κ) (s : Subject) (p : String) (l : Listener κ) (r : Receiver κ) :
    g.Informs none (g.register s p l r).2 := by
  have hanswer : ∀ (g' : World κ) id, g.Informs none (g'.answer id r).2 := by
    intro g' id
    cases r with
    | code k => simp [World.answer, Informs, Task.isNotice]
    | binding b =>
      unfold World.answer World.bindChild
      simp only
      split <;> simp [Informs, Task.isNotice]
  unfold World.register
  simp only
  split
  · split
    · split
      · exact hanswer _ _
      · simp [Informs, Task.isNotice]
    · exact hanswer _ _
  · exact hanswer _ _

theorem informs_memberChanged (g : World κ) (w : WatcherId) (index : Nat) :
    g.Informs none (g.memberChanged w index) := by
  unfold World.memberChanged
  split
  · split
    · intro u hu
      rcases List.mem_append.mp hu with hm | hm
      · obtain ⟨c, -, rfl⟩ := List.mem_map.mp hm
        rfl
      · simp only [List.mem_cons, List.not_mem_nil, or_false] at hm
        rcases hm with rfl | rfl | rfl <;> rfl
    · exact g.informs_nothing
  · exact g.informs_nothing

theorem informs_deliver (scene : Scene κ) (s : Subject) (id : SubscriptionId) (l : Listener κ) :
    scene.world.Informs none (scene.deliver s id l) := by
  unfold Scene.deliver
  simp only
  split
  · split
    · simp [Informs, Task.isNotice]
    · split <;> simp [Informs, callOn, Task.isNotice]
    · split
      · exact scene.world.informs_memberChanged _ _
      · exact scene.world.informs_nothing
  · exact scene.world.informs_nothing

theorem informs_deliverChange (scene : Scene κ) (c : CollectionId) (id : SubscriptionId) (l : ChangeListener κ)
    (change : Change) : scene.world.Informs none (scene.deliverChange c id l change).2 := by
  unfold Scene.deliverChange
  simp only
  split
  · split
    · simp [Informs, Task.isNotice]
    · split
      · unfold World.membershipChanged
        split <;> simp [Informs, Task.isNotice]
      · exact scene.world.informs_nothing
  · exact scene.world.informs_nothing

end World

namespace Language

variable (L : Language κ σ)

theorem informs_refresh (scene : Scene κ) (s : σ) (c : CommandId) :
    scene.world.Informs (L.notifiedBy scene s c) (L.refresh scene s c).tasks := by
  unfold Language.refresh Language.notifiedBy
  cases hc : scene.world.commands[c]? with
  | none => simp [World.Informs, hc]
  | some x =>
    cases hself : x.selfEvaluating with
    | false => simp [World.Informs, hc, hself]
    | true => by_cases hsame : (L.canRun scene s c 0).1 = x.enabled <;> simp [World.Informs, hc, hself, hsame]

theorem settle_commands (scene : Scene κ) (s : σ) (x : CommandId) :
    ∃ commands, (L.settle scene s x).1 = { scene.world with commands } := by
  unfold Language.settle
  simp only
  split
  · split
    · exact ⟨_, rfl⟩
    · exact ⟨_, rfl⟩
  · exact ⟨_, rfl⟩

/-- A command that is made has nobody told of it, and where it is stored is told of as
if it was there before. -/
theorem informs_create (scene : Scene κ) (s : σ) (binding : CommandBinding κ) (target : String) (context : ObjectId) :
    scene.world.Informs (scene.world.notifiedOf context target (.command scene.world.commands.size))
      (L.perform scene s (.create binding target) context).tasks := by
  set c := scene.world.commands.size with hc
  obtain ⟨commands, hsettled⟩ := L.settle_commands { scene with world := { scene.world with
    commands := scene.world.commands.push
      { takesArgument := binding.takesArgument, bound := some (binding, context) } } } s c
  have htasks : (L.perform scene s (.create binding target) context).tasks =
      (World.set { scene.world with commands } context target (.command c)).2 := by
    rw [← hsettled]
    rfl
  exact htasks ▸ scene.world.informs_set_commands commands context target _

/-- **What a task has told**: everybody who listens to what is told of, and nobody else. -/
theorem carry_informs (g : World κ) (s : σ) (t : Task κ) (rest : List (Task κ)) :
    g.Informs (L.notified { world := g, agenda := t :: rest } s t) (L.carry g s t rest).tasks := by
  have hrequest : ∀ r, g.Informs (L.notified { world := g, agenda := .request r :: rest } s (.request r))
      (g.grant rest r).2 := g.informs_grant rest
  cases t with
  | request r =>
    cases r with
    | call k signal =>
      intro u hu
      obtain ⟨r, -, rfl⟩ := List.mem_map.mp hu
      rfl
    | _ => exact hrequest _
  | perform a context =>
    cases a with
    | refresh takesArgument target =>
      simp only [Language.carry, Language.perform, Language.notified]
      cases g.commandIn context target takesArgument with
      | none => exact g.informs_nothing
      | some c => exact L.informs_refresh { world := g, agenda := _ :: rest } s c
    | assign source target =>
      simp only [Language.carry, Language.perform, Language.notified]
      split
      · exact g.informs_set _ _ _
      · exact g.informs_nothing
    | create binding target => exact L.informs_create { world := g, agenda := _ :: rest } s binding target context
    | settle takesArgument target =>
      simp only [Language.carry, Language.perform, Language.notified]
      split <;> exact g.informs_nothing
    | code k => simp [Language.carry, Language.perform, Language.notified, World.Informs, Task.isNotice]
    | onBase inner => simp [Language.carry, Language.perform, Language.notified, World.Informs, Task.isNotice]
  | fire site batch =>
    simp only [Language.carry]
    split
    · intro u hu
      rcases List.mem_append.mp hu with hu | hu
      · obtain ⟨e, -, rfl⟩ := List.mem_map.mp hu
        rfl
      · rw [List.mem_singleton.mp hu]
        rfl
    · exact g.informs_nothing
  | deliver subject id l => exact World.informs_deliver { world := g, agenda := .deliver subject id l :: rest } _ _ _
  | deliverChange c id l change =>
    exact World.informs_deliverChange { world := g, agenda := .deliverChange c id l change :: rest } _ _ _ _
  | bind w v => exact g.informs_bind w v
  | bindMembers b => exact g.informs_bindMembers b
  | enrol e => exact g.informs_enrol e
  | subscribe subject p l r => exact g.informs_subscribe subject p l r
  | register subject p l r => exact g.informs_register subject p l r
  | plant t w => exact g.informs_nothing
  | release held => cases held <;> exact g.informs_nothing

/-- **What a step has told**: a round comes in front of the agenda, or nobody new is to be
told of a property. -/
theorem step_informs (m : Machine κ σ) :
    ∃ tasks, (L.step m).agenda = tasks ++ m.agenda.tail ∧ m.world.Informs (m.notified L) tasks := by
  obtain ⟨⟨g, agenda⟩, s⟩ := m
  cases agenda with
  | nil => exact ⟨[], rfl, g.informs_nothing⟩
  | cons t rest => exact ⟨_, rfl, L.carry_informs g s t rest⟩

theorem step_notified {m : Machine κ σ} {s : Subject} {p : String} (h : m.notified L = some (s, p)) :
    (L.step m).agenda = m.world.round s p ++ m.agenda.tail := by
  obtain ⟨tasks, hagenda, htasks⟩ := L.step_informs m
  rw [h] at htasks
  rw [hagenda, show tasks = _ from htasks]

/-- Whoever is to be told after a step was to be told before, or is told by it. -/
theorem step_notices {m : Machine κ σ} {u : Task κ} (hu : u ∈ (L.step m).agenda) (hnotice : u.isNotice = true) :
    u ∈ m.agenda ∨ ∃ s p, m.notified L = some (s, p) ∧ u ∈ m.world.round s p := by
  obtain ⟨tasks, hagenda, htasks⟩ := L.step_informs m
  rw [hagenda] at hu
  rcases List.mem_append.mp hu with hu | hu
  · cases hnotified : m.notified L with
    | none =>
      rw [hnotified] at htasks
      cases hnotice.symm.trans (htasks u hu)
    | some e =>
      rw [hnotified] at htasks
      exact .inr ⟨e.1, e.2, rfl, htasks ▸ hu⟩
  · exact .inl (List.mem_of_mem_tail hu)

end Language

end LiveRules
