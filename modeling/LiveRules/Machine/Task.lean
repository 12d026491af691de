/-
# Tasks

What the machine has still to do is an agenda of tasks, the most urgent first.
A task that causes others puts them in front, so that everything a call causes
is done before what comes after the call. Tasks that are half done carry what
they have done so far, and what they hold alive.

Key definitions: `Task`, `Task.held`, `Scene`, `Machine`.
-/
import LiveRules.Machine.Request
import LiveRules.World.Lifetime

namespace LiveRules

/-- A watcher of an object on its way to being bound: it has subscribed to the
properties before `rest`. -/
structure Binding (κ : Type) where
  watcher : WatcherId
  site : Attachment
  subject : Subject
  subscriptions : List SubscriptionId := []
  children : List (Option WatcherId) := []
  rest : WatchPlan κ

/-- Who waits for a subscription to be made. -/
inductive Receiver (κ : Type)
  | code (k : κ)
  | binding (b : Binding κ)

/-- Members on their way to being watched by `item`, and what to do then. -/
structure Enrolment (κ : Type) where
  watcher : WatcherId
  site : Attachment
  item : WatchPlan κ
  /-- The collection and the subscription to bind the watcher to; none if the
  members join one that is bound. -/
  binds : Option (CollectionId × SubscriptionId)
  done : List (ObjectId × WatcherId) := []
  pending : List ObjectId

inductive Task (κ : Type)
  | request (r : Request κ)
  | perform (a : Action κ) (context : ObjectId)
  /-- Runs a batch on the context of an attachment, if it is alive. -/
  | fire (site : Attachment) (batch : Batch κ)
  /-- Tells one listener of a round, if it is still subscribed. -/
  | deliver (s : Subject) (id : SubscriptionId) (l : Listener κ)
  | deliverChange (c : CollectionId) (id : SubscriptionId) (l : ChangeListener κ) (change : Change)
  /-- Binds a watcher to a value, or to nothing if it is of another kind. -/
  | bind (w : WatcherId) (v : Value)
  | bindMembers (b : Binding κ)
  | enrol (e : Enrolment κ)
  /-- Subscribes, after the hook that is due, if any. -/
  | subscribe (s : Subject) (property : String) (l : Listener κ) (receiver : Receiver κ)
  /-- Subscribes, now that no hook is due. -/
  | register (s : Subject) (property : String) (l : Listener κ) (receiver : Receiver κ)
  /-- Makes a watcher the root of a tree. -/
  | plant (t : TreeId) (w : WatcherId)
  /-- A call that held something has ended. -/
  | release (h : Held)

def Binding.held {κ : Type} (b : Binding κ) : List Held :=
  .watcher b.watcher :: .value b.subject.value :: b.children.filterMap (·.map .watcher)

def Receiver.held {κ : Type} : Receiver κ → List Held
  | .code _ => []
  | .binding b => b.held

def Enrolment.held {κ : Type} (e : Enrolment κ) : List Held :=
  .watcher e.watcher :: (e.binds.toList.map fun b => .value (.collection b.1)) ++
    e.done.flatMap (fun d => [.value (.object d.1), .watcher d.2]) ++
    e.pending.map (fun o => .value (.object o))

/-- What a task holds while it waits. -/
def Task.held {κ : Type} : Task κ → List Held
  | .request (.hold v) => [.value v]
  | .bind w v => [.watcher w, .value v]
  | .bindMembers b => b.held
  | .enrol e => e.held
  | .subscribe s _ _ receiver => .value s.value :: receiver.held
  | .register s _ _ receiver => .value s.value :: receiver.held
  | .plant t w => [.tree t, .watcher w]
  | .release h => [h]
  | _ => []

/-- The world, and all that is still to be done in it. -/
structure Scene (κ : Type) where
  world : World κ
  agenda : List (Task κ) := []

namespace Scene

variable {κ : Type} (scene : Scene κ)

/-- What running calls hold. -/
def held : List Held :=
  scene.agenda.flatMap Task.held

def alive (o : ObjectId) : Bool :=
  scene.world.isNamed o || scene.world.isHeld scene.held o

/-- The watcher belongs to an attached tree or a running call holds it. -/
def isLive (w : WatcherId) : Bool :=
  scene.world.planted.contains w || (scene.world.heldNodes scene.held).contains w

end Scene

structure Machine (κ σ : Type) extends Scene κ where
  state : σ

end LiveRules
