/-
# The world

Everything that rules act on and that watchers watch: objects with properties,
collections, commands, the watchers and the trees they form. Things are made
and never unmade; an id is the place at which a thing was made. What is still
alive is a matter of who refers to it.

Key definitions: `Object`, `Collection`, `Command`, `Watcher`, `Tree`, `World`.
-/
import LiveRules.Action
import LiveRules.Notifier

namespace LiveRules

/-- Who is told of a change of a property. -/
inductive Listener (κ : Type)
  /-- Client code, run on `context` if there is one and it is still alive. -/
  | code (k : κ) (context : Option ObjectId)
  /-- A watcher, at the place `index` of its plan. -/
  | member (watcher : WatcherId) (index : Nat)

/-- Who is told of a change of a collection. -/
inductive ChangeListener (κ : Type)
  | code (k : κ)
  | membership (watcher : WatcherId)

structure Object (κ : Type) where
  label : String
  properties : Table String Value := []
  base : Option ObjectId := none
  own : List String := []
  notifier : Notifier (Listener κ) := {}
  /-- Code to run, once each, when a property is about to be subscribed to. -/
  hooks : List (String × κ) := []

structure Collection (κ : Type) where
  label : String
  items : List ObjectId := []
  /-- A free collection reports whatever change it is told to. -/
  free : Bool := false
  listeners : Table SubscriptionId (ChangeListener κ) := []

/-- Members that joined and left a collection. -/
structure Change where
  added : List ObjectId := []
  removed : List ObjectId := []

def Change.isEmpty (c : Change) : Bool :=
  c.added.isEmpty && c.removed.isEmpty

structure Command (κ : Type) where
  takesArgument : Bool
  /-- What the command does, and for which context; none for a command bound to
  nothing. -/
  bound : Option (CommandBinding κ × ObjectId) := none
  /-- The last result of its condition, kept for commands without argument. -/
  enabled : Bool := false
  notifier : Notifier (Listener κ) := {}

def Command.mode {κ : Type} (c : Command κ) : CheckMode :=
  match c.bound with
  | some (binding, _) => binding.mode
  | none => .checkBeforeExecute

/-- The command can be evaluated by itself: it is bound and takes no argument. -/
def Command.selfEvaluating {κ : Type} (c : Command κ) : Bool :=
  !c.takesArgument && c.bound.isSome

/-- What a watcher of an object holds on to while it is bound. -/
structure BoundObject where
  subject : Subject
  /-- One subscription for each property of the plan. -/
  subscriptions : List SubscriptionId
  /-- One entry for each property of the plan: what watches its value. -/
  children : List (Option WatcherId)

structure BoundCollection where
  collection : CollectionId
  subscription : SubscriptionId
  /-- The members that are watched, with their watchers. -/
  items : List (ObjectId × WatcherId)

/-- A tree attached to a context, by the watcher at its top. -/
structure Attachment where
  tree : TreeId
  top : WatcherId
  context : ObjectId
  deriving DecidableEq

/-- A part of a tree, which fires actions on the context of its attachment. -/
inductive Watcher (κ : Type)
  | object (plan : WatchPlan κ) (site : Attachment) (bound : Option BoundObject)
  | collection (item : WatchPlan κ) (membership : Batch κ) (site : Attachment)
      (bound : Option BoundCollection)

structure Tree (κ : Type) where
  plan : WatchPlan κ
  root : Option WatcherId := none
  /-- Nobody can name the tree any more; it is disposed of as soon as no call on
  it is running. -/
  dropped : Bool := false

structure World (κ : Type) where
  objects : Array (Object κ) := #[]
  collections : Array (Collection κ) := #[]
  commands : Array (Command κ) := #[]
  watchers : Array (Watcher κ) := #[]
  trees : Array (Tree κ) := #[]
  /-- Larger than every subscription id given out so far. -/
  nextSubscription : SubscriptionId := 0
  objectNames : Table String ObjectId := []
  collectionNames : Table String CollectionId := []
  commandNames : Table String CommandId := []

namespace World

variable {κ : Type}

def modifyObject (g : World κ) (o : ObjectId) (f : Object κ → Object κ) : World κ :=
  { g with objects := g.objects.modify o f }

def modifyCollection (g : World κ) (c : CollectionId) (f : Collection κ → Collection κ) : World κ :=
  { g with collections := g.collections.modify c f }

def modifyCommand (g : World κ) (c : CommandId) (f : Command κ → Command κ) : World κ :=
  { g with commands := g.commands.modify c f }

def modifyTree (g : World κ) (t : TreeId) (f : Tree κ → Tree κ) : World κ :=
  { g with trees := g.trees.modify t f }

def hasObject (g : World κ) (o : ObjectId) : Bool :=
  o < g.objects.size

/-- The thing a value refers to exists; plain data always does. -/
def hasValue (g : World κ) : Value → Bool
  | .scalar _ => true
  | .object o => g.hasObject o
  | .collection c => c < g.collections.size
  | .command c => c < g.commands.size

end World
end LiveRules
