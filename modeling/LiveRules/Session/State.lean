/-
# The state of a session

What a session keeps beside the world: the names of subscriptions, binders,
graphs, registries and trees, the log, and how many scripts are running and have
been started. Objects, collections and commands are named in the world, where
being named keeps them alive.

Key definitions: `Session.Code`, `Session.State`, `Session.Turn`, `Session.Outcome`.
-/
import LiveRules.Binder
import LiveRules.Session.Report

namespace LiveRules
namespace Session

/-- The client code of a session. -/
inductive Code
  | script (body : Script)
  /-- The rest of a script that is running. -/
  | resume (rest : Script)
  /-- The end of a script that was running. -/
  | leave
  /-- A listener of a collection. -/
  | listener (name : String) (body : Script)
  | keepSubscription (name : String)
  | keepTree (name : String) (t : TreeId)
  | source (e : Expression)
  | condition (e : Expression) (trace : Option String)

structure State where
  subscriptions : Table String SubscriptionId := []
  binders : Table String (Binder Code) := []
  graphs : Table String Graph := []
  registries : Table String (Registry (Action Code)) := []
  trees : Table String TreeId := []
  /-- The newest entry first. -/
  log : List Entry := []
  /-- Scripts that are running. -/
  depth : Nat := 0
  /-- Scripts that were ever started. -/
  started : Nat := 0

def State.push (s : State) (e : Entry) : State :=
  { s with log := e :: s.log }

/-- What a statement runs on: the scene, the state, and the context and the
argument of the script it stands in. -/
structure Turn where
  scene : Scene Code
  state : State
  context : Option ObjectId := none
  argument : Int64 := 0

def Turn.world (t : Turn) : World Code :=
  t.scene.world

/-- What a statement comes to. -/
structure Outcome where
  answer : Answer := .done
  state : State
  requests : List (Request Code) := []

/-- An outcome that changes nothing but what is asked for. -/
def Turn.reply (t : Turn) (answer : Answer) (requests : List (Request Code) := []) : Outcome :=
  { answer, state := t.state, requests }

/-- An outcome that changes the session's own state. -/
def replyWith (answer : Answer) (state : State) : Outcome :=
  { answer, state }

/-- Either kind of outcome as one. -/
def Turn.finish (t : Turn) : Except Failure Outcome → Outcome
  | .ok o => o
  | .error f => t.reply (.failed f)

/-- A library error as the failure of a statement. -/
def accept {α : Type} : Except Error α → Except Failure α
  | .ok a => .ok a
  | .error e => .error (.rejected e)

/-! ### Names -/

def found {α : Type} (name : String) : Option α → Except Failure α
  | some a => .ok a
  | none => .error (.noSuch name)

namespace State

def subscription (s : State) (name : String) : Except Failure SubscriptionId :=
  found name (s.subscriptions.get? name)

def binder (s : State) (name : String) : Except Failure (Binder Code) :=
  found name (s.binders.get? name)

/-- A graph to change. -/
def graph (s : State) (name : String) : Except Failure Graph :=
  found name (s.graphs.get? name)

/-- A graph to read: a binder's name will do. -/
def anyGraph (s : State) (name : String) : Except Failure Graph :=
  found name ((s.graphs.get? name).or ((s.binders.get? name).map (·.graph)))

/-- A registry to change. -/
def registry (s : State) (name : String) : Except Failure (Registry (Action Code)) :=
  found name (s.registries.get? name)

/-- A registry to read: a binder's name will do. -/
def anyRegistry (s : State) (name : String) : Except Failure (Registry (Action Code)) :=
  found name ((s.registries.get? name).or ((s.binders.get? name).map (·.registry)))

def tree (s : State) (name : String) : Except Failure TreeId :=
  found name (s.trees.get? name)

/-- Names a tree; the tree of that name before is given up. -/
def keepTree (s : State) (name : String) (t : TreeId) : State × List (Request Code) :=
  ({ s with trees := s.trees.set name t }, (s.trees.get? name).toList.map .drop)

end State
end Session
end LiveRules
