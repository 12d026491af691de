/-
# Actions

What a rule does to its context. Most rules run client code; the others are the
parts of property bindings and command bindings. Client code is an abstract
type `κ` here: its meaning is given by a `Language`.

Key definitions: `Action`, `CommandBinding`, `CheckMode`.
-/
import LiveRules.Graph.Plan
import LiveRules.World.Value

namespace LiveRules

/-- How executing a command treats its condition. -/
inductive CheckMode
  /-- Execute if the command can execute, otherwise do nothing. -/
  | checkBeforeExecute
  /-- Execute always. -/
  | doNotCheck
  /-- Execute never. -/
  | doNotExecute
  /-- Execute if the command can execute, otherwise fail. -/
  | throwException
  deriving DecidableEq

/-- What a command does and when it can: shared by the commands that one
binding creates for its contexts. -/
structure CommandBinding (κ : Type) where
  takesArgument : Bool
  execute : κ
  condition : κ
  mode : CheckMode

inductive Action (κ : Type)
  /-- Runs client code on the context. -/
  | code (k : κ)
  /-- Sets a property of the context to what `source` yields on it. -/
  | assign (source : κ) (target : String)
  /-- Makes a command for the context and stores it in a property. -/
  | create (binding : CommandBinding κ) (target : String)
  /-- Evaluates the command in a property anew, and tells of a change. -/
  | refresh (takesArgument : Bool) (target : String)
  /-- Evaluates the command in a property anew, silently. -/
  | settle (takesArgument : Bool) (target : String)
  /-- Acts on the object the context is based on. -/
  | onBase (inner : Action κ)

/-- Actions to run one after the other, with their ids. -/
abbrev Batch (κ : Type) := List (ActionId × Action κ)

abbrev WatchPlan (κ : Type) := Plan (ActionId × Action κ)

end LiveRules
