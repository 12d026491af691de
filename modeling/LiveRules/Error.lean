/-
# What can go wrong

The three errors of the library, by cause, and their messages.

Key definitions: `PathFault`, `Error`, `Error.message`.
-/

namespace LiveRules

/-- Why a text or a list of steps is no path. -/
inductive PathFault
  | noSteps
  | emptyName
  | illegalName
  deriving DecidableEq

def PathFault.message : PathFault → String
  | .noSteps => "path has no steps"
  | .emptyName => "empty property name"
  | .illegalName => "property names may not contain `.`, `[`, `]` or whitespace"

inductive Error
  /-- `path` is the text as it was given. -/
  | invalidPath (path : String) (fault : PathFault)
  /-- One path uses `property` as a collection, another as an object. -/
  | shapeConflict (property : String)
  /-- A command was executed that had to be able to execute, and was not. -/
  | invalidOperation
  deriving DecidableEq

def Error.message : Error → String
  | .invalidPath path fault => "invalid path `" ++ path ++ "`: " ++ fault.message
  | .shapeConflict property =>
    "property `" ++ property ++ "` is watched both as a collection and as an object"
  | .invalidOperation => "invalid operation: command cannot execute in its current state"

end LiveRules
