/-
# Rules

A rule runs an action whenever one of its trigger paths changes, and also when
a context is attached, if it says so. Rules under the same key can replace one
another. A rule keeps the first error among its trigger sources until it is
registered.

Key definitions: `Rule`, `Rule.on`, `AttachPhase`.
-/
import LiveRules.Path.Source
import LiveRules.Text.Quoted
import LiveRules.Text.Record

namespace LiveRules

/-- When an action that runs on attach does so: settling comes after
everything else, right before live propagation starts. -/
inductive AttachPhase
  | initial
  | settle
  deriving DecidableEq

structure Rule (α : Type) where
  action : α
  /-- Never the empty text, which is the same as no key. -/
  key : Option String := none
  runOnAttach : Bool := false
  phase : AttachPhase := .initial
  canOverride : Bool := false
  triggers : Except Error (List Path) := .ok []

/-- Adds the paths of a source, unless there was an error before. -/
def addPaths (paths : Except Error (List Path)) (source : PathSource) : Except Error (List Path) := do
  let before ← paths
  return before ++ (← source.resolve)

/-- The paths of several sources; the first error wins. -/
def pathsOf (sources : List PathSource) : Except Error (List Path) :=
  sources.foldl addPaths (.ok [])

namespace Rule

variable {α : Type}

def on (r : Rule α) (source : PathSource) : Rule α :=
  { r with triggers := addPaths r.triggers source }

def withKey (r : Rule α) (key : String) : Rule α :=
  { r with key := if key = "" then none else some key }

def map {β : Type} (f : α → β) (r : Rule α) : Rule β :=
  { r with action := f r.action }

end Rule

/-! ### A rule as text -/

def StepKind.text : StepKind → String
  | .property => "Property"
  | .collection => "Collection"

def AttachPhase.text : AttachPhase → String
  | .initial => "Initial"
  | .settle => "Settle"

def Step.debugText (s : Step) : String :=
  Text.record "PathStep" ["name: " ++ Text.quoteLabel s.name, "kind: " ++ s.kind.text]

def Path.debugText (p : Path) : String :=
  Text.record "PathDescriptor" ["steps: " ++ Text.listed (p.steps.map Step.debugText)]

def Error.debugText : Error → String
  | .invalidPath path fault =>
    Text.record "InvalidPath"
      ["path: " ++ Text.quoteLabel path, "reason: " ++ Text.quoteLabel fault.message]
  | .shapeConflict property =>
    Text.record "ShapeConflict" ["property: " ++ Text.quoteLabel property]
  | .invalidOperation =>
    Text.wrapped "InvalidOperation" (Text.quoteLabel "command cannot execute in its current state")

def triggersText : Except Error (List Path) → String
  | .ok paths => Text.wrapped "Ok" (Text.listed (paths.map Path.debugText))
  | .error e => Text.wrapped "Err" e.debugText

def keyText : Option String → String
  | none => "None"
  | some key => Text.wrapped "Some" (Text.quoteLabel key)

def Rule.text {α : Type} (r : Rule α) : String :=
  Text.record "Rule"
    ["key: " ++ keyText r.key, "run_on_attach: " ++ Text.ofBool r.runOnAttach,
     "phase: " ++ r.phase.text, "can_override: " ++ Text.ofBool r.canOverride,
     "triggers: " ++ triggersText r.triggers]

end LiveRules
