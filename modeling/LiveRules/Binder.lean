/-
# Binders

A binder is a set of rules for one kind of context: a graph of the paths they
watch and a registry of the rules. Besides plain rules it takes *property
bindings*, which keep a property equal to the value of a source, and *command
bindings*, which give each context a command whose enabled state follows its
dependencies.

A command binding stands for three rules under one key: the first evaluates the
command anew whenever a dependency changes, the second makes the command when a
context is attached, and the third evaluates it, silently, once everything else
that runs on attach has run. Registering it is all or nothing.

Attaching a context runs what runs on attach and then starts a tree of watchers.

Key definitions: `Binder`, `Binder.add`, `Binder.remove`, `PropertyBinding.rule`,
`CommandRules.rules`, `Binder.derive`, `Binder.attach`.
-/
import LiveRules.Machine.Language
import LiveRules.Registry

namespace LiveRules

structure Binder (κ : Type) where
  graph : Graph := .empty
  registry : Registry (Action κ) := {}

/-- `target` is kept equal to the value of `source`, whenever one of `paths`
changes. -/
structure PropertyBinding (κ : Type) where
  paths : PathSource
  source : κ
  /-- The key, unless another is given. -/
  target : String
  /-- The property that is set. -/
  property : String
  key : Option String := none
  runOnAttach : Bool := true
  canOverride : Bool := true

def PropertyBinding.rule {κ : Type} (b : PropertyBinding κ) : Rule (Action κ) :=
  { ({ action := .assign b.source b.property } : Rule (Action κ)).withKey (b.key.getD b.target) with
    triggers := b.paths.resolve
    runOnAttach := b.runOnAttach
    canOverride := b.canOverride }

/-- A command, in `property`, that is evaluated anew whenever one of
`dependencies` changes. -/
structure CommandRules (κ : Type) where
  binding : CommandBinding κ
  dependencies : List PathSource
  /-- The key, unless another is given. -/
  target : String
  /-- The property that holds the command. -/
  property : String
  key : Option String := none
  canOverride : Bool := true

namespace CommandRules

variable {κ : Type}

def keyed (c : CommandRules κ) (action : Action κ) : Rule (Action κ) :=
  ({ action } : Rule (Action κ)).withKey (c.key.getD c.target)

def refreshRule (c : CommandRules κ) : Rule (Action κ) :=
  { c.keyed (.refresh c.binding.takesArgument c.property) with
    triggers := pathsOf c.dependencies
    canOverride := c.canOverride }

def createRule (c : CommandRules κ) : Rule (Action κ) :=
  { c.keyed (.create c.binding c.property) with runOnAttach := true }

def settleRule (c : CommandRules κ) : Rule (Action κ) :=
  { c.keyed (.settle c.binding.takesArgument c.property) with runOnAttach := true, phase := .settle }

def rules (c : CommandRules κ) : List (Rule (Action κ)) :=
  [c.refreshRule, c.createRule, c.settleRule]

end CommandRules

namespace Binder

variable {κ : Type}

def add (b : Binder κ) (rule : Rule (Action κ)) : Except Error (ActionId × Binder κ) := do
  let (a, registry, graph) ← b.registry.add b.graph rule
  return (a, { graph, registry })

/-- Registers several rules, or none of them. -/
def addAll (b : Binder κ) (rules : List (Rule (Action κ))) : Except Error (Binder κ) :=
  rules.foldlM (fun b rule => (b.add rule).map (·.2)) b

/-- Removes every rule under a key, or answers that there is none. -/
def remove (b : Binder κ) (key : String) : Option (Binder κ) :=
  (b.registry.remove b.graph key).map fun r => { graph := r.2, registry := r.1 }

def hasRules (b : Binder κ) : Bool :=
  b.registry.size ≠ 0

/-- The binder for contexts that are based on contexts of this one: its rules
act on the base, while the paths are watched on the context itself. -/
def derive (b : Binder κ) : Binder κ :=
  { b with registry := b.registry.map .onBase }

def plan (b : Binder κ) : WatchPlan κ :=
  b.graph.compile b.registry.resolve

/-- What attaching a context comes to: the actions that run on attach, and then
a tree, which will be `t`. -/
def attach (b : Binder κ) (t : TreeId) (context : ObjectId) : List (Request κ) :=
  .newTree b.plan :: b.registry.attachRuns.map (fun e => .perform e.2 context) ++ [.attach t context]

def text (b : Binder κ) : String :=
  Text.record "PropertyBinder" ["graph: " ++ b.graph.text, "registry: " ++ b.registry.text]

end Binder
end LiveRules
