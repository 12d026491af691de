/-
# The registry of live rules

Which actions are registered, which of them stand under which key, and which
run when a context is attached. Ids are handed out in ascending order and never
twice, also when a registration fails after an id was looked at or when rules
are removed.

A registration changes the registry and the graph together, or neither.

Key definitions: `Registry`, `Registry.add`, `Registry.remove`,
`Registry.keyedIds`, `Registry.attachRuns`.
-/
import LiveRules.Graph.Printer
import LiveRules.Rule
import LiveRules.Table

namespace LiveRules

structure Registry (α : Type) where
  /-- Larger than every id handed out so far. -/
  nextId : ActionId := 0
  actions : Table ActionId α := []
  keyed : Table String (List ActionId) := []
  onAttach : List ActionId := []
  onSettle : List ActionId := []

namespace Registry

variable {α : Type}

def action? (r : Registry α) (a : ActionId) : Option α :=
  r.actions.get? a

def contains (r : Registry α) (a : ActionId) : Bool :=
  r.actions.has a

def size (r : Registry α) : Nat :=
  r.actions.length

/-- The ids registered under a key, in order of registration. -/
def keyedIds (r : Registry α) (key : String) : List ActionId :=
  (r.keyed.get? key).getD []

def forget (r : Registry α) (a : ActionId) : Registry α :=
  { r with
    actions := r.actions.erase a
    onAttach := r.onAttach.filter (· ≠ a)
    onSettle := r.onSettle.filter (· ≠ a) }

/-- The ids a rule replaces: all under its key, if it has one and may override. -/
def superseded (r : Registry α) (rule : Rule α) : List ActionId :=
  match rule.key with
  | some key => if rule.canOverride then r.keyedIds key else []
  | none => []

/-- Puts `a` at the end of its key's list, without the ids it replaces. -/
def enterKey (r : Registry α) (rule : Rule α) (old : List ActionId) (a : ActionId) : Registry α :=
  match rule.key with
  | none => r
  | some key =>
    { r with keyed := r.keyed.set key ((r.keyedIds key).filter (fun b => !old.contains b) ++ [a]) }

/-- Enters the action and, if it runs on attach, the phase it runs in. -/
def enterAction (r : Registry α) (rule : Rule α) (a : ActionId) : Registry α :=
  { r with
    actions := r.actions.set a rule.action
    onAttach := if rule.runOnAttach ∧ rule.phase = .initial then r.onAttach ++ [a] else r.onAttach
    onSettle := if rule.runOnAttach ∧ rule.phase = .settle then r.onSettle ++ [a] else r.onSettle }

/-- Registers a rule under the next id. Its paths are inserted into the graph
without the actions it replaces; if that fails, nothing is registered. -/
def add (r : Registry α) (g : Graph) (rule : Rule α) : Except Error (ActionId × Registry α × Graph) := do
  let paths ← rule.triggers
  let a := r.nextId
  let old := r.superseded rule
  let g ← (g.eraseAll old).insert paths a
  let r := old.foldl forget { r with nextId := a + 1 }
  return (a, (r.enterKey rule old a).enterAction rule a, g)

/-- Removes every rule under a key, or answers that there is none. -/
def remove (r : Registry α) (g : Graph) (key : String) : Option (Registry α × Graph) :=
  match r.keyed.get? key with
  | none => none
  | some old => some (old.foldl forget { r with keyed := r.keyed.erase key }, g.eraseAll old)

/-- The same rules with every action changed by `f`. -/
def map {β : Type} (f : α → β) (r : Registry α) : Registry β :=
  { r with actions := r.actions.map fun e => (e.1, f e.2) }

def resolve (r : Registry α) (a : ActionId) : Option (ActionId × α) :=
  (r.action? a).map fun action => (a, action)

/-- What runs when a context is attached, in order. -/
def attachRuns (r : Registry α) : List (ActionId × α) :=
  r.onAttach.filterMap r.resolve ++ r.onSettle.filterMap r.resolve

def text (r : Registry α) : String :=
  Text.record "RuleRegistry"
    ["actions: " ++ idsText r.actions.keys,
     "keyed: " ++ Text.braced (r.keyed.map fun e => Text.quoteLabel e.1 ++ ": " ++ idsText e.2),
     "on_attach: " ++ Text.braced (r.onAttach.map idText),
     "on_settle: " ++ Text.braced (r.onSettle.map idText)]

end Registry
end LiveRules
