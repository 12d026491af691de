/-
# Client code

Code of the client runs when an action fires, when a listener is told of a
change, when a hook is due and when a command is executed. It reads the scene,
changes a state of its own and answers with requests (`Request`), which
the machine carries out one after the other.

A `Language` says what code means. `κ` is the type of code, `σ` that of the
client's state.

Key definitions: `Language`, `Language.canRun`, `Language.execute`.
-/
import LiveRules.Machine.Task

namespace LiveRules

structure Language (κ σ : Type) where
  run : κ → Signal → Scene κ → σ → σ × List (Request κ)
  /-- The value of a binding's source on a context. -/
  value : κ → ObjectId → Scene κ → σ → Value
  /-- The verdict of a command's condition on a context and an argument. -/
  test : κ → ObjectId → Int64 → Scene κ → σ → Bool × σ

/-! ### Commands -/

/-- The property under which a command tells of changes of its enabled state. -/
def canExecute : String := "can_execute"

/-- What a command does when it runs: nothing, if its context is gone. -/
def Scene.runs {κ : Type} (scene : Scene κ) (c : CommandId) (argument : Int64) : List (Request κ) :=
  match scene.world.commands[c]?.bind (·.bound) with
  | none => []
  | some (binding, context) =>
    if scene.alive context then
      [.call binding.execute (.enter (some context) argument), .hold (.object context)]
    else []

namespace Language

variable {κ σ : Type} (L : Language κ σ)

/-- Whether a command can execute now: its context is alive and its condition
holds. -/
def canRun (scene : Scene κ) (s : σ) (c : CommandId) (argument : Int64) : Bool × σ :=
  match scene.world.commands[c]?.bind (·.bound) with
  | none => (false, s)
  | some (binding, context) =>
    if scene.alive context then L.test binding.condition context argument scene s else (false, s)

/-- Executes a command as its mode says. -/
def execute (scene : Scene κ) (s : σ) (c : CommandId) (argument : Int64) :
    Except Error (List (Request κ)) × σ :=
  match (scene.world.commands[c]?.map (·.mode)).getD .checkBeforeExecute with
  | .doNotCheck => (.ok (scene.runs c argument), s)
  | .doNotExecute => (.ok [], s)
  | .checkBeforeExecute =>
    let (can, s) := L.canRun scene s c argument
    (.ok (if can then scene.runs c argument else []), s)
  | .throwException =>
    let (can, s) := L.canRun scene s c argument
    (if can then .ok (scene.runs c argument) else .error .invalidOperation, s)

end Language
end LiveRules
