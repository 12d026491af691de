/-
# Performing actions

What an action does to its context, in one go, and the tasks it causes. A
property binding writes its target only if the value differs. A command is
evaluated into its cache; its listeners are told when a refresh flips the cache,
or at every refresh if the command cannot be evaluated by itself.

Key definitions: `Effect`, `Language.settle`, `Language.refresh`,
`Language.perform`.
-/
import LiveRules.Machine.Language
import LiveRules.Machine.Round

namespace LiveRules

/-- What a task comes to: the new world and state, and the tasks it causes. -/
structure Effect (κ σ : Type) where
  world : World κ
  state : σ
  tasks : List (Task κ) := []

/-- The command in a property of a context, if it is of the right kind. -/
def World.commandIn {κ : Type} (g : World κ) (context : ObjectId) (target : String) (takesArgument : Bool) :
    Option CommandId :=
  match g.read context target with
  | .command c => if (g.commands[c]?.map (·.takesArgument)) = some takesArgument then some c else none
  | _ => none

namespace Language

variable {κ σ : Type} (L : Language κ σ)

/-- Evaluates a command's condition into its cache, silently. -/
def settle (scene : Scene κ) (s : σ) (c : CommandId) : World κ × σ :=
  let g := scene.world
  match g.commands[c]? with
  | some x =>
    if x.selfEvaluating then
      let (enabled, s) := L.canRun scene s c 0
      (g.modifyCommand c fun x => { x with enabled }, s)
    else (g, s)
  | none => (g, s)

/-- Evaluates a command and tells its listeners of a flip, or of every refresh if
it cannot be evaluated by itself. -/
def refresh (scene : Scene κ) (s : σ) (c : CommandId) : Effect κ σ :=
  let g := scene.world
  match g.commands[c]? with
  | some x =>
    if x.selfEvaluating then
      let (enabled, s) := L.canRun scene s c 0
      { world := g.modifyCommand c fun x => { x with enabled }
        state := s
        tasks := if enabled = x.enabled then [] else g.round (.command c) canExecute }
    else { world := g, state := s, tasks := g.round (.command c) canExecute }
  | none => { world := g, state := s }

def perform (scene : Scene κ) (s : σ) (a : Action κ) (context : ObjectId) : Effect κ σ :=
  let g := scene.world
  match a with
  | .code k => { world := g, state := s, tasks := [.request (.call k (.enter (some context) 0))] }
  | .assign source target =>
    let v := L.value source context scene s
    let (g, tasks) := if g.hasValue v then g.set context target v else (g, [])
    { world := g, state := s, tasks }
  | .create binding target =>
    let c := g.commands.size
    let g := { g with
      commands := g.commands.push { takesArgument := binding.takesArgument
                                    bound := some (binding, context) } }
    let (g, s) := L.settle { scene with world := g } s c
    let (g, tasks) := g.set context target (.command c)
    { world := g, state := s, tasks }
  | .refresh takesArgument target =>
    match g.commandIn context target takesArgument with
    | some c => L.refresh scene s c
    | none => { world := g, state := s }
  | .settle takesArgument target =>
    match g.commandIn context target takesArgument with
    | some c =>
      let (g, s) := L.settle scene s c
      { world := g, state := s }
    | none => { world := g, state := s }
  | .onBase inner =>
    let base := (g.baseOf context).getD context
    { world := g, state := s, tasks := [.perform inner base, .release (.value (.object base))] }

end Language
end LiveRules
