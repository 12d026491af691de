/-
# Statements about trees and commands

Attaching contexts and disposing of trees; executing commands and listening to
them.

Key definitions: `Session.Turn.treeStatement`, `Session.Turn.commandStatement`.
-/
import LiveRules.Session.Things

namespace LiveRules
namespace Session

/-- What session code means to the conditions of commands: a condition that fails
does not hold, and each evaluation of a traced one is logged. -/
def testCondition (k : Code) (context : ObjectId) (argument : Int64) (scene : Scene Code)
    (s : State) : Bool × State :=
  match k with
  | .condition e trace =>
    let t : Turn := { scene, state := s, context := some context, argument }
    (t.holds e, match trace with
      | some trace => s.push (.tested trace argument)
      | none => s)
  | _ => (false, s)

/-- The value of a source: one that fails yields null. -/
def sourceValue (k : Code) (context : ObjectId) (scene : Scene Code) (s : State) : Value :=
  match k with
  | .source e =>
    match ({ scene, state := s, context := some context } : Turn).eval e with
    | .ok v => v
    | .error _ => .null
  | _ => .null

namespace Turn

def treeStatement (t : Turn) : TreeStatement → Except Failure Outcome
  | .attachBinder binder ref name => do
    let b ← t.state.binder binder
    let o ← t.object ref
    let tree := t.world.trees.size
    return t.reply .done (holding o
      (b.attach tree o ++ [.call (.keepTree name tree) (.enter none 0)]))
  | .make graph registry skip name => do
    let g ← t.state.anyGraph graph
    let r ← t.state.anyRegistry (registry.getD graph)
    let plan := g.compile fun a => if skip.contains a then none else r.resolve a
    let (state, requests) := t.state.keepTree name t.world.trees.size
    return { state, requests := .newTree plan :: requests }
  | .attach name ref => do
    let tree ← t.state.tree name
    let o ← t.object ref
    return t.reply .done (holding o [.attach tree o])
  | .dispose name => do return t.reply .done [.dispose (← t.state.tree name)]
  | .drop name =>
    match t.state.trees.get? name with
    | some tree =>
      return { answer := .flag true, requests := [.drop tree]
               state := { t.state with trees := t.state.trees.erase name } }
    | none => return t.reply (.flag false)
  | .info name => do
    let tree ← t.state.tree name
    return t.reply (.tree
      { attached := t.world.isAttached tree, count := t.world.subscriptionCount tree })

/-- The argument of a command, evaluated only for a command that takes one. -/
def argumentFor (t : Turn) (c : Command Code) (e : Expression) : Except Failure Int64 :=
  if c.takesArgument then (t.eval e).map Value.toNumber else .ok 0

/-- The language of a session as far as commands need it. -/
def conditions : Language Code State :=
  { run := fun _ _ _ s => (s, []), value := sourceValue, test := testCondition }

def commandStatement (t : Turn) : CommandStatement Script → Except Failure Outcome
  | .make name takesArgument => return t.reply .done [.newCommand name takesArgument]
  | .take ref name => do
    let (c, _) ← t.command ref
    return t.reply .done [.nameCommand name c]
  | .can ref e => do
    let (c, x) ← t.command ref
    let n ← t.argumentFor x e
    let (can, state) := conditions.canRun t.scene t.state c n
    return replyWith (.flag can) state
  | .execute ref e => do
    let (c, x) ← t.command ref
    let n ← t.argumentFor x e
    match conditions.execute t.scene t.state c n with
    | (.ok requests, state) => return { state, requests }
    | (.error e, state) => return replyWith (.failed (.rejected e)) state
  | .mode ref => do return t.reply (.text (← t.command ref).2.mode.text)
  | .enabled ref => do
    let (_, x) ← t.command ref
    if x.takesArgument then throw (.notCommand ref) else return t.reply (.flag x.enabled)
  | .describe ref => do return t.reply (.text (← t.command ref).2.text)
  | .listen ref property name body => do
    let (c, _) ← t.command ref
    return t.reply .done
      [.subscribe (.command c) (property.getD canExecute) (.script body) none (.keepSubscription name)]
  | .unlisten ref name => do
    let (c, _) ← t.command ref
    return t.reply .done [.unsubscribe (.command c) (← t.state.subscription name)]

end Turn
end Session
end LiveRules
