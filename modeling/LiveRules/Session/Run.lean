/-
# Running a session

A session starts in an empty world and carries out its statements one after the
other, each with everything it causes. Scripts that run inside are bounded: at
most 24 run at a time, one inside the other, and at most 3000 are started.

Key definitions: `Session.Turn.statement`, `Session.language`, `Session.run`.
-/
import LiveRules.Machine.Step
import LiveRules.Session.Activity
import LiveRules.Session.Registration

namespace LiveRules
namespace Session

/-- Scripts that may run at a time. -/
def depthLimit : Nat := 24

/-- Scripts that a session may start. -/
def startLimit : Nat := 3000

namespace Turn

def controlStatement (t : Turn) : ControlStatement Script → Except Failure Outcome
  | .log e => do
    let v ← t.eval e
    return replyWith .done (t.state.push (.value (t.world.shown v)))
  | .logList items => return replyWith .done (t.state.push (.list items))
  | .when condition body => do
    if (← t.eval condition).isTrue then
      return t.reply .done [.call (.resume body) (.enter t.context t.argument)]
    else return t.reply .done
  | .unknown op => throw (.badStatement op)

def statement (t : Turn) (s : Statement) : Outcome :=
  t.finish (match s with
    | .control s => t.controlStatement s
    | .object s => t.objectStatement s
    | .collection s => t.collectionStatement s
    | .binder s => t.binderStatement s
    | .graph s => t.graphStatement s
    | .registry s => t.registryStatement s
    | .tree s => t.treeStatement s
    | .command s => t.commandStatement s)

end Turn

/-- A statement inside a script: its answer is dropped, unless it is a failure. -/
def runStatement (t : Turn) (s : Statement) : State × List (Request Code) :=
  let o := t.statement s
  (match o.answer with
    | .failed f => o.state.push (.failed f)
    | _ => o.state, o.requests)

/-- Starts a script, if not too many have been. -/
def startScript (body : Script) (signal : Signal) (s : State) : State × List (Request Code) :=
  if s.depth < depthLimit ∧ s.started < startLimit then
    ({ s with depth := s.depth + 1, started := s.started + 1 },
      [.call (.resume body) signal, .call .leave (.enter none 0)])
  else (s.push .stopped, [])

def runCode (k : Code) (signal : Signal) (scene : Scene Code) (s : State) :
    State × List (Request Code) :=
  match k, signal with
  | .script body, signal => startScript body signal s
  | .resume (st :: rest), .enter context argument =>
    let (s, requests) := runStatement { scene, state := s, context, argument } st
    (s, requests ++ [.call (.resume rest) (.enter context argument)])
  | .leave, _ => ({ s with depth := s.depth - 1 }, [])
  | .listener name body, .changed change =>
    (s.push (.changed name (scene.world.labelsOf change.added) (scene.world.labelsOf change.removed)
        change.text),
      [.call (.script body) (.enter none 0)])
  | .keepSubscription name, .subscribed id =>
    ({ s with subscriptions := s.subscriptions.set name id }, [])
  | .keepTree name tree, _ => s.keepTree name tree
  | _, _ => (s, [])

/-- What session code means. -/
def language : Language Code State :=
  { run := runCode, value := sourceValue, test := testCondition }

/-- A session under way. -/
abbrev Course := Machine Code State

/-! ### Statement by statement -/

def census (m : Course) : Census :=
  let counted {α : Type} (t : Table String α) (count : α → Nat) : List (String × Nat) :=
    t.map fun e => (e.1, count e.2)
  { objects := (counted m.world.objectNames fun o => (m.world.notifierOf (.object o)).count).filter
      fun e => e.2 ≠ 0
    collections := (counted m.world.collectionNames fun c =>
      (m.world.listenersOfCollection c).length).filter fun e => e.2 ≠ 0
    trees := counted m.state.trees m.world.subscriptionCount }

/-- Carries out one statement and everything it causes, in at most `fuel` steps. -/
def carryOut (fuel : Nat) (quiet : Bool) (m : Course) (st : Statement) : Course × StepReport :=
  let o := ({ scene := { world := m.world }, state := m.state } : Turn).statement st
  let m := language.settleDown fuel
    { world := m.world, state := o.state, agenda := o.requests.map .request }
  ({ m with state := { m.state with log := [] } },
    { answer := o.answer, log := m.state.log.reverse, census := if quiet then none else some (census m) })

def runAll (fuel : Nat) (quiet : Bool) (m : Course) : List Statement → List StepReport
  | [] => []
  | st :: rest =>
    let (m, report) := carryOut fuel quiet m st
    report :: runAll fuel quiet m rest

/-- The reports of a session that starts in an empty world. -/
def run (fuel : Nat) (quiet : Bool) (statements : List Statement) : List StepReport :=
  runAll fuel quiet { world := {}, state := {} } statements

end Session
end LiveRules
