/-
# Statements about rules

Registering and removing rules in binders, graphs and registries, and reading
what is registered.

Key definitions: `Session.Turn.binderStatement`, `Session.Turn.graphStatement`,
`Session.Turn.registryStatement`.
-/
import LiveRules.Session.Things

namespace LiveRules
namespace Session

/-- The rule that runs a script, with the options that are given. -/
def RuleOptions.rule (options : RuleOptions) (body : Script) : Rule (Action Code) :=
  let rule : Rule (Action Code) :=
    { action := .code (.script body)
      runOnAttach := options.runOnAttach.getD false
      canOverride := options.canOverride.getD false
      triggers := pathsOf options.triggers }
  match options.key with
  | some key => rule.withKey key
  | none => rule

namespace Turn

def keepBinder (t : Turn) (name : String) (b : Binder Code) : State :=
  { t.state with binders := t.state.binders.set name b }

def keepGraph (t : Turn) (name : String) (g : Graph) : State :=
  { t.state with graphs := t.state.graphs.set name g }

def keepRegistry (t : Turn) (name : String) (r : Registry (Action Code)) : State :=
  { t.state with registries := t.state.registries.set name r }

def binderStatement (t : Turn) : BinderStatement Script → Except Failure Outcome
  | .make name => return replyWith .done (t.keepBinder name {})
  | .copy name source => do return replyWith .done (t.keepBinder name (← t.state.binder source))
  | .derive name source => do
    return replyWith .done (t.keepBinder name (← t.state.binder source).derive)
  | .rule name options body => do
    let (a, b) ← accept ((← t.state.binder name).add (options.rule body))
    return replyWith (.count a) (t.keepBinder name b)
  | .describeRule options => return t.reply (.text (options.rule []).text)
  | .bind name paths source target property key onAttach override => do
    let binding : PropertyBinding Code :=
      { paths, target, key, source := .source source, property := property.getD target,
        runOnAttach := onAttach, canOverride := override }
    let (a, b) ← accept ((← t.state.binder name).add binding.rule)
    return replyWith (.count a) (t.keepBinder name b)
  | .command name takesArgument body condition trace dependencies mode key override target property => do
    let rules : CommandRules Code :=
      { binding := { takesArgument, mode, execute := .script body, condition := .condition condition trace }
        property := property.getD target, dependencies, target, key, canOverride := override }
    let b ← accept ((← t.state.binder name).addAll rules.rules)
    return replyWith .done (t.keepBinder name b)
  | .remove name key => do
    match (← t.state.binder name).remove key with
    | some b => return replyWith (.flag true) (t.keepBinder name b)
    | none => return t.reply (.flag false)
  | .info name => do
    let b ← t.state.binder name
    return t.reply (.binder
      { hasRules := b.hasRules, rules := b.registry.size, onAttach := b.registry.onAttach,
        nodes := b.graph.size, hasActions := b.graph.hasActions, graph := b.graph.text })
  | .describe name => do return t.reply (.text (← t.state.binder name).text)

def graphStatement (t : Turn) : GraphStatement → Except Failure Outcome
  | .make name => return replyWith .done (t.keepGraph name .empty)
  | .copy name source => do return replyWith .done (t.keepGraph name (← t.state.anyGraph source))
  | .add name paths action => do
    let paths ← accept paths.resolve
    let g ← accept ((← t.state.graph name).insert paths action)
    return replyWith .done (t.keepGraph name g)
  | .remove name action => do
    return replyWith .done (t.keepGraph name ((← t.state.graph name).erase action))
  | .info name => do
    let g ← t.state.anyGraph name
    return t.reply (.graph { nodes := g.size, hasActions := g.hasActions, graph := g.text })
  | .actionsAt name path => do
    let g ← t.state.anyGraph name
    return t.reply (.ids (g.actionsAt (← accept (Path.parse path))))
  | .contains name action => do return t.reply (.flag ((← t.state.anyGraph name).contains action))

def registryStatement (t : Turn) : RegistryStatement Script → Except Failure Outcome
  | .make name => return replyWith .done (t.keepRegistry name {})
  | .copy name source => do
    return replyWith .done (t.keepRegistry name (← t.state.anyRegistry source))
  | .add name graph options body => do
    let r ← t.state.registry name
    let (a, r, g) ← accept (r.add (← t.state.graph graph) (options.rule body))
    return replyWith (.count a)
      { t.keepRegistry name r with graphs := t.state.graphs.set graph g }
  | .remove name graph key => do
    let r ← t.state.registry name
    match r.remove (← t.state.graph graph) key with
    | some (r, g) =>
      return replyWith (.flag true) { t.keepRegistry name r with graphs := t.state.graphs.set graph g }
    | none => return t.reply (.flag false)
  | .info name => do
    let r ← t.state.anyRegistry name
    return t.reply (.registry { rules := r.size, onAttach := r.onAttach })
  | .describe name => do return t.reply (.text (← t.state.anyRegistry name).text)
  | .keyed name key => do return t.reply (.ids ((← t.state.anyRegistry name).keyedIds key))
  | .contains name action => do
    return t.reply (.flag ((← t.state.anyRegistry name).contains action))
  | .perform name action ref => do
    let r ← t.state.anyRegistry name
    let o ← t.object ref
    match r.action? action with
    | some a => return t.reply (.flag true) [.perform a o]
    | none => return t.reply (.flag false)

end Turn
end Session
end LiveRules
