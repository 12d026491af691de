/-
# Scripts

A small language to drive a world with: statements make things and name them,
change them, register rules and attach contexts. Listeners, rules, commands and
hooks run scripts, which are lists of statements.

A *reference* is dot separated: the name of a thing, or `$` for the context of
the running script, and then properties to go through.

Key definitions: `Session.Expression`, `Session.Statement`.
-/
import LiveRules.Action
import LiveRules.Path.Source

namespace LiveRules
namespace Session

abbrev Reference := String

inductive Expression
  | literal (s : Scalar)
  | get (ref : Reference)
  /-- The argument of the running command. -/
  | arg
  | add (es : List Expression)
  | mul (es : List Expression)
  | gt (a b : Expression)
  | eq (a b : Expression)
  | and (es : List Expression)
  | or (es : List Expression)
  | not (e : Expression)
  | len (ref : Reference)
  /-- The sum of a property over the members of a collection. -/
  | sum (ref : Reference) (property : String)
  | unknown (key : String)

instance : Inhabited Expression := ⟨.arg⟩

/-- Plain data that is only ever shown. -/
inductive Literal
  | scalar (s : Scalar)
  | list (items : List Literal)

instance : Inhabited Literal := ⟨.list []⟩

/-- When two values count as the same. -/
inductive Sameness
  | always
  | never
  /-- As numbers, up to the sign. -/
  | magnitude

/-- The options of a rule; an absent one keeps its default. -/
structure RuleOptions where
  triggers : List PathSource := []
  key : Option String := none
  runOnAttach : Option Bool := none
  canOverride : Option Bool := none

/-! ### Statements, by what they are about

`Script` stands for the scripts inside them. -/

section Families

variable (Script : Type)

inductive ControlStatement
  | log (e : Expression)
  | logList (items : List Literal)
  | when (condition : Expression) (body : Script)
  | unknown (op : String)

inductive ObjectStatement
  | make (name : String) (properties : List (String × Expression)) (base : Option Reference)
      (own : List String)
  | forget (name : String)
  | hook (object : Reference) (property : String) (body : Script)
  | get (ref : Reference)
  | member (object : Reference) (property : String)
  | set (object : Reference) (property : String) (e : Expression)
  | setBy (object : Reference) (property : String) (e : Expression) (same : Sameness)
  | replace (object : Reference) (property : String) (e : Expression)
  | update (object : Reference) (property : String) (increment : Expression)
  | describe (object : Reference) (property : String)
  | notify (object : Reference) (property : String)
  | count (object : Reference) (property : Option String)
  | subscribe (object : Reference) (property : String) (name : String) (body : Script)
  | unsubscribe (object : Reference) (name : String)

inductive CollectionStatement
  | make (name : String) (items : List Reference) (free : Bool)
  | forget (name : String)
  | push (collection item : Reference)
  | insert (collection : Reference) (index : Nat) (item : Reference)
  | remove (collection : Reference) (index : Nat)
  | removeItem (collection item : Reference)
  | clear (collection : Reference)
  | get (collection : Reference) (index : Nat)
  | describe (collection : Reference)
  | report (collection : Reference) (items : Option (List Reference)) (added removed : List Reference)
  | subscribe (collection : Reference) (name : String) (body : Script)
  | unsubscribe (collection : Reference) (name : String)

inductive BinderStatement
  | make (name : String)
  | copy (name source : String)
  | derive (name source : String)
  | rule (binder : String) (options : RuleOptions) (body : Script)
  | describeRule (options : RuleOptions)
  | bind (binder : String) (paths : PathSource) (source : Expression) (target : String)
      (property : Option String) (key : Option String) (onAttach override : Bool)
  | command (binder : String) (takesArgument : Bool) (body : Script) (condition : Expression)
      (trace : Option String) (dependencies : List PathSource) (mode : CheckMode)
      (key : Option String) (override : Bool) (target : String) (property : Option String)
  | remove (binder key : String)
  | info (binder : String)
  | describe (binder : String)

inductive GraphStatement
  | make (name : String)
  | copy (name source : String)
  | add (graph : String) (paths : PathSource) (action : ActionId)
  | remove (graph : String) (action : ActionId)
  | info (graph : String)
  | actionsAt (graph path : String)
  | contains (graph : String) (action : ActionId)

inductive RegistryStatement
  | make (name : String)
  | copy (name source : String)
  | add (registry graph : String) (options : RuleOptions) (body : Script)
  | remove (registry graph key : String)
  | info (registry : String)
  | describe (registry : String)
  | keyed (registry key : String)
  | contains (registry : String) (action : ActionId)
  | perform (registry : String) (action : ActionId) (object : Reference)

inductive TreeStatement
  | attachBinder (binder : String) (object : Reference) (name : String)
  | make (graph : String) (registry : Option String) (skip : List ActionId) (name : String)
  | attach (tree : String) (object : Reference)
  | dispose (tree : String)
  | drop (tree : String)
  | info (tree : String)

inductive CommandStatement
  | make (name : String) (takesArgument : Bool)
  | take (command : Reference) (name : String)
  | can (command : Reference) (argument : Expression)
  | execute (command : Reference) (argument : Expression)
  | mode (command : Reference)
  | enabled (command : Reference)
  | describe (command : Reference)
  | listen (command : Reference) (property : Option String) (name : String) (body : Script)
  | unlisten (command : Reference) (name : String)

end Families

inductive Statement
  | control (s : ControlStatement (List Statement))
  | object (s : ObjectStatement (List Statement))
  | collection (s : CollectionStatement (List Statement))
  | binder (s : BinderStatement (List Statement))
  | graph (s : GraphStatement)
  | registry (s : RegistryStatement (List Statement))
  | tree (s : TreeStatement)
  | command (s : CommandStatement (List Statement))

instance : Inhabited Statement := ⟨.control (.unknown "")⟩

abbrev Script := List Statement

end Session
end LiveRules
