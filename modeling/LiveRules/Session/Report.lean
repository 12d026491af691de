/-
# What a session tells

Every statement is answered, and what scripts push is kept in a log. A value is
shown as plain data or by the name its thing was made under. After a statement
a census counts the subscriptions of everything that has a name.

Key definitions: `Shown`, `Session.Failure`, `Session.Answer`, `Session.Entry`,
`Session.Census`, `Session.StepReport`.
-/
import LiveRules.Session.Syntax
import LiveRules.Text.Quoted
import LiveRules.Text.Record
import LiveRules.World.Basic

namespace LiveRules

/-! ### Values as they are shown -/

inductive Shown
  | scalar (s : Scalar)
  | object (label : String)
  | collection (label : String)
  | command (takesArgument : Bool)

def Scalar.written : Scalar → String
  | .null => "null"
  | .bool b => Text.ofBool b
  | .int n => toString n
  | .text s => Text.quoteValue s

/-- A shown value in the notation of a property's debug text. -/
def Shown.written : Shown → String
  | .scalar s => s.written
  | .object label => Text.braced ["\"obj\":" ++ Text.quoteValue label]
  | .collection label => Text.braced ["\"coll\":" ++ Text.quoteValue label]
  | .command takesArgument =>
    Text.braced ["\"cmd\":" ++ Text.quoteValue (if takesArgument then "arg" else "unit")]

namespace World

variable {κ : Type} (g : World κ)

def labelOf (o : ObjectId) : String :=
  (g.objects[o]?.map (·.label)).getD ""

def labelsOf (os : List ObjectId) : List String :=
  os.map g.labelOf

def shown : Value → Shown
  | .scalar s => .scalar s
  | .object o => .object (g.labelOf o)
  | .collection c => .collection ((g.collections[c]?.map (·.label)).getD "")
  | .command c => .command ((g.commands[c]?.map (·.takesArgument)).getD false)

end World

def CheckMode.text : CheckMode → String
  | .checkBeforeExecute => "CheckBeforeExecute"
  | .doNotCheck => "DoNotCheck"
  | .doNotExecute => "DoNotExecute"
  | .throwException => "ThrowException"

def Command.text {κ : Type} (c : Command κ) : String :=
  Text.record "Command"
    ["mode: " ++ c.mode.text, "enabled: " ++ Text.ofBool c.enabled,
     "listeners: " ++ toString c.notifier.count]

def treeText (attached : Bool) (count : Nat) : String :=
  Text.record "WatcherTree"
    ["attached: " ++ Text.ofBool attached, "subscriptions: " ++ toString count]

def Change.text (c : Change) : String :=
  Text.record "CollectionChange"
    ["added: " ++ toString c.added.length, "removed: " ++ toString c.removed.length]

def propertyText (name : String) (v : Shown) : String :=
  Text.record "Property" ["name: " ++ Text.quoteLabel name, "value: " ++ v.written]

namespace Session

/-- Why a statement did nothing. -/
inductive Failure
  | rejected (e : Error)
  /-- Nothing has this name; a reference is given whole. -/
  | noSuch (name : String)
  | notObject (ref : Reference)
  | notCollection (ref : Reference)
  | notCommand (ref : Reference)
  | badExpression (key : String)
  | badStatement (op : String)

def Failure.message : Failure → String
  | .rejected e => e.message
  | .noSuch name => name
  | .notObject ref => ref
  | .notCollection ref => ref
  | .notCommand ref => ref
  | .badExpression key => key
  | .badStatement op => op

structure CollectionInfo where
  members : List String
  subscriptions : Nat

structure BinderInfo where
  hasRules : Bool
  rules : Nat
  onAttach : List ActionId
  nodes : Nat
  hasActions : Bool
  graph : String

structure GraphInfo where
  nodes : Nat
  hasActions : Bool
  graph : String

structure RegistryInfo where
  rules : Nat
  onAttach : List ActionId

structure TreeInfo where
  attached : Bool
  count : Nat

inductive Answer
  | done
  | flag (b : Bool)
  | number (n : Int64)
  | count (n : Nat)
  | ids (as : List ActionId)
  | label (label : Option String)
  | value (v : Shown)
  | text (s : String)
  /-- What a property leads to: an object, a collection, or nothing. -/
  | member (kind : Option (Bool × Bool))
  | property (name : String) (v : Shown)
  | collection (info : CollectionInfo)
  | binder (info : BinderInfo)
  | graph (info : GraphInfo)
  | registry (info : RegistryInfo)
  | tree (info : TreeInfo)
  | failed (f : Failure)

inductive Entry
  | value (v : Shown)
  | list (items : List Literal)
  | changed (name : String) (added removed : List String) (text : String)
  /-- A traced condition was evaluated. -/
  | tested (trace : String) (argument : Int64)
  | failed (f : Failure)

/-- Pushed instead of running a script when too many have been started. -/
def Entry.stopped : Entry :=
  .value (.scalar (.text "<stop>"))

/-- How many subscriptions there are, by name. -/
structure Census where
  objects : List (String × Nat)
  collections : List (String × Nat)
  trees : List (String × Nat)

structure StepReport where
  answer : Answer
  log : List Entry
  /-- Left out in quiet sessions. -/
  census : Option Census

end Session
end LiveRules
