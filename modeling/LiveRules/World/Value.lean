/-
# Values

What a property can hold: plain data, or a reference to an object, to a
collection or to a command. Two references are equal if they are the same
thing, two data if they are written alike.

Key definitions: `Scalar`, `Value`, `Subject`.
-/

namespace LiveRules

abbrev ObjectId := Nat
abbrev CollectionId := Nat
abbrev CommandId := Nat
abbrev WatcherId := Nat
abbrev TreeId := Nat

inductive Scalar
  | null
  | bool (b : Bool)
  | int (n : Int64)
  | text (s : String)
  deriving DecidableEq

inductive Value
  | scalar (s : Scalar)
  | object (o : ObjectId)
  | collection (c : CollectionId)
  | command (c : CommandId)
  deriving DecidableEq

/-- What can be subscribed to by property name. -/
inductive Subject
  | object (o : ObjectId)
  | command (c : CommandId)
  deriving DecidableEq

def Subject.value : Subject → Value
  | .object o => .object o
  | .command c => .command c

namespace Value

def null : Value := .scalar .null

def bool (b : Bool) : Value := .scalar (.bool b)

def int (n : Int64) : Value := .scalar (.int n)

/-- The value as a number: anything but a number counts as zero. -/
def toNumber : Value → Int64
  | .scalar (.int n) => n
  | _ => 0

/-- The value as a condition: only `true` is true. -/
def isTrue (v : Value) : Bool :=
  v = .bool true

/-- What a watcher that expects an object binds to. -/
def subject? : Value → Option Subject
  | .object o => some (.object o)
  | .command c => some (.command c)
  | _ => none

/-- What a watcher that expects a collection binds to. -/
def collection? : Value → Option CollectionId
  | .collection c => some c
  | _ => none

end Value
end LiveRules
