/-
# Properties

An object may be based on another: then it answers itself only for the
properties it owns, and everything else is read, written and subscribed to on
its base. A base is always older than what is based on it, so going from base to
base ends.

Key definitions: `World.lineage`, `World.holder`, `World.read`, `World.store`.
-/
import LiveRules.World.Basic

namespace LiveRules
namespace World

variable {κ : Type}

def baseOf (g : World κ) (o : ObjectId) : Option ObjectId :=
  g.objects[o]?.bind (·.base)

/-- An object, what it is based on, and so on, for at most `n` bases. -/
def chain (g : World κ) : Nat → ObjectId → List ObjectId
  | 0, o => [o]
  | n + 1, o =>
    match g.baseOf o with
    | some b => o :: g.chain n b
    | none => [o]

/-- An object and all it is based on. A base is older, so there are at most `o`. -/
def lineage (g : World κ) (o : ObjectId) : List ObjectId :=
  g.chain o o

/-- The object answers for the property itself. -/
def answersFor (g : World κ) (property : String) (o : ObjectId) : Bool :=
  match g.objects[o]? with
  | some x => x.base.isNone || x.own.contains property
  | none => true

/-- The object of the lineage that holds a property. -/
def holder (g : World κ) (o : ObjectId) (property : String) : ObjectId :=
  ((g.lineage o).find? (g.answersFor property)).getD o

/-- The value in a property of this very object; unset means null. -/
def ownValue (g : World κ) (o : ObjectId) (property : String) : Value :=
  (g.objects[o]?.bind fun x => x.properties.get? property).getD .null

def read (g : World κ) (o : ObjectId) (property : String) : Value :=
  g.ownValue (g.holder o property) property

def store (g : World κ) (o : ObjectId) (property : String) (v : Value) : World κ :=
  g.modifyObject (g.holder o property) fun x => { x with properties := x.properties.set property v }

/-- What a watcher sees in a property: a command shows nothing. -/
def memberValue (g : World κ) (s : Subject) (property : String) : Value :=
  match s with
  | .object o => g.read o property
  | .command _ => .null

end World
end LiveRules
