/-
# References and expressions

Expressions only read. All elements of a list are evaluated, in order, and the
first failure wins. As a number anything but an integer is zero, and as a
condition only `true` is true. Numbers wrap at 64 bits.

Key definitions: `Session.Turn.resolve`, `Session.Turn.eval`.
-/
import LiveRules.Session.State

namespace LiveRules
namespace Session
namespace Turn

/-- The thing a name stands for, an object before a collection before a command. -/
def named? (t : Turn) (name : String) : Option Value :=
  if name = "$" then t.context.map .object
  else
    ((t.world.objectNames.get? name).map .object).or
      (((t.world.collectionNames.get? name).map .collection).or
        ((t.world.commandNames.get? name).map .command))

/-- One step of a reference: only objects have properties. -/
def go (t : Turn) (v : Value) (property : String) : Value :=
  match v with
  | .object o => t.world.read o property
  | _ => .null

def resolve (t : Turn) (ref : Reference) : Except Failure Value :=
  match (pieces ref.toList).map String.ofList with
  | [] => .error (.noSuch ref)
  | head :: properties =>
    match t.named? head with
    | some v => .ok (properties.foldl t.go v)
    | none => .error (.noSuch ref)

def object (t : Turn) (ref : Reference) : Except Failure ObjectId := do
  match ← t.resolve ref with
  | .object o => return o
  | _ => throw (.notObject ref)

def objects (t : Turn) (refs : List Reference) : Except Failure (List ObjectId) :=
  refs.mapM t.object

def anyCollection (t : Turn) (ref : Reference) : Except Failure CollectionId := do
  match ← t.resolve ref with
  | .collection c => return c
  | _ => throw (.notCollection ref)

/-- A collection, with its members, of the free kind or of the other. -/
def collectionOf (t : Turn) (free : Bool) (ref : Reference) :
    Except Failure (CollectionId × List ObjectId) := do
  let c ← t.anyCollection ref
  match t.world.collections[c]? with
  | some x => if x.free = free then return (c, x.items) else throw (.notCollection ref)
  | none => throw (.notCollection ref)

def command (t : Turn) (ref : Reference) : Except Failure (CommandId × Command Code) := do
  match ← t.resolve ref with
  | .command c =>
    match t.world.commands[c]? with
    | some x => return (c, x)
    | none => throw (.notCommand ref)
  | _ => throw (.notCommand ref)

/-- The members behind a value; anything but a collection has none. -/
def members (t : Turn) : Value → List ObjectId
  | .collection c => t.world.itemsOf c
  | _ => []

mutual

def eval (t : Turn) : Expression → Except Failure Value
  | .literal s => .ok (.scalar s)
  | .get ref => t.resolve ref
  | .arg => .ok (.int t.argument)
  | .add es => do return .int ((← t.evalAll es).foldl (fun n v => n + v.toNumber) 0)
  | .mul es => do return .int ((← t.evalAll es).foldl (fun n v => n * v.toNumber) 1)
  | .gt a b => do
    let x ← t.eval a
    let y ← t.eval b
    return .bool (y.toNumber < x.toNumber)
  | .eq a b => do
    let x ← t.eval a
    let y ← t.eval b
    return .bool (x = y)
  | .and es => do return .bool ((← t.evalAll es).all Value.isTrue)
  | .or es => do return .bool ((← t.evalAll es).any Value.isTrue)
  | .not e => do return .bool !(← t.eval e).isTrue
  | .len ref => do return .int (Int64.ofNat (t.members (← t.resolve ref)).length)
  | .sum ref property => do
    return .int ((t.members (← t.resolve ref)).foldl
      (fun n o => n + (t.world.read o property).toNumber) 0)
  | .unknown key => .error (.badExpression key)

def evalAll (t : Turn) : List Expression → Except Failure (List Value)
  | [] => .ok []
  | e :: es => do
    let v ← t.eval e
    return v :: (← t.evalAll es)

end

/-- A condition that cannot be evaluated does not hold. -/
def holds (t : Turn) (e : Expression) : Bool :=
  match t.eval e with
  | .ok v => v.isTrue
  | .error _ => false

/-- The evaluated properties of an object in the making. -/
def evalProperties (t : Turn) : List (String × Expression) → Except Failure (Table String Value)
  | [] => .ok []
  | (name, e) :: rest => do
    let v ← t.eval e
    return (name, v) :: (← t.evalProperties rest)

end Turn
end Session
end LiveRules
