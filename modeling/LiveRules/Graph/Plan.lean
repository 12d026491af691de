/-
# Watch plans

What a graph asks of the objects it is attached to: for each property to be
watched, what to run when it changes and what to watch below its value. A plan
is compiled once and then read by every watcher built from it.

`fire` holds everything recorded at the property or below it, since a new
value there changes all of it. For a collection, `membership` holds what runs
when members come or go, which leaves out what watches the property alone.

Key definitions: `Plan`, `Graph.compile`.
-/
import LiveRules.Graph.Basic

namespace LiveRules

/-- The watched properties of one object, in order. -/
inductive Plan (α : Type)
  | nil
  /-- The property's value is not looked into. -/
  | value (name : String) (fire : List α) (next : Plan α)
  /-- The value is an object, watched by `below`. -/
  | object (name : String) (fire : List α) (below next : Plan α)
  /-- The value is a collection, and each member is watched by `item`. -/
  | collection (name : String) (fire membership : List α) (item next : Plan α)

namespace Plan

variable {α : Type}

def isNil : Plan α → Bool
  | .nil => true
  | _ => false

/-- The name and the fire list of the `i`th watched property. -/
def place? : Plan α → Nat → Option (String × List α)
  | .nil, _ => none
  | .value n f _, 0 => some (n, f)
  | .object n f _ _, 0 => some (n, f)
  | .collection n f _ _ _, 0 => some (n, f)
  | .value _ _ next, i + 1 => next.place? i
  | .object _ _ _ next, i + 1 => next.place? i
  | .collection _ _ _ _ next, i + 1 => next.place? i

end Plan

/-- What `resolve` knows of the actions recorded in `actions` or in `below`,
in ascending order of ids. -/
def fireList {α : Type} (resolve : ActionId → Option α) (actions : List ActionId)
    (below : Forest) : List α :=
  (unionIds actions below.gather).filterMap resolve

/-- What to watch on the object, or on each member of the collection, whose
children these are. -/
def Forest.compile {α : Type} (resolve : ActionId → Option α) : Forest → Plan α
  | .nil => .nil
  | .node .member _ item _ => item.compile resolve
  | .node (.field n) as below next =>
    let fire := fireList resolve as below
    let inside := below.compile resolve
    match below with
    | .nil => .value n fire (next.compile resolve)
    | .node .member bs item _ =>
      .collection n fire (fireList resolve bs item) inside (next.compile resolve)
    | .node (.field _) _ _ _ => .object n fire inside (next.compile resolve)

/-- The plan of a graph; ids that `resolve` does not know are left out. -/
def Graph.compile {α : Type} (g : Graph) (resolve : ActionId → Option α) : Plan α :=
  g.top.compile resolve

end LiveRules
