/-
# Lifetime

An object is alive while something holds it: a name, a running call, a watcher
that is bound to it, or an object or collection that is itself held. Two objects
that hold one another stay alive, as do all that a cycle holds. Watchers hold
their context weakly and commands theirs: nothing fires and nothing executes on
a context that is gone.

A watcher is alive while it belongs to an attached tree or a running call holds
it.

Key definitions: `Held`, `World.planted`, `World.survivors`, `World.isHeld`.
-/
import LiveRules.World.Watchers

namespace LiveRules

/-- What a running call holds on to. -/
inductive Held
  | value (v : Value)
  | watcher (w : WatcherId)
  | tree (t : TreeId)
  deriving DecidableEq

namespace World

variable {κ : Type}

def heldWatchers (held : List Held) : List WatcherId :=
  held.filterMap fun
    | .watcher w => some w
    | _ => none

def heldValues (held : List Held) : List Value :=
  held.filterMap fun
    | .value v => some v
    | _ => none

/-- The watchers of the attached trees. -/
def planted (g : World κ) : List WatcherId :=
  (g.trees.toList.filterMap (·.root)).flatMap g.nodes

/-- The watchers that running calls hold, and all below them. -/
def heldNodes (g : World κ) (held : List Held) : List WatcherId :=
  (heldWatchers held).flatMap g.nodes

/-- What a bound watcher holds. -/
def watcherHolds (g : World κ) (w : WatcherId) : List Value :=
  match g.watchers[w]? with
  | some (.object _ _ (some b)) => [b.subject.value]
  | some (.collection _ _ _ (some b)) => .collection b.collection :: b.items.map fun e => .object e.1
  | _ => []

/-- What a thing holds. -/
def valueHolds (g : World κ) : Value → List Value
  | .object o =>
    match g.objects[o]? with
    | some x => x.base.toList.map .object ++ x.properties.map (·.2)
    | none => []
  | .collection c => (g.itemsOf c).map .object
  | _ => []

/-- What is held from outside the objects and collections themselves. -/
def rootValues (g : World κ) (held : List Held) : List Value :=
  g.objectNames.map (fun e => .object e.2) ++ g.collectionNames.map (fun e => .collection e.2) ++
    heldValues held ++ (g.planted ++ g.heldNodes held).flatMap g.watcherHolds

/-- Of `vs`, those that are roots or held by another of `vs`. -/
def supported (g : World κ) (roots vs : List Value) : List Value :=
  let inside := vs.flatMap g.valueHolds
  vs.filter fun v => roots.contains v || inside.contains v

/-- What is left of `vs` when unsupported things are taken away, at most `n` times. -/
def survivors (g : World κ) (roots : List Value) : Nat → List Value → List Value
  | 0, vs => vs
  | n + 1, vs =>
    let kept := g.supported roots vs
    if kept.length = vs.length then vs else g.survivors roots n kept

def everything (g : World κ) : List Value :=
  (List.range g.objects.size).map .object ++ (List.range g.collections.size).map .collection

def isNamed (g : World κ) (o : ObjectId) : Bool :=
  g.objectNames.any fun e => e.2 == o

/-- The object is held by something, though it may have no name. -/
def isHeld (g : World κ) (held : List Held) (o : ObjectId) : Bool :=
  held.contains (.value (.object o)) ||
    (g.survivors (g.rootValues held) g.everything.length g.everything).contains (.object o)

end World
end LiveRules
