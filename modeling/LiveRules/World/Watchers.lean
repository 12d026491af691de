/-
# Watchers and the trees they form

A bound watcher of an object holds one subscription for each property of its
plan, and watchers for the values that the plan looks into; a bound watcher of
a collection holds a subscription to its changes and, if the plan looks into
the members, a watcher for each of them. All that is below a watcher is found
by going down its plan.

Key definitions: `World.nodes`, `World.unbind`, `World.subscriptionCount`.
-/
import LiveRules.World.Subscription

namespace LiveRules
namespace World

variable {κ : Type}

def boundObject? (g : World κ) (w : WatcherId) : Option BoundObject :=
  match g.watchers[w]? with
  | some (.object _ _ bound) => bound
  | _ => none

def boundCollection? (g : World κ) (w : WatcherId) : Option BoundCollection :=
  match g.watchers[w]? with
  | some (.collection _ _ _ bound) => bound
  | _ => none

/-- What watches the values of the properties of the object `w` is bound to. -/
def childrenOf (g : World κ) (w : WatcherId) : List (Option WatcherId) :=
  ((g.boundObject? w).map (·.children)).getD []

def watchedItems (g : World κ) (w : WatcherId) : List (ObjectId × WatcherId) :=
  ((g.boundCollection? w).map (·.items)).getD []

/-- The watchers from these children down, in plan order. -/
def below (g : World κ) : WatchPlan κ → List (Option WatcherId) → List WatcherId
  | .nil, _ => []
  | _, [] => []
  | .value _ _ next, _ :: cs => g.below next cs
  | .object _ _ inside next, c :: cs =>
    c.toList.flatMap (fun w => w :: g.below inside (g.childrenOf w)) ++ g.below next cs
  | .collection _ _ _ item next, c :: cs =>
    c.toList.flatMap (fun w => w :: (g.watchedItems w).flatMap fun e =>
      e.2 :: g.below item (g.childrenOf e.2)) ++ g.below next cs

/-- A watcher and all below it. -/
def nodes (g : World κ) (w : WatcherId) : List WatcherId :=
  match g.watchers[w]? with
  | some (.object plan _ _) => w :: g.below plan (g.childrenOf w)
  | some (.collection item _ _ _) =>
    w :: (g.watchedItems w).flatMap fun e => e.2 :: g.below item (g.childrenOf e.2)
  | none => []

/-- Takes back the subscriptions of one watcher and leaves it dormant. -/
def release (g : World κ) (w : WatcherId) : World κ :=
  match g.watchers[w]? with
  | some (.object plan site (some b)) =>
    let g := { g with watchers := g.watchers.setIfInBounds w (.object plan site none) }
    b.subscriptions.foldl (fun g id => g.unsubscribe b.subject id) g
  | some (.collection item membership site (some b)) =>
    let g := { g with watchers := g.watchers.setIfInBounds w (.collection item membership site none) }
    g.unsubscribeChanges b.collection b.subscription
  | _ => g

/-- Releases a watcher and all below it. -/
def unbind (g : World κ) (w : WatcherId) : World κ :=
  (g.nodes w).foldl release g

def bindObject (g : World κ) (w : WatcherId) (b : BoundObject) : World κ :=
  { g with watchers := g.watchers.modify w fun
      | .object plan site _ => .object plan site (some b)
      | x => x }

def bindCollection (g : World κ) (w : WatcherId) (b : BoundCollection) : World κ :=
  { g with watchers := g.watchers.modify w fun
      | .collection item membership site _ => .collection item membership site (some b)
      | x => x }

/-- A new watcher, not bound to anything; its id is the number of those before. -/
def addWatcher (g : World κ) (w : Watcher κ) : World κ :=
  { g with watchers := g.watchers.push w }

/-! ### Trees -/

def treeRoot (g : World κ) (t : TreeId) : Option WatcherId :=
  g.trees[t]?.bind (·.root)

/-- The number of subscriptions one watcher holds. -/
def ownSubscriptions (g : World κ) (w : WatcherId) : Nat :=
  match g.watchers[w]? with
  | some (.object _ _ (some b)) => b.subscriptions.length
  | some (.collection _ _ _ (some _)) => 1
  | _ => 0

/-- The number of subscriptions a tree holds. -/
def subscriptionCount (g : World κ) (t : TreeId) : Nat :=
  ((g.treeRoot t).toList.flatMap g.nodes).foldl (fun n w => n + g.ownSubscriptions w) 0

def isAttached (g : World κ) (t : TreeId) : Bool :=
  (g.treeRoot t).isSome

/-- Takes back all subscriptions of a tree. -/
def dispose (g : World κ) (t : TreeId) : World κ :=
  match g.treeRoot t with
  | some w => (g.modifyTree t fun x => { x with root := none }).unbind w
  | none => g

/-- Takes the first watched member that is `o` out of a list, with its watcher. -/
def takeItem (o : ObjectId) : List (ObjectId × WatcherId) →
    Option (WatcherId × List (ObjectId × WatcherId))
  | [] => none
  | e :: es =>
    if e.1 = o then some (e.2, es) else (takeItem o es).map fun r => (r.1, e :: r.2)

/-- Takes out one watched member for each of `removed` that is still there: the
watchers taken, and what stays. -/
def takeItems (items : List (ObjectId × WatcherId)) :
    List ObjectId → List WatcherId × List (ObjectId × WatcherId)
  | [] => ([], items)
  | o :: os =>
    match takeItem o items with
    | some (w, rest) => let (ws, rest) := takeItems rest os; (w :: ws, rest)
    | none => takeItems items os

end World
end LiveRules
