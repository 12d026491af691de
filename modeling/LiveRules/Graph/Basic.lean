/-
# The graph of watched paths

A graph records, for the words of the watched paths, which actions end where.
It is a forest over `Label`: a node stands for the word that leads to it and
carries the ids of the actions that watch exactly that word, in ascending
order. Siblings stand in the order in which they were first inserted.

A node is either an object (its children are fields), or a collection (its
one child is `member`), or neither (no children). Inserting a path that
would make a node both is a shape conflict and changes nothing. Erasing an
action takes it off every node, and with it the nodes that then lead to no
action.

Key definitions: `Forest`, `Graph`, `Graph.insert`, `Graph.erase`,
`Graph.actionsAt`, `Graph.size`.
-/
import LiveRules.Path.Basic

namespace LiveRules

abbrev ActionId := Nat

/-- An ascending list of ids with `a` in its place. -/
def insertId (a : ActionId) : List ActionId → List ActionId
  | [] => [a]
  | b :: bs => if a < b then a :: b :: bs else if a = b then b :: bs else b :: insertId a bs

/-- The ids of both lists, ascending if the second is. -/
def unionIds (as bs : List ActionId) : List ActionId :=
  as.foldr insertId bs

/-- Trees side by side: a first tree (its label, the actions recorded at its
root and what is below it) and the trees next to it. -/
inductive Forest
  | nil
  | node (label : Label) (actions : List ActionId) (below next : Forest)
  deriving DecidableEq

def Label.name : Label → String
  | .field name => name
  | .member => "[]"

/-- Both are fields or both are `member`. -/
def Label.sameKind : Label → Label → Bool
  | .field _, .field _ => true
  | .member, .member => true
  | _, _ => false

namespace Forest

/-- The tree that leads along `k :: w` to `a` and to nothing else. -/
def chain (a : ActionId) : Label → List Label → Forest
  | k, [] => .node k [a] .nil .nil
  | k, j :: w => .node k [] (chain a j w) .nil

/-- A further tree for `k` keeps all labels of one kind. -/
def admits (k : Label) : Forest → Bool
  | .nil => true
  | .node l _ _ _ => l.sameKind k

/-- Records `a` at the end of `k :: w`. It fails at the first node whose
children are of another kind than the next label. -/
def insert (a : ActionId) (k : Label) (w : List Label) : Forest → Except Error Forest
  | .nil => .ok (chain a k w)
  | .node l as below next =>
    if l = k then
      match w with
      | [] => .ok (.node l (insertId a as) below next)
      | j :: v =>
        if below.admits j then (below.insert a j v).map fun b => .node l as b next
        else .error (.shapeConflict l.name)
    else (next.insert a k w).map fun n => .node l as below n

/-- Takes `a` off every node, and drops the nodes left without action and
children. -/
def erase (a : ActionId) : Forest → Forest
  | .nil => .nil
  | .node l as below next =>
    match as.filter (· ≠ a), below.erase a with
    | [], .nil => next.erase a
    | bs, b => .node l bs b (next.erase a)

def size : Forest → Nat
  | .nil => 0
  | .node _ _ below next => 1 + below.size + next.size

/-- The actions recorded at the end of `k :: w`. -/
def actionsAt (k : Label) (w : List Label) : Forest → List ActionId
  | .nil => []
  | .node l as below next =>
    if l = k then
      match w with
      | [] => as
      | j :: v => below.actionsAt j v
    else next.actionsAt k w

def hasActions : Forest → Bool
  | .nil => false
  | .node _ as below next => !as.isEmpty || below.hasActions || next.hasActions

def contains (a : ActionId) : Forest → Bool
  | .nil => false
  | .node _ as below next => as.contains a || below.contains a || next.contains a

/-- Every action recorded anywhere, each once, in ascending order. -/
def gather : Forest → List ActionId
  | .nil => []
  | .node _ as below next => unionIds as (unionIds below.gather next.gather)

end Forest

/-- A graph: the trees below a root that stands for the context itself. -/
structure Graph where
  top : Forest
  deriving DecidableEq

namespace Graph

def empty : Graph := ⟨.nil⟩

def insertWord (a : ActionId) (g : Graph) : List Label → Except Error Graph
  | [] => .ok g
  | k :: w => (g.top.insert a k w).map .mk

/-- Records `a` at the end of every path, in order, or fails. -/
def insert (g : Graph) (paths : List Path) (a : ActionId) : Except Error Graph :=
  paths.foldlM (fun g p => insertWord a g p.word) g

def erase (g : Graph) (a : ActionId) : Graph :=
  ⟨g.top.erase a⟩

def eraseAll (g : Graph) (as : List ActionId) : Graph :=
  as.foldl erase g

/-- The number of nodes, the root included. -/
def size (g : Graph) : Nat :=
  1 + g.top.size

def actionsAt (g : Graph) (p : Path) : List ActionId :=
  match p.word with
  | [] => []
  | k :: w => g.top.actionsAt k w

def hasActions (g : Graph) : Bool :=
  g.top.hasActions

def contains (g : Graph) (a : ActionId) : Bool :=
  g.top.contains a

end Graph
end LiveRules
