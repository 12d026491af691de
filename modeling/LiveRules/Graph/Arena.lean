/-
# The graph in an arena

The nodes of a graph are kept in a slot map. A node knows the keys of its children and of
its parent, so a graph can be changed in place from any of its nodes: a path is walked from
the root, making the nodes that are missing, and when a node is left without action and
without children it is taken out, and then its parent, if that is left so too, and so on.

Nothing about a slot map of nodes says that keys lead to nodes, or that going from child to
child ends. Where a key leads nowhere, or a node is of a kind that cannot be, there is a
*fault*; and what goes from child to child does so for a given depth only.

Paths are added to a copy, which takes the place of the arena if all of them fit.

Key definitions: `Arena.Node`, `Arena`, `Arena.walk`, `Arena.add`, `Arena.prune`,
`Arena.remove`, `Arena.objectPlan`.
-/
import LiveRules.Graph.Plan
import LiveRules.Graph.Printer
import LiveRules.Graph.SlotMap
import LiveRules.Table

namespace LiveRules
namespace Arena

inductive Branch (κ : Type)
  /-- The value is watched for changes only. -/
  | leaf
  /-- The value is an object; these are the watched properties on it. -/
  | plain (children : Table String κ)
  /-- The value is a collection; this is its member node. -/
  | collection (item : κ)

structure Node (κ : Type) where
  name : String
  parent : Option κ
  /-- In ascending order. -/
  actions : List ActionId := []
  branch : Branch κ := .leaf

/-- Why something is not carried through. -/
inductive Stop
  | refused (e : Error)
  | fault
  /-- The depth that was given has been used up. -/
  | deep

variable {κ : Type}

/-- The nodes a node leads to, under the names it has for them. -/
def Branch.children : Branch κ → Table String κ
  | .leaf => []
  | .plain children => children
  | .collection item => [(Label.member.name, item)]

/-- There is neither an action nor a child. -/
def Node.isDead (n : Node κ) : Bool :=
  n.actions.isEmpty && n.branch.children.isEmpty

end Arena

structure Arena {κ : Type} [DecidableEq κ] (M : SlotMap κ (Arena.Node κ)) where
  nodes : M.Map
  root : κ

namespace Arena

variable {κ : Type} [DecidableEq κ] (M : SlotMap κ (Node κ))

/-- The root stands for the context, which is always an object. -/
def empty : Arena M :=
  let r := M.insert M.empty { name := "", parent := none, branch := .plain [] }
  { nodes := r.2, root := r.1 }

/-- The node with this key, which should be there. -/
def look (nodes : M.Map) (k : κ) : Except Stop (Node κ) :=
  match M.get? nodes k with
  | some n => .ok n
  | none => .error .fault

/-! ### Recording -/

/-- The child of an object for a property, which is made if it is missing. -/
def child (nodes : M.Map) (parent : κ) (name : String) : Except Stop (κ × M.Map) := do
  let n ← look M nodes parent
  let known := match n.branch with
    | .plain children => children.get? name
    | _ => none
  match known with
  | some c => .ok (c, nodes)
  | none =>
    let r := M.insert nodes { name, parent := some parent }
    let n ← look M r.2 parent
    match n.branch with
    | .plain children => .ok (r.1, M.replace r.2 parent { n with branch := .plain (children.set name r.1) })
    | .leaf => .ok (r.1, M.replace r.2 parent { n with branch := .plain [(name, r.1)] })
    | .collection _ => .error .fault

/-- The member node of a collection, which is made if it is missing. -/
def item (nodes : M.Map) (collection : κ) : Except Stop (κ × M.Map) := do
  let n ← look M nodes collection
  match n.branch with
  | .collection i => .ok (i, nodes)
  | _ =>
    let r := M.insert nodes { name := Label.member.name, parent := some collection }
    let n ← look M r.2 collection
    .ok (r.1, M.replace r.2 collection { n with branch := .collection r.1 })

/-- Makes a property that is gone on from an object, unless it is one. It is refused if a step
takes for a collection what has properties, or goes on from a collection as from an
object. -/
def shape (nodes : M.Map) (c : κ) (s : Step) (terminal : Bool) : Except Stop M.Map := do
  let n ← look M nodes c
  match n.branch, s.kind, terminal with
  | .collection _, .property, false => .error (.refused (.shapeConflict s.name))
  | .plain _, .collection, _ => .error (.refused (.shapeConflict s.name))
  | .leaf, .property, false => .ok (M.replace nodes c { n with branch := .plain [] })
  | _, _, _ => .ok nodes

/-- The node that one step leads to from an object. -/
def stride (nodes : M.Map) (object : κ) (s : Step) (terminal : Bool) : Except Stop (κ × M.Map) := do
  let (c, nodes) ← child M nodes object s.name
  let nodes ← shape M nodes c s terminal
  match s.kind with
  | .property => .ok (c, nodes)
  | .collection => item M nodes c

/-- The node at the end of a path from an object, with all nodes on the way. -/
def walk (nodes : M.Map) (object : κ) : List Step → Except Stop (κ × M.Map)
  | [] => .error .fault
  | s :: rest => do
    let (next, nodes) ← stride M nodes object s rest.isEmpty
    if rest.isEmpty then .ok (next, nodes) else walk nodes next rest

/-- Records an action at a node. -/
def mark (a : ActionId) (nodes : M.Map) (k : κ) : Except Stop M.Map := do
  let n ← look M nodes k
  .ok (M.replace nodes k { n with actions := insertId a n.actions })

/-- Records an action at the end of a path. -/
def record (a : ActionId) (nodes : M.Map) (object : κ) (steps : List Step) : Except Stop M.Map := do
  let (terminal, nodes) ← walk M nodes object steps
  mark M a nodes terminal

variable {M}

/-- Records an action at the end of all paths, or changes nothing and answers why. -/
def add (g : Arena M) (paths : List Path) (a : ActionId) : Except Stop (Except Error Unit × Arena M) :=
  match paths.foldlM (fun nodes p => record M a nodes g.root p.steps) g.nodes with
  | .ok nodes => .ok (.ok (), { g with nodes })
  | .error (.refused e) => .ok (.error e, g)
  | .error stop => .error stop

/-! ### Removing -/

variable (M)

/-- The nodes that have an action, as they are visited. -/
def holders (nodes : M.Map) (a : ActionId) : List κ :=
  (M.keys nodes).filter fun k => (M.get? nodes k).any fun n => n.actions.contains a

/-- Takes an action off a node. -/
def takeOff (a : ActionId) (nodes : M.Map) (k : κ) : M.Map :=
  match M.get? nodes k with
  | some n => M.replace nodes k { n with actions := n.actions.erase a }
  | none => nodes

/-- Takes a child off the list of its parent. Only the root is an object without
properties. -/
def unlink (root : κ) (nodes : M.Map) (parent : κ) (name : String) : Except Stop M.Map := do
  let p ← look M nodes parent
  match p.branch with
  | .plain children =>
    let rest := children.erase name
    .ok (M.replace nodes parent
      { p with branch := if rest.isEmpty && parent ≠ root then .leaf else .plain rest })
  | .collection _ => .ok (M.replace nodes parent { p with branch := .leaf })
  | .leaf => .ok nodes

variable {M}

theorem look_eq_ok {nodes : M.Map} {k : κ} {n : Node κ} : look M nodes k = .ok n ↔ M.get? nodes k = some n := by
  unfold look
  cases M.get? nodes k <;> simp

/-- What is put in the place of something has its key. -/
theorem keys_replace_perm {nodes : M.Map} {k : κ} (h : (M.get? nodes k).isSome = true) (n : Node κ) :
    (M.keys (M.replace nodes k n)).Perm (M.keys nodes) := by
  refine (List.perm_ext_iff_of_nodup (M.keys_nodup _) (M.keys_nodup _)).mpr fun j => ?_
  rw [M.mem_keys, M.mem_keys, M.get?_replace n j h]
  by_cases hkj : k = j
  · simp [← hkj, h]
  · simp [hkj]

theorem keys_remove_perm {nodes : M.Map} {k : κ} (h : (M.get? nodes k).isSome = true) :
    (k :: M.keys (M.remove nodes k)).Perm (M.keys nodes) := by
  have hgone : k ∉ M.keys (M.remove nodes k) := by
    rw [M.mem_keys, M.get?_remove, if_pos rfl]
    simp
  refine (List.perm_ext_iff_of_nodup (List.nodup_cons.mpr ⟨hgone, M.keys_nodup _⟩) (M.keys_nodup _)).mpr fun j => ?_
  rw [List.mem_cons, M.mem_keys, M.mem_keys, M.get?_remove]
  by_cases hkj : k = j
  · simp [← hkj, h]
  · simp [hkj, Ne.symm hkj]

theorem unlink_keys_perm {root parent : κ} {nodes nodes' : M.Map} {name : String}
    (h : unlink M root nodes parent name = .ok nodes') : (M.keys nodes').Perm (M.keys nodes) := by
  unfold unlink look at h
  cases hp : M.get? nodes parent with
  | none => simp [hp, bind, Except.bind] at h
  | some p =>
    have hsome : (M.get? nodes parent).isSome = true := by simp [hp]
    simp only [hp, bind, Except.bind] at h
    split at h <;> cases h
    · exact keys_replace_perm hsome _
    · exact keys_replace_perm hsome _
    · exact .refl _

/-- Takes a node out if it is dead, and then its parent if that is dead, and so on, but never
the root. Each time there is a node less. -/
def prune (root : κ) (nodes : M.Map) (k : κ) : Except Stop M.Map :=
  if k = root then .ok nodes
  else
    match _h : M.get? nodes k with
    | none => .ok nodes
    | some n =>
      if n.isDead then
        match n.parent with
        | none => .ok (M.remove nodes k)
        | some parent =>
          match _hunlink : unlink M root (M.remove nodes k) parent n.name with
          | .error stop => .error stop
          | .ok nodes' => prune root nodes' parent
      else .ok nodes
  termination_by (M.keys nodes).length
  decreasing_by
    have hperm := keys_remove_perm (show (M.get? nodes k).isSome = true by simp [_h])
    have hlength := hperm.length_eq
    have hsame := (unlink_keys_perm _hunlink).length_eq
    rw [List.length_cons] at hlength
    omega

/-- Takes an action off every node, and then prunes from every node that had it. -/
def remove (g : Arena M) (a : ActionId) : Except Stop (Arena M) := do
  let held := holders M g.nodes a
  let nodes ← held.foldlM (prune g.root) (held.foldl (takeOff M a) g.nodes)
  return { g with nodes }

/-! ### Reading -/

/-- The number of nodes, the root included. -/
def size (g : Arena M) : Nat :=
  (M.keys g.nodes).length

def contains (g : Arena M) (a : ActionId) : Bool :=
  (M.keys g.nodes).any fun k => (M.get? g.nodes k).any fun n => n.actions.contains a

/-- The actions at the end of a path from an object; no node is made. -/
def actionsFrom (g : Arena M) (object : κ) : List Step → Except Stop (List ActionId)
  | [] => .ok []
  | s :: rest => do
    let n ← look M g.nodes object
    match n.branch with
    | .plain children =>
      match children.get? s.name with
      | some c => do
        let m ← look M g.nodes c
        let next := match m.branch, s.kind with
          | .collection item, .collection => some item
          | _, .property => some c
          | _, _ => none
        match next with
        | some k =>
          if rest.isEmpty then do
            let m ← look M g.nodes k
            return m.actions
          else g.actionsFrom k rest
        | none => .ok []
      | none => .ok []
    | _ => .ok []

def actionsAt (g : Arena M) (p : Path) : Except Stop (List ActionId) :=
  g.actionsFrom g.root p.steps

/-- There is an action at a node or, for so many levels, below it. -/
def hasActionsFrom (g : Arena M) : Nat → κ → Except Stop Bool
  | 0, _ => .error .deep
  | depth + 1, k => do
    let n ← look M g.nodes k
    if n.actions.isEmpty then n.branch.children.anyM fun e => g.hasActionsFrom depth e.2
    else return true

def hasActions (g : Arena M) (depth : Nat) : Except Stop Bool :=
  g.hasActionsFrom depth g.root

/-- The actions at a node or below it, joined to some others. -/
def collect (g : Arena M) : Nat → κ → List ActionId → Except Stop (List ActionId)
  | 0, _, _ => .error .deep
  | depth + 1, k, ids => do
    let n ← look M g.nodes k
    n.branch.children.foldlM (fun ids e => g.collect depth e.2 ids) (unionIds n.actions ids)

section

variable {α : Type} (resolve : ActionId → Option α)

/-- What `resolve` knows of the actions at a node or below it. -/
def fires (g : Arena M) (depth : Nat) (k : κ) : Except Stop (List α) :=
  (g.collect depth k []).map fun ids => ids.filterMap resolve

/-- The plan for an object with these properties, where `inside` is the plan for an object
further down. -/
def planOf (g : Arena M) (depth : Nat) (inside : κ → Except Stop (Plan α)) (children : Table String κ) :
    Except Stop (Plan α) :=
  children.foldr
    (fun e rest => do
      let fire ← g.fires resolve depth e.2
      let c ← look M g.nodes e.2
      match c.branch with
      | .leaf => return .value e.1 fire (← rest)
      | .plain _ => return .object e.1 fire (← inside e.2) (← rest)
      | .collection item =>
        let plan ← inside item
        let membership ← g.fires resolve depth item
        return .collection e.1 fire membership plan (← rest))
    (pure .nil)

/-- The plan for the object at a node. -/
def planFrom (g : Arena M) : Nat → κ → Except Stop (Plan α)
  | 0, _ => .error .deep
  | depth + 1, k => do
    let n ← look M g.nodes k
    match n.branch with
    | .plain children => g.planOf resolve depth (g.planFrom depth) children
    | _ => return .nil

def objectPlan (g : Arena M) (depth : Nat) : Except Stop (Plan α) :=
  g.planFrom resolve depth g.root

end

/-- A node, as a record named for it. -/
def textFrom (g : Arena M) : Nat → κ → Except Stop String
  | 0, _ => .error .deep
  | depth + 1, k => do
    let n ← look M g.nodes k
    let fields ← n.branch.children.mapM fun e => do
      let t ← g.textFrom depth e.2
      return e.1 ++ ": " ++ t
    return Text.record n.name (("actions: " ++ idsText n.actions) :: fields)

def text (g : Arena M) (depth : Nat) : Except Stop String :=
  (g.textFrom depth g.root).map (Text.wrapped "PathGraph")

end Arena
end LiveRules
