/-
# What a derived binder watches

A derived binder is its base with every action made to act on the base of the context.
It stands for the same ids under the same keys, so taking rules out of the one is
taking them out of the other; it watches the same paths, and its plan differs only in
what it fires.

Key definitions: `Plan.map`, `onActions`, `Binder.removeAll`.
Key theorems: `Forest.compile_map`, `Binder.derive_removeAll`, `Binder.derive_attach`.
-/
import LiveRules.Binder
import Mathlib.Tactic

namespace LiveRules

/-! ### Plans -/

namespace Plan

variable {α β : Type}

/-- The plan that watches the same and fires what `f` makes of it. -/
def map (f : α → β) : Plan α → Plan β
  | .nil => .nil
  | .value n fire next => .value n (fire.map f) (next.map f)
  | .object n fire below next => .object n (fire.map f) (below.map f) (next.map f)
  | .collection n fire membership item next =>
    .collection n (fire.map f) (membership.map f) (item.map f) (next.map f)

@[simp] theorem isNil_map (f : α → β) (p : Plan α) : (p.map f).isNil = p.isNil := by
  cases p <;> rfl

theorem place?_map (f : α → β) :
    ∀ (p : Plan α) (i : Nat), (p.map f).place? i = (p.place? i).map fun e => (e.1, e.2.map f)
  | .nil, _ => rfl
  | .value .., 0 | .object .., 0 | .collection .., 0 => rfl
  | .value _ _ next, i + 1 | .object _ _ _ next, i + 1 | .collection _ _ _ _ next, i + 1 => place?_map f next i

theorem map_id (p : Plan α) : p.map id = p := by
  induction p <;> simp_all [map]

end Plan

theorem fireList_map {α β : Type} (f : α → β) (resolve : ActionId → Option α) (as : List ActionId) (below : Forest) :
    fireList (fun a => (resolve a).map f) as below = (fireList resolve as below).map f := by
  unfold fireList
  rw [List.map_filterMap]

theorem Forest.compile_fields {α : Type} (resolve : ActionId → Option α) (n m : String) (as bs : List ActionId)
    (item others next : Forest) :
    (Forest.node (.field n) as (.node (.field m) bs item others) next).compile resolve =
      .object n (fireList resolve as (.node (.field m) bs item others))
        ((Forest.node (.field m) bs item others).compile resolve) (next.compile resolve) := rfl

/-- **The plan follows what it fires**, and nothing else of what is registered. -/
theorem Forest.compile_map {α β : Type} (f : α → β) (resolve : ActionId → Option α) :
    ∀ forest : Forest, forest.compile (fun a => (resolve a).map f) = (forest.compile resolve).map f
  | .nil => rfl
  | .node .member _ item _ => compile_map f resolve item
  | .node (.field n) as below next => by
    have hbelow := compile_map f resolve below
    have hnext := compile_map f resolve next
    cases below with
    | nil => simp only [compile, Plan.map, fireList_map, hnext]
    | node k bs item others =>
      cases k with
      | member =>
        have hitem := compile_map f resolve item
        simp only [compile, Plan.map, fireList_map, hnext, hitem]
      | field m =>
        rw [compile_fields, compile_fields, Plan.map, fireList_map, hbelow, hnext]

/-! ### Registries -/

variable {κ : Type}

/-- An entry of a batch, with another action in place of its own. -/
def onActions (f : Action κ → Action κ) (e : ActionId × Action κ) : ActionId × Action κ :=
  (e.1, f e.2)

namespace Registry

variable {α β : Type}

theorem action?_map (f : α → β) (r : Registry α) (a : ActionId) : (r.map f).action? a = (r.action? a).map f := by
  simp only [action?, map]
  induction r.actions with
  | nil => rfl
  | cons e t ih =>
    rw [List.map_cons, Table.get?, Table.get?]
    split
    · rfl
    · exact ih

theorem resolve_map (f : α → β) (r : Registry α) (a : ActionId) :
    (r.map f).resolve a = (r.resolve a).map fun e => (e.1, f e.2) := by
  simp only [resolve, action?_map, Option.map_map]
  rfl

theorem attachRuns_map (f : α → β) (r : Registry α) :
    (r.map f).attachRuns = r.attachRuns.map fun e => (e.1, f e.2) := by
  have hresolve : (r.map f).resolve = fun a => (r.resolve a).map fun e => (e.1, f e.2) := funext (r.resolve_map f)
  simp only [attachRuns, hresolve, List.map_append, List.map_filterMap]
  rfl

theorem forget_map (f : α → β) (r : Registry α) (a : ActionId) : (r.map f).forget a = (r.forget a).map f := by
  simp only [forget, map, Table.erase, List.filter_map]
  rfl

theorem remove_map (f : α → β) (r : Registry α) (g : Graph) (key : String) :
    (r.map f).remove g key = (r.remove g key).map fun e => (e.1.map f, e.2) := by
  have hforget : ∀ (ids : List ActionId) (r : Registry α), ids.foldl forget (r.map f) = (ids.foldl forget r).map f := by
    intro ids
    induction ids with
    | nil => exact fun r => rfl
    | cons a ids ih => exact fun r => by rw [List.foldl_cons, List.foldl_cons, forget_map, ih]
  unfold remove
  have hkeyed : (r.map f).keyed = r.keyed := rfl
  rw [hkeyed]
  cases r.keyed.get? key with
  | none => rfl
  | some ids => exact congrArg (fun r' => some (r', g.eraseAll ids)) (hforget ids { r with keyed := r.keyed.erase key })

end Registry

/-! ### Binders -/

namespace Binder

variable (B : Binder κ)

/-- The binder after its rules under some keys are removed, one key after the other;
a key under which there is none changes nothing. -/
def removeAll (keys : List String) : Binder κ :=
  keys.foldl (fun B key => (B.remove key).getD B) B

/-- **Removing from the copy** is copying what is left. -/
theorem derive_removeAll (keys : List String) : B.derive.removeAll keys = (B.removeAll keys).derive := by
  unfold removeAll
  induction keys generalizing B with
  | nil => rfl
  | cons key keys ih =>
    have hremove : (B.derive.remove key).getD B.derive = ((B.remove key).getD B).derive := by
      simp only [remove, derive, Registry.remove_map]
      cases B.registry.remove B.graph key <;> rfl
    rw [List.foldl_cons, List.foldl_cons, hremove, ih]

theorem derive_plan : B.derive.plan = B.plan.map (onActions .onBase) := by
  have hresolve : B.derive.registry.resolve = fun a => (B.registry.resolve a).map (onActions .onBase) :=
    funext (B.registry.resolve_map Action.onBase)
  unfold plan Graph.compile
  rw [hresolve]
  exact Forest.compile_map _ _ _

/-- **Attaching the copy** asks for the same in the same order, for the other context. -/
theorem derive_attach (t : TreeId) (d : ObjectId) :
    B.derive.attach t d = .newTree (B.plan.map (onActions .onBase)) ::
      B.registry.attachRuns.map (fun e => .perform (.onBase e.2) d) ++ [.attach t d] := by
  have hruns : B.derive.registry.attachRuns = B.registry.attachRuns.map (onActions .onBase) :=
    B.registry.attachRuns_map Action.onBase
  unfold attach
  rw [derive_plan, hruns, List.map_map]
  rfl

end Binder
end LiveRules
