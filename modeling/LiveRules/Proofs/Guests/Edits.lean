/-
# Changes to what there is

Objects, collections, commands and names change without regard to who listens and who
watches. So they change alike in two worlds of the same outline, and in neither does
anybody start or stop to listen.

Key definitions: `World.Edits`.
Key theorems: `World.edits_store`, `World.edits_newObject`, `World.edits_items`.
-/
import LiveRules.Proofs.World.Hooks

namespace LiveRules
namespace World

variable {κ : Type}

/-- Changes the outline only, and reads nothing else. -/
structure Edits (f : World κ → World κ) : Prop where
  outline : ∀ g, (f g).outline = f g.outline
  watchers : ∀ g, (f g).watchers = g.watchers
  trees : ∀ g, (f g).trees = g.trees
  next : ∀ g, (f g).nextSubscription = g.nextSubscription
  notifier : ∀ g s, (f g).notifierOf s = g.notifierOf s
  changes : ∀ g c, (f g).listenersOfCollection c = g.listenersOfCollection c
  known : ∀ g v, g.hasValue v = true → (f g).hasValue v = true

theorem Edits.outline_congr {f : World κ → World κ} (h : Edits f) {g g' : World κ} (houtline : g'.outline = g.outline) :
    (f g').outline = (f g).outline := by
  rw [h.outline, houtline, ← h.outline]

/-! ### What is looked up after a change -/

theorem map_getElem?_modify {α β : Type} (a : Array α) (i j : Nat) {f : α → α} {c : α → β} (h : ∀ x, c (f x) = c x) :
    (a.modify i f)[j]?.map c = a[j]?.map c := by
  rw [← Array.getElem?_map, map_modify_eq a i f c h, Array.getElem?_map]

/-- What is made has nobody listening to it. -/
theorem getD_map_push {α β : Type} (a : Array α) (x : α) (i : Nat) {c : α → β} {d : β} (h : c x = d) :
    ((a.push x)[i]?.map c).getD d = (a[i]?.map c).getD d := by
  rw [Array.getElem?_push]
  split
  · rename_i hi
    simp [hi, h]
  · rfl

theorem hasValue_of_size {g g' : World κ} {v : Value} (hv : g.hasValue v = true)
    (hobjects : g.objects.size ≤ g'.objects.size) (hcollections : g.collections.size ≤ g'.collections.size)
    (hcommands : g.commands.size ≤ g'.commands.size) : g'.hasValue v = true := by
  cases v with
  | scalar s => rfl
  | object o =>
    simp only [hasValue, hasObject, decide_eq_true_eq] at hv ⊢
    exact lt_of_lt_of_le hv hobjects
  | collection c =>
    simp only [hasValue, decide_eq_true_eq] at hv ⊢
    exact lt_of_lt_of_le hv hcollections
  | command c =>
    simp only [hasValue, decide_eq_true_eq] at hv ⊢
    exact lt_of_lt_of_le hv hcommands

/-! ### Names -/

theorem edits_names (f : Table String ObjectId → Table String ObjectId)
    (f' : Table String CollectionId → Table String CollectionId)
    (f'' : Table String CommandId → Table String CommandId) : Edits (κ := κ) fun g => { g with
      objectNames := f g.objectNames, collectionNames := f' g.collectionNames,
      commandNames := f'' g.commandNames } where
  outline _ := rfl
  watchers _ := rfl
  trees _ := rfl
  next _ := rfl
  notifier g s := by cases s <;> rfl
  changes _ _ := rfl
  known g v hv := hasValue_of_size hv le_rfl le_rfl le_rfl

/-! ### Things that are made -/

theorem edits_newObject (name : String) {x : Object κ} (hx : x.notifier = {}) : Edits fun g : World κ => { g with
    objects := g.objects.push x
    objectNames := g.objectNames.set name g.objects.size } where
  outline g := by
    have hclear : ({ x with notifier := {} } : Object κ) = x := by rw [← hx]
    simp [outline, hclear]
  watchers _ := rfl
  trees _ := rfl
  next _ := rfl
  notifier g s := by
    cases s with
    | object o => exact getD_map_push g.objects x o hx
    | command c => rfl
  changes _ _ := rfl
  known g v hv := hasValue_of_size hv (by simp) le_rfl le_rfl

theorem edits_newCollection (name : String) {x : Collection κ} (hx : x.listeners = []) :
    Edits fun g : World κ => { g with
    collections := g.collections.push x
    collectionNames := g.collectionNames.set name g.collections.size } where
  outline g := by
    have hclear : ({ x with listeners := [] } : Collection κ) = x := by rw [← hx]
    simp [outline, hclear]
  watchers _ := rfl
  trees _ := rfl
  next _ := rfl
  notifier g s := by cases s <;> rfl
  changes g c := getD_map_push g.collections x c hx
  known g v hv := hasValue_of_size hv le_rfl (by simp) le_rfl

theorem edits_newCommand (f : Table String CommandId → CommandId → Table String CommandId) {x : Command κ}
    (hx : x.notifier = {}) : Edits fun g : World κ => { g with
      commands := g.commands.push x
      commandNames := f g.commandNames g.commands.size } where
  outline g := by
    have hclear : ({ x with notifier := {} } : Command κ) = x := by rw [← hx]
    simp [outline, hclear]
  watchers _ := rfl
  trees _ := rfl
  next _ := rfl
  notifier g s := by
    cases s with
    | object o => rfl
    | command c => exact getD_map_push g.commands x c hx
  changes _ _ := rfl
  known g v hv := hasValue_of_size hv le_rfl le_rfl (by simp)

/-! ### Things that change -/

theorem edits_modifyObject (o : ObjectId) {f : Object κ → Object κ} (hnotifier : ∀ x, (f x).notifier = x.notifier)
    (hclear : ∀ x, ({ f x with notifier := {} } : Object κ) = f { x with notifier := {} }) :
    Edits fun g : World κ => g.modifyObject o f where
  outline g := by
    have hmap : (g.objects.modify o f).map (fun x => ({ x with notifier := {} } : Object κ)) =
        (g.objects.map fun x => { x with notifier := {} }).modify o f := map_modify_comm g.objects o hclear
    simp only [outline, modifyObject, hmap]
  watchers _ := rfl
  trees _ := rfl
  next _ := rfl
  notifier g s := by
    cases s with
    | object i =>
      have hsame := map_getElem?_modify g.objects o i hnotifier
      exact congrArg (fun n : Option (Notifier (Listener κ)) => n.getD {}) hsame
    | command c => rfl
  changes _ _ := rfl
  known g v hv := hasValue_of_size hv (by simp [modifyObject]) le_rfl le_rfl

theorem edits_hooks (o : ObjectId) (f : List (String × κ) → List (String × κ)) :
    Edits fun g : World κ => g.modifyObject o fun x => { x with hooks := f x.hooks } :=
  edits_modifyObject o (fun _ => rfl) fun _ => rfl

theorem edits_store (o : ObjectId) (p : String) (v : Value) : Edits fun g : World κ => g.store o p v := by
  have hmodify : ∀ i, Edits fun g : World κ => g.modifyObject i fun x =>
      { x with properties := x.properties.set p v } :=
    fun i => edits_modifyObject i (fun _ => rfl) fun _ => rfl
  refine ⟨fun g => ?_, fun _ => rfl, fun _ => rfl, fun _ => rfl, fun g => (hmodify _).notifier g, fun _ _ => rfl,
    fun g => (hmodify _).known g⟩
  unfold store
  rw [holder_outline]
  exact (hmodify _).outline g

theorem edits_items (c : CollectionId) (items : List ObjectId) :
    Edits fun g : World κ => g.modifyCollection c fun x => { x with items } where
  outline g := by
    have hmap : (g.collections.modify c fun x => { x with items }).map
        (fun x => ({ x with listeners := [] } : Collection κ)) =
        (g.collections.map fun x => { x with listeners := [] }).modify c fun x => { x with items } :=
      map_modify_comm g.collections c fun _ => rfl
    simp only [outline, modifyCollection, hmap]
  watchers _ := rfl
  trees _ := rfl
  next _ := rfl
  notifier g s := by cases s <;> rfl
  changes g d := by
    have hsame : (g.collections.modify c fun x => { x with items })[d]?.map (·.listeners) =
        g.collections[d]?.map (·.listeners) := map_getElem?_modify g.collections c d fun _ => rfl
    exact congrArg (fun t : Option (Table SubscriptionId (ChangeListener κ)) => t.getD []) hsame
  known g v hv := hasValue_of_size hv le_rfl (by simp [modifyCollection]) le_rfl

theorem edits_enable (c : CommandId) (enabled : Bool) :
    Edits fun g : World κ => g.modifyCommand c fun x => { x with enabled } where
  outline g := by
    have hmap : (g.commands.modify c fun x => { x with enabled }).map
        (fun x => ({ x with notifier := {} } : Command κ)) =
        (g.commands.map fun x => { x with notifier := {} }).modify c fun x => { x with enabled } :=
      map_modify_comm g.commands c fun _ => rfl
    simp only [outline, modifyCommand, hmap]
  watchers _ := rfl
  trees _ := rfl
  next _ := rfl
  notifier g s := by
    cases s with
    | object o => rfl
    | command d =>
      have hsame : (g.commands.modify c fun x => { x with enabled })[d]?.map (·.notifier) =
          g.commands[d]?.map (·.notifier) := map_getElem?_modify g.commands c d fun _ => rfl
      exact congrArg (fun n : Option (Notifier (Listener κ)) => n.getD {}) hsame
  changes _ _ := rfl
  known g v hv := hasValue_of_size hv le_rfl le_rfl (by simp [modifyCommand])

end World
end LiveRules
