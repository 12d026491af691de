/-
# Worlds without hooks

Hooks are of no concern to anything but subscribing: what can be read, who is told and
what a collection holds is the same without them. So a world with hooks is looked at
through one that has none, and in which the watchers may be others.

Key definitions: `World.dressed`, `World.unhooked`.
-/
import LiveRules.Proofs.World.Listeners

namespace LiveRules

variable {κ : Type}

theorem map_modify_comm {α β : Type} (a : Array α) (i : Nat) {f : α → α} {f' : β → β} {c : α → β}
    (h : ∀ x, c (f x) = f' (c x)) : (a.modify i f).map c = (a.map c).modify i f' := by
  apply Array.ext_getElem?
  intro j
  simp only [Array.getElem?_map, Array.getElem?_modify]
  split
  · cases a[j]? <;> simp [h]
  · rfl

theorem setIfInBounds_eq_modify {α : Type} (a : Array α) (i : Nat) (x : α) :
    a.setIfInBounds i x = a.modify i fun _ => x := by
  apply Array.ext_getElem?
  intro j
  rw [Array.getElem?_modify, Array.getElem?_setIfInBounds]
  split
  · rename_i hij
    subst hij
    split
    · rename_i hlt
      rw [Array.getElem?_eq_getElem hlt, Option.map_some]
    · rename_i hlt
      rw [Array.getElem?_eq_none (Nat.le_of_not_lt hlt), Option.map_none]
  · rfl

/-- The object without the code that is due on subscriptions. -/
def Object.unhooked (x : Object κ) : Object κ :=
  { x with hooks := [] }

namespace World

/-- The world without hooks, and with these watchers. -/
def dressed (g : World κ) (watchers : Array (Watcher κ)) : World κ :=
  { g with objects := g.objects.map Object.unhooked, watchers }

def unhooked (g : World κ) : World κ :=
  g.dressed g.watchers

section

variable (g : World κ) (watchers : Array (Watcher κ))

theorem baseOf_dressed (o : ObjectId) : (g.dressed watchers).baseOf o = g.baseOf o := by
  simp only [baseOf, dressed, Array.getElem?_map, Option.bind_map]
  rfl

theorem answersFor_dressed (p : String) (o : ObjectId) : (g.dressed watchers).answersFor p o = g.answersFor p o := by
  simp only [answersFor, dressed, Array.getElem?_map]
  cases g.objects[o]? <;> rfl

theorem lineage_dressed (o : ObjectId) : (g.dressed watchers).lineage o = g.lineage o := by
  have hchain : ∀ n o, (g.dressed watchers).chain n o = g.chain n o := by
    intro n
    induction n with
    | zero => exact fun o => rfl
    | succ n ih => exact fun o => by simp only [chain, baseOf_dressed, ih]
  exact hchain o o

theorem holder_dressed (o : ObjectId) (p : String) : (g.dressed watchers).holder o p = g.holder o p := by
  have hanswers : (g.dressed watchers).answersFor p = g.answersFor p := funext (g.answersFor_dressed watchers p)
  simp only [holder, lineage_dressed, hanswers]

theorem ownValue_dressed (o : ObjectId) (p : String) : (g.dressed watchers).ownValue o p = g.ownValue o p := by
  simp only [ownValue, dressed, Array.getElem?_map, Option.bind_map]
  rfl

theorem read_dressed (o : ObjectId) (p : String) : (g.dressed watchers).read o p = g.read o p := by
  simp only [read, holder_dressed, ownValue_dressed]

theorem memberValue_dressed (s : Subject) (p : String) : (g.dressed watchers).memberValue s p = g.memberValue s p := by
  cases s with
  | object o => exact g.read_dressed watchers o p
  | command c => rfl

theorem home_dressed (s : Subject) (p : String) : (g.dressed watchers).home s p = g.home s p := by
  cases s with
  | object o => simp only [home, holder_dressed]
  | command c => rfl

theorem reach_dressed (s : Subject) : (g.dressed watchers).reach s = g.reach s := by
  cases s with
  | object o => simp only [reach, lineage_dressed]
  | command c => rfl

theorem notifierOf_dressed (s : Subject) : (g.dressed watchers).notifierOf s = g.notifierOf s := by
  cases s with
  | object o =>
    simp only [notifierOf, dressed, Array.getElem?_map, Option.map_map]
    rfl
  | command c => rfl

theorem listeners_dressed (s : Subject) (p : String) : (g.dressed watchers).listeners s p = g.listeners s p := by
  simp only [listeners, notifierOf_dressed]

theorem hasObject_dressed (o : ObjectId) : (g.dressed watchers).hasObject o = g.hasObject o := by
  simp [hasObject, dressed]

theorem hasValue_dressed (v : Value) : (g.dressed watchers).hasValue v = g.hasValue v := by
  cases v with
  | object o => exact g.hasObject_dressed watchers o
  | _ => rfl

theorem itemsOf_dressed (c : CollectionId) : (g.dressed watchers).itemsOf c = g.itemsOf c := rfl

theorem dressed_modifyObject (o : ObjectId) {f : Object κ → Object κ} (hf : ∀ x, (f x).unhooked = f x.unhooked) :
    (g.modifyObject o f).dressed watchers = (g.dressed watchers).modifyObject o f := by
  simp only [dressed, modifyObject, map_modify_comm _ o hf]

theorem dressed_modifyNotifier (s : Subject) (f : Notifier (Listener κ) → Notifier (Listener κ)) :
    (g.modifyNotifier s f).dressed watchers = (g.dressed watchers).modifyNotifier s f := by
  cases s with
  | object o => exact g.dressed_modifyObject watchers o fun x => rfl
  | command c => rfl

theorem dressed_enterListener (s : Subject) (p : String) (l : Listener κ) :
    (g.enterListener s p l).dressed watchers = (g.dressed watchers).enterListener s p l := by
  have h := g.dressed_modifyNotifier watchers s (·.subscribe p g.nextSubscription l)
  exact congrArg (fun g' : World κ => { g' with nextSubscription := g.nextSubscription + 1 }) h

theorem dressed_unsubscribe (s : Subject) (id : SubscriptionId) :
    (g.unsubscribe s id).dressed watchers = (g.dressed watchers).unsubscribe s id := by
  unfold unsubscribe
  rw [reach_dressed]
  generalize g.reach s = ss
  induction ss generalizing g with
  | nil => rfl
  | cons s ss ih => rw [List.foldl_cons, List.foldl_cons, ih, dressed_modifyNotifier]

theorem dressed_store (o : ObjectId) (p : String) (v : Value) :
    (g.store o p v).dressed watchers = (g.dressed watchers).store o p v := by
  unfold store
  rw [holder_dressed]
  exact g.dressed_modifyObject watchers _ fun x => rfl

end

theorem outline_dressed {g g' : World κ} (h : g'.outline = g.outline) (ws ws' : Array (Watcher κ)) :
    (g'.dressed ws').outline = (g.dressed ws).outline := by
  have hobjects := congrArg World.objects h
  have hclear : ∀ g : World κ, (g.objects.map Object.unhooked).map (fun x => { x with notifier := {} }) =
      (g.objects.map fun x => { x with notifier := {} }).map Object.unhooked := by
    intro g
    rw [Array.map_map, Array.map_map]
    rfl
  have hdressed : ∀ (g : World κ) ws, (g.dressed ws).outline =
      { g.outline with objects := g.outline.objects.map Object.unhooked } := by
    intro g ws
    simp only [outline, dressed, hclear]
  rw [hdressed, hdressed, h]

theorem dressed_hooks (g : World κ) (o : ObjectId) (f : List (String × κ) → List (String × κ))
    (ws : Array (Watcher κ)) :
    (g.modifyObject o fun x => { x with hooks := f x.hooks }).dressed ws = g.dressed ws := by
  have hobjects : (g.objects.modify o fun x => { x with hooks := f x.hooks }).map Object.unhooked =
      g.objects.map Object.unhooked := map_modify_eq g.objects o _ Object.unhooked fun x => rfl
  simp only [dressed, modifyObject, hobjects]

theorem takeHook_eq {g g' : World κ} {o : ObjectId} {p : String} {k : κ} (h : g.takeHook o p = some (k, g')) :
    ∃ i, g' = g.modifyObject o fun x => { x with hooks := x.hooks.eraseIdx i } := by
  unfold takeHook at h
  simp only [Option.bind_eq_bind, Option.bind_eq_some_iff, Option.pure_def, Option.some.injEq, Prod.mk.injEq] at h
  obtain ⟨x, -, i, -, e, -, -, rfl⟩ := h
  exact ⟨i, rfl⟩

theorem takeHook_watchers {g g' : World κ} {o : ObjectId} {p : String} {k : κ} (h : g.takeHook o p = some (k, g')) :
    g'.watchers = g.watchers := by
  obtain ⟨i, rfl⟩ := takeHook_eq h
  rfl

/-- Taking a hook off its object leaves the world that has none. -/
theorem dressed_takeHook {g g' : World κ} {o : ObjectId} {p : String} {k : κ} (h : g.takeHook o p = some (k, g'))
    (ws : Array (Watcher κ)) : g'.dressed ws = g.dressed ws := by
  obtain ⟨i, rfl⟩ := takeHook_eq h
  exact dressed_hooks g o (fun hooks => hooks.eraseIdx i) ws

end World
end LiveRules
