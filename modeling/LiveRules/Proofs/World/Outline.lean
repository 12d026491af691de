/-
# What watching does not touch

The outline of a world is the world without listeners, watchers and trees:
what objects hold and are based on, what collections contain, and what is
named. Everything that is read off objects is read off the outline, so it
does not change when somebody subscribes or is bound.

In a `Sane` world no hook is due, bases are older, and what is held exists.
There the object that answers for a property is found by asking the object
itself and then its base.

Key definitions: `World.outline`, `World.home`, `World.Sane`.
Key theorems: `World.memberValue_congr`, `World.home_congr`,
`World.Sane.holder_eq`, `World.Sane.home_mem_reach`.
-/
import LiveRules.Machine.Step
import Mathlib.Data.List.Nodup
import Mathlib.Tactic

namespace LiveRules
namespace World

variable {κ : Type}

def outline (g : World κ) : World κ :=
  { g with
    objects := g.objects.map fun x => { x with notifier := {} }
    collections := g.collections.map fun x => { x with listeners := [] }
    commands := g.commands.map fun x => { x with notifier := {} }
    watchers := #[]
    trees := #[]
    nextSubscription := 0 }

/-- Where a subscription to a property is entered when it is made through `s`. -/
def home (g : World κ) (s : Subject) (property : String) : Subject :=
  match s with
  | .object o => .object (g.holder o property)
  | .command c => .command c

/-! ### Read off the outline -/

section

variable (g : World κ)

theorem baseOf_outline (o : ObjectId) : g.outline.baseOf o = g.baseOf o := by
  simp only [baseOf, outline, Array.getElem?_map, Option.bind_map]
  rfl

theorem chain_outline (n : Nat) (o : ObjectId) : g.outline.chain n o = g.chain n o := by
  induction n generalizing o with
  | zero => rfl
  | succ n ih => simp only [chain, baseOf_outline, ih]

theorem answersFor_outline (property : String) (o : ObjectId) :
    g.outline.answersFor property o = g.answersFor property o := by
  simp only [answersFor, outline, Array.getElem?_map]
  cases g.objects[o]? <;> rfl

theorem holder_outline (o : ObjectId) (property : String) :
    g.outline.holder o property = g.holder o property := by
  have h : g.outline.answersFor property = g.answersFor property :=
    funext fun o => g.answersFor_outline property o
  simp only [holder, lineage, chain_outline, h]

theorem read_outline (o : ObjectId) (property : String) :
    g.outline.read o property = g.read o property := by
  unfold read
  rw [holder_outline]
  simp only [ownValue, outline, Array.getElem?_map, Option.bind_map]
  rfl

theorem memberValue_outline (s : Subject) (property : String) :
    g.outline.memberValue s property = g.memberValue s property := by
  cases s with
  | object o => exact g.read_outline o property
  | command c => rfl

theorem itemsOf_outline (c : CollectionId) : g.outline.itemsOf c = g.itemsOf c := by
  simp only [itemsOf, outline, Array.getElem?_map, Option.map_map]
  rfl

theorem listOf_outline (c : CollectionId) : g.outline.listOf c = g.listOf c := by
  simp only [listOf, outline, Array.getElem?_map, Option.bind_map]
  rfl

theorem hasValue_outline (v : Value) : g.outline.hasValue v = g.hasValue v := by
  cases v <;> simp [hasValue, hasObject, outline]

theorem home_outline (s : Subject) (property : String) : g.outline.home s property = g.home s property := by
  cases s with
  | object o => simp only [home, holder_outline]
  | command c => rfl

theorem reach_outline (s : Subject) : g.outline.reach s = g.reach s := by
  cases s with
  | object o => simp only [reach, lineage, chain_outline]
  | command c => rfl

end

section

variable (g : World κ) (commands : Array (Command κ))

theorem chain_commands (n : Nat) (o : ObjectId) : ({ g with commands } : World κ).chain n o = g.chain n o := by
  induction n generalizing o with
  | zero => rfl
  | succ n ih =>
    simp only [chain, ih]
    rfl

theorem holder_commands (o : ObjectId) (p : String) : ({ g with commands } : World κ).holder o p = g.holder o p := by
  simp only [holder, lineage, chain_commands]
  rfl

/-- Commands do not matter to what is read. -/
theorem read_commands (o : ObjectId) (p : String) : ({ g with commands } : World κ).read o p = g.read o p := by
  simp only [read, holder_commands]
  rfl

end

section

variable {g g' : World κ} (h : g.outline = g'.outline)

include h

theorem read_congr (o : ObjectId) (property : String) : g.read o property = g'.read o property := by
  rw [← read_outline, h, read_outline]

theorem memberValue_congr (s : Subject) (property : String) :
    g.memberValue s property = g'.memberValue s property := by
  rw [← memberValue_outline, h, memberValue_outline]

theorem itemsOf_congr (c : CollectionId) : g.itemsOf c = g'.itemsOf c := by
  rw [← itemsOf_outline, h, itemsOf_outline]

theorem listOf_congr (c : CollectionId) : g.listOf c = g'.listOf c := by
  rw [← listOf_outline, h, listOf_outline]

theorem hasValue_congr (v : Value) : g.hasValue v = g'.hasValue v := by
  rw [← hasValue_outline, h, hasValue_outline]

theorem home_congr (s : Subject) (property : String) : g.home s property = g'.home s property := by
  rw [← home_outline, h, home_outline]

theorem reach_congr (s : Subject) : g.reach s = g'.reach s := by
  rw [← reach_outline, h, reach_outline]

theorem baseOf_congr (o : ObjectId) : g.baseOf o = g'.baseOf o := by
  rw [← baseOf_outline, h, baseOf_outline]

end

theorem itemsOf_of_listOf {g : World κ} {c : CollectionId} {items : List ObjectId}
    (h : g.listOf c = some items) : g.itemsOf c = items := by
  unfold listOf at h
  unfold itemsOf
  cases hx : g.collections[c]? with
  | none => simp [hx] at h
  | some x =>
    simp only [hx, Option.bind_some] at h
    split at h
    · cases h
    · exact Option.some.inj h

/-- The members of a collection that keeps its own account exist. -/
theorem hasObject_of_listOf {g : World κ} (hitems : ∀ c, ∀ o ∈ g.itemsOf c, g.hasObject o = true) {c : CollectionId}
    {items : List ObjectId} (h : g.listOf c = some items) : ∀ o ∈ items, g.hasObject o = true := by
  rw [← itemsOf_of_listOf h]
  exact hitems c

/-! ### Changes that leave the outline -/

theorem map_modify_eq {α β : Type} (a : Array α) (i : Nat) (f : α → α) (h : α → β)
    (hf : ∀ x, h (f x) = h x) : (a.modify i f).map h = a.map h := by
  apply Array.ext_getElem?
  intro j
  simp only [Array.getElem?_map, Array.getElem?_modify]
  split
  · cases a[j]? <;> simp [hf]
  · rfl

theorem modifyNotifier_outline (g : World κ) (s : Subject)
    (f : Notifier (Listener κ) → Notifier (Listener κ)) : (g.modifyNotifier s f).outline = g.outline := by
  cases s with
  | object o =>
    have := map_modify_eq g.objects o (fun x => { x with notifier := f x.notifier })
      (fun x => { x with notifier := {} }) fun x => rfl
    simp only [modifyNotifier, modifyObject, outline, this]
  | command c =>
    have := map_modify_eq g.commands c (fun x => { x with notifier := f x.notifier })
      (fun x => { x with notifier := {} }) fun x => rfl
    simp only [modifyNotifier, modifyCommand, outline, this]

theorem enterListener_outline (g : World κ) (s : Subject) (property : String) (l : Listener κ) :
    (g.enterListener s property l).outline = g.outline := by
  have := g.modifyNotifier_outline s (·.subscribe property g.nextSubscription l)
  exact this

theorem unsubscribe_outline (g : World κ) (s : Subject) (id : SubscriptionId) :
    (g.unsubscribe s id).outline = g.outline := by
  unfold unsubscribe
  generalize g.reach s = ss
  induction ss generalizing g with
  | nil => rfl
  | cons s ss ih => rw [List.foldl_cons, ih, modifyNotifier_outline]

theorem modifyCollection_outline (g : World κ) (c : CollectionId)
    (f : Table SubscriptionId (ChangeListener κ) → Table SubscriptionId (ChangeListener κ)) :
    (g.modifyCollection c fun x => { x with listeners := f x.listeners }).outline = g.outline := by
  have := map_modify_eq g.collections c (fun x => { x with listeners := f x.listeners })
    (fun x => ({ x with listeners := [] } : Collection κ)) fun x => rfl
  simp only [modifyCollection, outline, this]

theorem enterChangeListener_outline (g : World κ) (c : CollectionId) (l : ChangeListener κ) :
    (g.enterChangeListener c l).outline = g.outline :=
  g.modifyCollection_outline c fun t => t.set g.nextSubscription l

theorem unsubscribeChanges_outline (g : World κ) (c : CollectionId) (id : SubscriptionId) :
    (g.unsubscribeChanges c id).outline = g.outline :=
  g.modifyCollection_outline c fun t => t.erase id

theorem release_outline (g : World κ) (w : WatcherId) : (g.release w).outline = g.outline := by
  unfold release
  split
  · rename_i plan site b _
    generalize hg : ({ g with watchers := g.watchers.setIfInBounds w (.object plan site none) } : World κ) = g₀
    have h₀ : g₀.outline = g.outline := by rw [← hg]; rfl
    rw [← h₀]
    clear hg h₀
    induction b.subscriptions generalizing g₀ with
    | nil => rfl
    | cons id ids ih => rw [List.foldl_cons, ih, unsubscribe_outline]
  · exact unsubscribeChanges_outline ..
  · rfl

theorem unbind_outline (g : World κ) (w : WatcherId) : (g.unbind w).outline = g.outline := by
  unfold unbind
  generalize g.nodes w = ws
  induction ws generalizing g with
  | nil => rfl
  | cons w ws ih => rw [List.foldl_cons, ih, release_outline]

theorem bindObject_outline (g : World κ) (w : WatcherId) (b : BoundObject) :
    (g.bindObject w b).outline = g.outline := rfl

theorem bindCollection_outline (g : World κ) (w : WatcherId) (b : BoundCollection) :
    (g.bindCollection w b).outline = g.outline := rfl

theorem addWatcher_outline (g : World κ) (w : Watcher κ) : (g.addWatcher w).outline = g.outline := rfl

theorem modifyTree_outline (g : World κ) (t : TreeId) (f : Tree κ → Tree κ) :
    (g.modifyTree t f).outline = g.outline := rfl

theorem dispose_outline (g : World κ) (t : TreeId) : (g.dispose t).outline = g.outline := by
  unfold dispose
  split
  · rw [unbind_outline, modifyTree_outline]
  · rfl

/-! ### Sane worlds -/

/-- No hook is due, bases are older, and what is held exists. -/
structure Sane (g : World κ) : Prop where
  unhooked : ∀ (o : ObjectId) (x : Object κ), g.objects[o]? = some x → x.hooks = []
  older : ∀ o b, g.baseOf o = some b → b < o
  values : ∀ (o : ObjectId) (x : Object κ), g.objects[o]? = some x → ∀ e ∈ x.properties, g.hasValue e.2 = true
  items : ∀ c, ∀ o ∈ g.itemsOf c, g.hasObject o = true

theorem Sane.congr {g g' : World κ} (hg : g.Sane) (h : g'.outline = g.outline) : g'.Sane := by
  have hobj : ∀ (o : ObjectId) (x : Object κ), g'.objects[o]? = some x →
      ∃ y : Object κ, g.objects[o]? = some y ∧ x.hooks = y.hooks ∧ x.properties = y.properties := by
    intro o x hx
    have hmap : g'.outline.objects[o]? = g.outline.objects[o]? := by rw [h]
    simp only [outline, Array.getElem?_map, hx, Option.map_some] at hmap
    obtain ⟨y, hy, hxy⟩ := Option.map_eq_some_iff.mp hmap.symm
    refine ⟨y, hy, ?_⟩
    simp only [Object.mk.injEq] at hxy
    exact ⟨hxy.2.2.2.2.2.symm, hxy.2.1.symm⟩
  refine ⟨fun o x hx => ?_, fun o b hb => hg.older o b (by rw [← baseOf_congr h]; exact hb),
    fun o x hx e he => ?_, fun c o ho => ?_⟩
  · obtain ⟨y, hy, hh, -⟩ := hobj o x hx
    rw [hh]
    exact hg.unhooked o y hy
  · obtain ⟨y, hy, -, hp⟩ := hobj o x hx
    rw [hasValue_congr h]
    exact hg.values o y hy e (hp ▸ he)
  · rw [itemsOf_congr h] at ho
    have := hasValue_congr h (.object o)
    exact this.trans (hg.items c o ho)

theorem answersFor_of_baseOf_none {g : World κ} {o : ObjectId} {property : String} (h : g.baseOf o = none) :
    g.answersFor property o = true := by
  unfold answersFor
  unfold baseOf at h
  cases hx : g.objects[o]? with
  | none => rfl
  | some x => simp_all

section

variable {g : World κ} (hg : g.Sane)

include hg

/-- A base is older, so going from base to base ends by itself. -/
theorem Sane.chain_eq {n m : Nat} {o : ObjectId} (hn : o ≤ n) (hm : o ≤ m) : g.chain n o = g.chain m o := by
  induction n generalizing m o with
  | zero =>
    obtain rfl : o = 0 := Nat.le_zero.mp hn
    cases m with
    | zero => rfl
    | succ m =>
      unfold chain
      cases hb : g.baseOf 0 with
      | none => rfl
      | some b => exact absurd (hg.older 0 b hb) (Nat.not_lt_zero b)
  | succ n ih =>
    unfold chain
    cases hb : g.baseOf o with
    | none => cases m <;> simp [hb]
    | some b =>
      have hlt : b < o := hg.older o b hb
      cases m with
      | zero => exact absurd hlt (by have := Nat.le_zero.mp hm; subst this; exact Nat.not_lt_zero b)
      | succ m =>
        simp only [hb]
        rw [ih (m := m) (Nat.le_of_lt_succ (lt_of_lt_of_le hlt hn)) (Nat.le_of_lt_succ (lt_of_lt_of_le hlt hm))]

theorem Sane.lineage_eq (o : ObjectId) :
    g.lineage o = o :: (match g.baseOf o with | some b => g.lineage b | none => []) := by
  unfold lineage
  cases o with
  | zero =>
    unfold chain
    cases hb : g.baseOf 0 with
    | none => rfl
    | some b => exact absurd (hg.older 0 b hb) (Nat.not_lt_zero b)
  | succ o =>
    rw [chain]
    cases hb : g.baseOf (o + 1) with
    | none => rfl
    | some b =>
      simp only
      rw [hg.chain_eq (m := b) (Nat.le_of_lt_succ (hg.older _ b hb)) (le_refl b)]

/-- Who answers for a property: the object itself, or whoever does so for its base. -/
theorem Sane.holder_eq (o : ObjectId) (property : String) :
    g.holder o property =
      if g.answersFor property o = true then o
      else match g.baseOf o with
        | some b => g.holder b property
        | none => o := by
  unfold holder
  rw [hg.lineage_eq o]
  by_cases ha : g.answersFor property o = true
  · simp [ha]
  · rw [if_neg ha, List.find?_cons_of_neg (by simpa using ha)]
    cases hb : g.baseOf o with
    | none => exact absurd (answersFor_of_baseOf_none hb) ha
    | some b =>
      simp only
      -- somebody in the lineage of the base answers, so the default does not matter
      have hsome : ∀ n b, b ≤ n → ∃ c, (g.lineage b).find? (g.answersFor property) = some c := by
        intro n
        induction n with
        | zero =>
          intro b hb'
          have h0 : g.baseOf b = none := by
            cases hb'' : g.baseOf b with
            | none => rfl
            | some c =>
              exact absurd (lt_of_lt_of_le (hg.older b c hb'') hb') (Nat.not_lt_zero c)
          rw [hg.lineage_eq b]
          exact ⟨b, by simp [answersFor_of_baseOf_none h0]⟩
        | succ n ih =>
          intro b hb'
          rw [hg.lineage_eq b]
          by_cases hab : g.answersFor property b = true
          · exact ⟨b, by simp [hab]⟩
          · rw [List.find?_cons_of_neg (by simpa using hab)]
            cases hbb : g.baseOf b with
            | none => exact absurd (answersFor_of_baseOf_none hbb) hab
            | some c =>
              exact ih c (Nat.le_of_lt_succ (lt_of_lt_of_le (hg.older b c hbb) hb'))
      obtain ⟨c, hc⟩ := hsome b b (le_refl b)
      rw [hc]
      rfl

theorem Sane.holder_mem_lineage (o : ObjectId) (property : String) :
    g.holder o property ∈ g.lineage o := by
  unfold holder
  cases h : (g.lineage o).find? (g.answersFor property) with
  | none =>
    rw [hg.lineage_eq o]
    exact List.mem_cons_self
  | some c => exact List.mem_of_find?_eq_some h

theorem Sane.home_mem_reach (s : Subject) (property : String) : g.home s property ∈ g.reach s := by
  cases s with
  | object o => exact List.mem_map_of_mem (hg.holder_mem_lineage o property)
  | command c => exact List.mem_singleton_self _

/-- What a watcher sees in a property exists. -/
theorem Sane.hasValue_memberValue (s : Subject) (property : String) :
    g.hasValue (g.memberValue s property) = true := by
  cases s with
  | command c => rfl
  | object o =>
    unfold memberValue read ownValue
    simp only
    cases hx : g.objects[g.holder o property]? with
    | none => rfl
    | some x =>
      simp only [Option.bind_some]
      cases hv : x.properties.get? property with
      | none => rfl
      | some v =>
        obtain ⟨e, he, hev⟩ : ∃ e ∈ x.properties, e.2 = v := Table.exists_of_get? hv
        exact hev ▸ hg.values _ x hx e he

/-- Everything an object is based on exists if it does. -/
theorem Sane.hasObject_lineage {o b : ObjectId} (ho : g.hasObject o = true) (hb : b ∈ g.lineage o) :
    g.hasObject b = true := by
  induction o using Nat.strong_induction_on with
  | _ o ih =>
    rw [hg.lineage_eq o, List.mem_cons] at hb
    rcases hb with rfl | hb
    · exact ho
    · cases hbase : g.baseOf o with
      | none => simp [hbase] at hb
      | some c =>
        simp only [hbase] at hb
        have hlt := hg.older o c hbase
        refine ih c hlt ?_ hb
        simp only [hasObject, decide_eq_true_eq] at ho ⊢
        exact lt_trans hlt ho

theorem Sane.hasValue_home {s : Subject} (hs : g.hasValue s.value = true) (property : String) :
    g.hasValue (g.home s property).value = true := by
  cases s with
  | object o => exact hg.hasObject_lineage hs (hg.holder_mem_lineage o property)
  | command c => exact hs

end

end World
end LiveRules
