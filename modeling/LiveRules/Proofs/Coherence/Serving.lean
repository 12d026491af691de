/-
# Who fires a rule

A rule is on the list of every property and every collection that one of its paths
leads through. So when anything along the path changes, whoever watches it there
fires the rule. And whatever fires somewhere in a tree fires above as well: what is
released when a value is followed anew is made up for by the batch that follows.

Key definitions: `Plan.Cumulative`, `Watcher.Fires`, `Watcher.Serves`.
Key theorems: `Forest.cumulative_compile`, `Forest.serves_compile`,
`World.Grown.fires_under`, `Kept.serves`.
-/
import LiveRules.Proofs.Graph.Compiled

namespace LiveRules

/-! ### Lists of a plan -/

namespace Plan

variable {α : Type}

/-- `e` fires at one of the properties. -/
def Fires (p : Plan α) (e : α) : Prop :=
  ∃ i n batch, p.place? i = some (n, batch) ∧ e ∈ batch

/-- Whatever fires below a property fires at the property. -/
def Cumulative : Plan α → Prop
  | .nil => True
  | .value _ _ next => next.Cumulative
  | .object _ fire inside next => (∀ e, inside.Fires e → e ∈ fire) ∧ inside.Cumulative ∧ next.Cumulative
  | .collection _ fire membership item next =>
    ((∀ e ∈ membership, e ∈ fire) ∧ ∀ e, item.Fires e → e ∈ membership) ∧ item.Cumulative ∧ next.Cumulative

end Plan

/-! ### Lists of a watcher -/

variable {κ : Type}

namespace Watcher

/-- `e` is on a list of the watcher. -/
def Fires : Watcher κ → ActionId × Action κ → Prop
  | .object plan _ _, e => plan.Fires e
  | .collection _ membership _ _, e => e ∈ membership

def Cumulative : Watcher κ → Prop
  | .object plan _ _ => plan.Cumulative
  | .collection item membership _ _ => (∀ e, item.Fires e → e ∈ membership) ∧ item.Cumulative

/-- From what the watcher is bound to, `e` is on the list of everything that the word
leads through. -/
def Serves (e : ActionId × Action κ) : List Label → Watcher κ → Prop
  | [], _ => True
  | .field n :: w, x => ∃ plan site bound i batch, x = .object plan site bound ∧
      plan.place? i = some (n, batch) ∧ e ∈ batch ∧ (w ≠ [] → ∃ y, plan.post? site i = some y ∧ y.Serves e w)
  | .member :: w, x => ∃ item membership site bound, x = .collection item membership site bound ∧
      e ∈ membership ∧ (object item site none).Serves e w

theorem fires_dormant (x : Watcher κ) (e : ActionId × Action κ) : x.dormant.Fires e ↔ x.Fires e := by
  cases x <;> exact Iff.rfl

theorem cumulative_dormant (x : Watcher κ) : x.dormant.Cumulative ↔ x.Cumulative := by
  cases x <;> exact Iff.rfl

theorem serves_dormant {x y : Watcher κ} (h : x.dormant = y.dormant) {e : ActionId × Action κ} {w : List Label}
    (hx : x.Serves e w) : y.Serves e w := by
  cases w with
  | nil => trivial
  | cons k w =>
    cases k with
    | field n =>
      obtain ⟨plan, site, bound, i, batch, rfl, hplace⟩ := hx
      cases y with
      | collection => cases h
      | object plan' site' bound' =>
        cases h
        exact ⟨plan, site, bound', i, batch, rfl, hplace⟩
    | member =>
      obtain ⟨item, membership, site, bound, rfl, hserves⟩ := hx
      cases y with
      | object => cases h
      | collection item' membership' site' bound' =>
        cases h
        exact ⟨item, membership, site, bound', rfl, hserves⟩

/-- A watcher that serves a word watches something. -/
theorem Serves.isNil_eq_false {plan : WatchPlan κ} {site : Attachment} {bound : Option BoundObject}
    {e : ActionId × Action κ} {k : Label} {w : List Label} (h : (object plan site bound).Serves e (k :: w)) :
    plan.isNil = false := by
  cases k with
  | member =>
    obtain ⟨item, membership, site', bound', heq, -⟩ := h
    cases heq
  | field n =>
    obtain ⟨plan', site', bound', i, batch, heq, hplace, -⟩ := h
    cases heq
    cases plan with
    | nil => cases hplace
    | _ => rfl

end Watcher

/-- What is posted at a property fires at the property. -/
theorem Plan.Cumulative.post {site : Attachment} {y : Watcher κ} {n : String} {batch : Batch κ} {p : WatchPlan κ}
    {i : Nat} (hp : p.Cumulative) (hplace : p.place? i = some (n, batch)) (hpost : p.post? site i = some y) :
    y.Cumulative ∧ ∀ e, y.Fires e → e ∈ batch := by
  induction p generalizing i with
  | nil => cases hplace
  | value m fire next ih =>
    cases i with
    | zero => cases hpost
    | succ i => exact ih hp hplace hpost
  | object m fire inside next _ ih =>
    cases i with
    | zero =>
      cases hplace
      cases hpost
      exact ⟨hp.2.1, hp.1⟩
    | succ i => exact ih hp.2.2 hplace hpost
  | collection m fire membership item next _ ih =>
    cases i with
    | zero =>
      cases hplace
      cases hpost
      exact ⟨⟨hp.1.2, hp.2.1⟩, hp.1.1⟩
    | succ i => exact ih hp.2.2 hplace hpost

/-! ### Lists of a forest's plan -/

namespace Forest

section

variable {α : Type} {resolve : ActionId → Option α}

theorem mem_fireList {as : List ActionId} {below : Forest} {e : α} :
    e ∈ fireList resolve as below ↔ ∃ a ∈ unionIds as below.gather, resolve a = some e :=
  List.mem_filterMap

/-- What fires in a plan is recorded in the forest it was compiled from. -/
theorem recorded_of_fires {e : α} {f : Forest} (h : (f.compile resolve).Fires e) :
    ∃ a ∈ f.gather, resolve a = some e := by
  induction f with
  | nil =>
    obtain ⟨i, n, batch, hplace, -⟩ := h
    cases hplace
  | node l as below next ihb ihn =>
    simp only [gather, mem_unionIds]
    cases l with
    | member =>
      obtain ⟨a, ha, he⟩ := ihb h
      exact ⟨a, Or.inr (Or.inl ha), he⟩
    | field m =>
      obtain ⟨i, n, batch, hplace, hmem⟩ := h
      cases i with
      | zero =>
        rw [place?_compile_zero] at hplace
        cases hplace
        obtain ⟨a, ha, he⟩ := mem_fireList.mp hmem
        exact ⟨a, (mem_unionIds.mp ha).imp id Or.inl, he⟩
      | succ i =>
        rw [place?_compile_succ] at hplace
        obtain ⟨a, ha, he⟩ := ihn ⟨i, n, batch, hplace, hmem⟩
        exact ⟨a, Or.inr (Or.inr ha), he⟩

/-- **A forest's plan** has on the list of a property all that fires below. -/
theorem cumulative_compile (resolve : ActionId → Option α) (f : Forest) : (f.compile resolve).Cumulative := by
  induction f with
  | nil => trivial
  | node l as below next ihb ihn =>
    cases l with
    | member => exact ihb
    | field m =>
      have habove : ∀ e, (below.compile resolve).Fires e → e ∈ fireList resolve as below := by
        intro e he
        obtain ⟨a, ha, hresolve⟩ := recorded_of_fires he
        exact mem_fireList.mpr ⟨a, mem_unionIds.mpr (Or.inr ha), hresolve⟩
      cases below with
      | nil => exact ihn
      | node k bs inside nx =>
        cases k with
        | field q => exact ⟨habove, ihb, ihn⟩
        | member =>
          refine ⟨⟨fun e he => ?_, fun e he => ?_⟩, ihb, ihn⟩
          · obtain ⟨a, ha, hresolve⟩ := mem_fireList.mp he
            refine mem_fireList.mpr ⟨a, ?_, hresolve⟩
            simp only [gather, mem_unionIds] at ha ⊢
            exact Or.inr (ha.imp id Or.inl)
          · obtain ⟨a, ha, hresolve⟩ := recorded_of_fires (f := inside) he
            exact mem_fireList.mpr ⟨a, mem_unionIds.mpr (Or.inr ha), hresolve⟩

end

variable (resolve : ActionId → Option (ActionId × Action κ)) (site : Attachment)

/-- What a forest below a property posts at the property. -/
def poster : Forest → Option (Watcher κ)
  | .nil => none
  | .node .member bs item _ => some (.collection (item.compile resolve) (fireList resolve bs item) site none)
  | .node (.field n) as below next => some (.object ((node (.field n) as below next).compile resolve) site none)

/-- A label of the forest has a place in its plan. -/
theorem exists_place {f : Forest} (hf : f.Open) {n : String} {as : List ActionId} {below : Forest}
    (h : f.tree? (.field n) = some (as, below)) :
    ∃ i, (f.compile resolve).place? i = some (n, fireList resolve as below) ∧
      (f.compile resolve).post? site i = below.poster resolve site := by
  induction f with
  | nil => cases h
  | node l bs inside next _ ihn =>
    cases l with
    | member => exact absurd List.mem_cons_self hf.2
    | field m =>
      rw [tree?] at h
      by_cases hmn : Label.field m = .field n
      · rw [if_pos hmn] at h
        cases h
        cases hmn
        refine ⟨0, place?_compile_zero n as below next, ?_⟩
        cases below with
        | nil => rfl
        | node k cs item nx => cases k <;> rfl
      · rw [if_neg hmn] at h
        obtain ⟨i, hplace, hpost⟩ := ihn hf.next h
        exact ⟨i + 1, by rw [place?_compile_succ, hplace], by rw [post?_compile_succ, hpost]⟩

variable {resolve}

/-- The forest that leads along a word has a tree for its first label. -/
theorem exists_tree {f : Forest} {k : Label} {w : List Label} {a : ActionId} (ha : a ∈ f.actionsAt k w) :
    ∃ as below, f.tree? k = some (as, below) := by
  cases h : f.tree? k with
  | some r => exact ⟨r.1, r.2, rfl⟩
  | none =>
    rw [actionsAt_of_not_mem (tree?_eq_none.mp h)] at ha
    cases ha

/-- **Along a word** that an action is recorded at, the plan has it on every list. -/
theorem serves_compile {a : ActionId} {e : ActionId × Action κ} (he : resolve a = some e) {n : String} {f : Forest}
    (bound : Option BoundObject) (hf : f.Open) : ∀ w, a ∈ f.actionsAt (.field n) w →
      (Watcher.object (f.compile resolve) site bound).Serves e (.field n :: w) := by
  intro w ha
  obtain ⟨as, below, htree⟩ := exists_tree ha
  obtain ⟨i, hplace, hpost⟩ := exists_place resolve site hf htree
  have hbelow := (tidy_of_tree hf.1 htree).1
  refine ⟨_, site, bound, i, _, rfl, hplace,
    mem_fireList.mpr ⟨a, (mem_fireIds hf.1 htree).mpr ⟨w, ha⟩, he⟩, fun hw => ?_⟩
  cases w with
  | nil => exact absurd rfl hw
  | cons k v =>
    rw [hpost]
    rw [(actionsAt_of_tree htree).2] at ha
    have hk : k ∈ below.labels := (mem_labels_iff hbelow k).mpr ⟨v, List.ne_nil_of_mem ha⟩
    cases below with
    | nil => cases hk
    | node l cs inside nx =>
      have hkind := sameKind_labels hbelow l List.mem_cons_self k hk
      cases l with
      | field q =>
        cases k with
        | member => cases hkind
        | field m =>
          refine ⟨_, rfl, serves_compile he none ⟨hbelow, fun hm => ?_⟩ v ha⟩
          have hfield := sameKind_labels hbelow _ List.mem_cons_self _ hm
          cases hfield
      | member =>
        cases k with
        | field m => cases hkind
        | member =>
          have hinside : inside.Open := ⟨hbelow.2.2.2.2.1, hbelow.2.2.2.1 rfl⟩
          have hmember : (node .member cs inside nx).tree? .member = some (cs, inside) := if_pos rfl
          have hrecorded := (mem_fireIds hbelow hmember).mpr ⟨v, ha⟩
          refine ⟨_, rfl, _, _, site, none, rfl, mem_fireList.mpr ⟨a, hrecorded, he⟩, ?_⟩
          cases v with
          | nil => trivial
          | cons j u =>
            cases j with
            | field m => exact serves_compile he none hinside u (by simpa [actionsAt] using ha)
            | member =>
              simp only [actionsAt, if_pos] at ha
              rw [actionsAt_of_not_mem hinside.2] at ha
              cases ha
termination_by w => w.length

end Forest

/-- **A live rule** is on every list along its trigger paths. -/
theorem Kept.serves {b : Binder κ} {L : Roster (Action κ)} (h : Kept b L) {e : Entry (Action κ)} (he : e ∈ L.live)
    {paths : List Path} (htriggers : e.rule.triggers = .ok paths) {p : Path} (hp : p ∈ paths) (site : Attachment)
    (bound : Option BoundObject) : (Watcher.object b.plan site bound).Serves (e.id, e.rule.action) p.word := by
  obtain ⟨n, w, hword⟩ := p.word_eq_cons
  have hwatches : e.rule.watches p = true := by simp [Rule.watches, htriggers, hp]
  have hrecorded : e.id ∈ b.graph.actionsAt p := by
    rw [h.graph]
    exact Roster.mem_idsOf.mpr ⟨e, he, hwatches, rfl⟩
  rw [hword]
  exact Forest.serves_compile site (h.resolve he) bound h.sound w (by simpa [Graph.actionsAt, hword] using hrecorded)

/-! ### Lists down a tree -/

namespace World

section

variable {g : World κ} {tops : List WatcherId} (hg : g.Grown tops)

include hg

/-- **What is posted** at a property fires at the property. -/
theorem Grown.fires_child {w : Nat} {plan site b} (hw : g.watchers[w]? = some (.object plan site (some b)))
    (hcumulative : plan.Cumulative) {i c : Nat} (hc : b.children[i]? = some (some c)) {n : String} {batch : Batch κ}
    (hplace : plan.place? i = some (n, batch)) :
    ∃ y, g.watchers[c]? = some y ∧ y.Cumulative ∧ ∀ e, y.Fires e → e ∈ batch := by
  obtain ⟨y, hy, hpost⟩ := hg.posts hw i _ hc
  obtain ⟨hy', hfires⟩ := hcumulative.post hplace hpost
  exact ⟨y, hy, y.cumulative_dormant.mp hy', fun e he => hfires e ((y.fires_dormant e).mpr he)⟩

theorem Grown.fires_item {w : Nat} {item batch site b}
    (hw : g.watchers[w]? = some (.collection item batch site (some b)))
    (hcumulative : (Watcher.collection item batch site (some b)).Cumulative) {e : ObjectId × WatcherId}
    (he : e ∈ b.items) : ∃ y, g.watchers[e.2]? = some y ∧ y.Cumulative ∧ ∀ a, y.Fires a → a ∈ batch := by
  obtain ⟨y, hy, hdormant⟩ := hg.items hw e he
  refine ⟨y, hy, y.cumulative_dormant.mp (hdormant ▸ hcumulative.2), fun a ha => hcumulative.1 a ?_⟩
  have hfires := (y.fires_dormant a).mpr ha
  rwa [hdormant] at hfires

/-- **Whatever fires below** a watcher fires at the watcher. -/
theorem Grown.fires_under {v w : WatcherId} (h : g.Under v w) {x : Watcher κ} (hx : g.watchers[v]? = some x)
    (hcumulative : x.Cumulative) : ∃ y, g.watchers[w]? = some y ∧ y.Cumulative ∧ ∀ e, y.Fires e → x.Fires e := by
  induction h with
  | refl => exact ⟨x, hx, hcumulative, fun _ => id⟩
  | @tail w c _ hc ih =>
    obtain ⟨y, hy, hy', hfires⟩ := ih
    obtain ⟨y₁, hy₁, hmem⟩ := exists_of_mem_listed hc
    obtain rfl : y = y₁ := Option.some.inj (hy.symm.trans hy₁)
    cases y with
    | object plan site bound =>
      cases bound with
      | none => cases hmem
      | some b =>
        obtain ⟨i, hi⟩ := List.getElem?_of_mem (List.reduceOption_mem_iff.mp hmem)
        obtain ⟨n, batch, hplace⟩ := hg.place_of_child hy hi
        obtain ⟨z, hz, hz', hzfires⟩ := hg.fires_child hy hy' hi hplace
        exact ⟨z, hz, hz', fun e he => hfires e ⟨i, n, batch, hplace, hzfires e he⟩⟩
    | collection item batch site bound =>
      cases bound with
      | none => cases hmem
      | some b =>
        obtain ⟨e, he, rfl⟩ := List.mem_map.mp hmem
        obtain ⟨z, hz, hz', hzfires⟩ := hg.fires_item hy hy' he
        exact ⟨z, hz, hz', fun a ha => hfires a (hzfires a ha)⟩

end

end World
end LiveRules
