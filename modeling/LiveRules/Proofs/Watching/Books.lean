/-
# The books of the watchers

A subscription of a watcher is written down twice: the watcher lists it among
what it holds, and a notifier or a collection lists the watcher among those to
be told. In a world with a sound `Ledger` the two accounts agree. A watcher is
also listed by the watcher above it, for the property or the member it
follows; in a `Shaped` world each is listed once at most, by an older one, and
its plan is what the plan above it asks for.

Key definitions: `Watcher.target`, `Watcher.listed`, `World.Ledger`,
`World.Shaped`, `World.Grown`.
Key theorems: `World.Ledger.reaches`, `World.lister_bound`.
-/
import LiveRules.Proofs.World.Listeners
import Mathlib.Data.List.ReduceOption

namespace LiveRules

/-! ### Plans by place -/

namespace Plan

variable {α κ : Type}

/-- The number of watched properties. -/
def length : Plan α → Nat
  | .nil => 0
  | .value _ _ next => next.length + 1
  | .object _ _ _ next => next.length + 1
  | .collection _ _ _ _ next => next.length + 1

/-- The plan after its first property. -/
def tail : Plan α → Plan α
  | .nil => .nil
  | .value _ _ next => next
  | .object _ _ _ next => next
  | .collection _ _ _ _ next => next

/-- The plan after its first `n` properties. -/
def drop : Plan α → Nat → Plan α
  | p, 0 => p
  | p, n + 1 => p.tail.drop n

/-- The watcher to be posted at the `i`th property, if its value is looked into. -/
def post? (site : Attachment) : Plan (ActionId × Action κ) → Nat → Option (Watcher κ)
  | .nil, _ => none
  | .value _ _ _, 0 => none
  | .object _ _ inside _, 0 => some (.object inside site none)
  | .collection _ _ membership item _, 0 => some (.collection item membership site none)
  | .value _ _ next, i + 1 => next.post? site i
  | .object _ _ _ next, i + 1 => next.post? site i
  | .collection _ _ _ _ next, i + 1 => next.post? site i

theorem place?_tail (p : Plan α) (i : Nat) : p.tail.place? i = p.place? (i + 1) := by
  cases p <;> rfl

theorem post?_tail (site : Attachment) (p : Plan (ActionId × Action κ)) (i : Nat) :
    p.tail.post? site i = p.post? site (i + 1) := by
  cases p <;> rfl

theorem length_tail (p : Plan α) : p.tail.length = p.length - 1 := by
  cases p <;> rfl

theorem place?_drop (p : Plan α) (n i : Nat) : (p.drop n).place? i = p.place? (n + i) := by
  induction n generalizing p with
  | zero => rw [Nat.zero_add]; rfl
  | succ n ih => rw [drop, ih, place?_tail, Nat.add_right_comm]

theorem post?_drop (site : Attachment) (p : Plan (ActionId × Action κ)) (n i : Nat) :
    (p.drop n).post? site i = p.post? site (n + i) := by
  induction n generalizing p with
  | zero => rw [Nat.zero_add]; rfl
  | succ n ih => rw [drop, ih, post?_tail, Nat.add_right_comm]

theorem length_drop (p : Plan α) (n : Nat) : (p.drop n).length = p.length - n := by
  induction n generalizing p with
  | zero => rfl
  | succ n ih => rw [drop, ih, length_tail, Nat.sub_sub, Nat.add_comm 1 n]

theorem drop_succ (p : Plan α) (n : Nat) : p.drop (n + 1) = (p.drop n).tail := by
  induction n generalizing p with
  | zero => rfl
  | succ n ih => rw [drop, ih, drop]

theorem place?_isSome (p : Plan α) (i : Nat) : (p.place? i).isSome = true ↔ i < p.length := by
  induction p generalizing i with
  | nil => simp [place?, length]
  | value n f next ih => cases i <;> simp [place?, length, ih]
  | object n f below next _ ih => cases i <;> simp [place?, length, ih]
  | collection n f m item next _ ih => cases i <;> simp [place?, length, ih]

end Plan

/-! ### What a watcher holds -/

section

variable {κ : Type}

def Listener.watcher? : Listener κ → Option WatcherId
  | .code _ _ => none
  | .member w _ => some w

def ChangeListener.watcher? : ChangeListener κ → Option WatcherId
  | .code _ => none
  | .membership w => some w

namespace Watcher

def site : Watcher κ → Attachment
  | .object _ site _ => site
  | .collection _ _ site _ => site

/-- The watcher, bound to nothing. -/
def dormant : Watcher κ → Watcher κ
  | .object plan site _ => .object plan site none
  | .collection item membership site _ => .collection item membership site none

/-- What the watcher is bound to. -/
def target : Watcher κ → Option Value
  | .object _ _ bound => bound.map fun b => b.subject.value
  | .collection _ _ _ bound => bound.map fun b => .collection b.collection

/-- What the watcher binds to when it is to follow `v`. -/
def seen (v : Value) : Watcher κ → Option Value
  | .object _ _ _ => v.subject?.map Subject.value
  | .collection _ _ _ _ => v.collection?.map Value.collection

/-- The watchers right below. -/
def listed : Watcher κ → List WatcherId
  | .object _ _ (some b) => b.children.reduceOption
  | .collection _ _ _ (some b) => b.items.map (·.2)
  | _ => []

/-- The subscriptions the watcher holds itself. -/
def ids : Watcher κ → List SubscriptionId
  | .object _ _ (some b) => b.subscriptions
  | .collection _ _ _ (some b) => [b.subscription]
  | _ => []

@[simp] theorem site_dormant (x : Watcher κ) : x.dormant.site = x.site := by
  cases x <;> rfl

@[simp] theorem dormant_dormant (x : Watcher κ) : x.dormant.dormant = x.dormant := by
  cases x <;> rfl

@[simp] theorem target_dormant (x : Watcher κ) : x.dormant.target = none := by
  cases x <;> rfl

@[simp] theorem listed_dormant (x : Watcher κ) : x.dormant.listed = [] := by
  cases x <;> rfl

@[simp] theorem ids_dormant (x : Watcher κ) : x.dormant.ids = [] := by
  cases x <;> rfl

theorem of_dormant_object {x : Watcher κ} {plan site} (h : x.dormant = .object plan site none) :
    ∃ bound, x = .object plan site bound := by
  cases x with
  | collection => cases h
  | object plan site bound =>
    cases h
    exact ⟨bound, rfl⟩

theorem of_dormant_collection {x : Watcher κ} {item batch site} (h : x.dormant = .collection item batch site none) :
    ∃ bound, x = .collection item batch site bound := by
  cases x with
  | object => cases h
  | collection item batch site bound =>
    cases h
    exact ⟨bound, rfl⟩

/-- Only a bound watcher lists others. -/
theorem target_of_mem_listed {x : Watcher κ} {w : WatcherId} (h : w ∈ x.listed) : x.target.isSome = true := by
  cases x with
  | object plan site bound => cases bound <;> simp_all [listed, target]
  | collection item membership site bound => cases bound <;> simp_all [listed, target]

end Watcher

theorem Plan.site_post? {site : Attachment} {p : WatchPlan κ} {i : Nat} {x : Watcher κ}
    (h : p.post? site i = some x) : x.site = site := by
  induction p generalizing i with
  | nil => simp [post?] at h
  | value n f next ih =>
    cases i with
    | zero => simp [post?] at h
    | succ i => exact ih h
  | object n f below next _ ih =>
    cases i with
    | zero => exact Option.some.inj h ▸ rfl
    | succ i => exact ih h
  | collection n f m item next _ ih =>
    cases i with
    | zero => exact Option.some.inj h ▸ rfl
    | succ i => exact ih h

namespace World

/-- The watchers right below `w`. -/
def listed (g : World κ) (w : WatcherId) : List WatcherId :=
  (g.watchers[w]?.map Watcher.listed).getD []

def idsOf (g : World κ) (w : WatcherId) : List SubscriptionId :=
  (g.watchers[w]?.map Watcher.ids).getD []

/-- `w` is bound to something. -/
def IsBound (g : World κ) (w : WatcherId) : Prop :=
  ∃ x, g.watchers[w]? = some x ∧ x.target.isSome = true

/-- What is kept in place of a property, given what its plan posts there. -/
def Posted (g : World κ) : Option WatcherId → Option (Watcher κ) → Prop
  | none, post => post = none
  | some c, post => ∃ x, g.watchers[c]? = some x ∧ post = some x.dormant

/-- `w` is subscribed to `p` through `s` under `id`, as the `i`th property of its
plan, whose batch is `batch`. -/
def Subscribed (g : World κ) (w i : Nat) (id : SubscriptionId) (s : Subject) (p : String)
    (batch : Batch κ) : Prop :=
  ∃ plan site b, g.watchers[w]? = some (.object plan site (some b)) ∧ b.subscriptions[i]? = some id ∧
    plan.place? i = some (p, batch) ∧ b.subject = s

/-- What watchers hold and what notifiers and collections list is the same. -/
structure Ledger (g : World κ) : Prop where
  filed : g.Filed
  member : ∀ {s p} {id : SubscriptionId} {w i : Nat}, (id, .member w i) ∈ g.listeners s p ↔
    ∃ t batch, g.Subscribed w i id t p batch ∧ g.home t p = s
  membership : ∀ {c} {id : SubscriptionId} {w : Nat}, (id, .membership w) ∈ g.listenersOfCollection c ↔
    ∃ item batch site b, g.watchers[w]? = some (.collection item batch site (some b)) ∧
      b.subscription = id ∧ b.collection = c
  fits : ∀ {w : Nat} {plan site b}, g.watchers[w]? = some (.object plan site (some b)) →
    b.subscriptions.length ≤ plan.length
  known : ∀ {w : Nat} {x : Watcher κ} {v}, g.watchers[w]? = some x → x.target = some v → g.hasValue v = true

/-- Below each watcher is what its plan asks for, and each is listed once at most. -/
structure Shaped (g : World κ) : Prop where
  paired : ∀ {w : Nat} {plan site b}, g.watchers[w]? = some (.object plan site (some b)) →
    b.children.length = b.subscriptions.length
  posts : ∀ {w : Nat} {plan site b}, g.watchers[w]? = some (.object plan site (some b)) →
    ∀ i c, b.children[i]? = some c → g.Posted c (plan.post? site i)
  items : ∀ {w : Nat} {item batch site b}, g.watchers[w]? = some (.collection item batch site (some b)) →
    ∀ e ∈ b.items, ∃ x, g.watchers[e.2]? = some x ∧ x.dormant = .object item site none
  nodup : ∀ w, (g.listed w).Nodup
  single : ∀ {v w x}, x ∈ g.listed v → x ∈ g.listed w → v = w
  older : ∀ {w x}, x ∈ g.listed w → w < x

/-- The watchers form trees that hang on `tops`. Down a tree subscriptions are
younger. -/
structure Grown (g : World κ) (tops : List WatcherId) : Prop extends Ledger g, Shaped g where
  sane : g.Sane
  anchored : ∀ {w}, g.IsBound w → w ∈ tops ∨ ∃ v, w ∈ g.listed v
  topmost : ∀ {w v}, w ∈ tops → w ∉ g.listed v
  children_younger : ∀ {w : Nat} {plan site b}, g.watchers[w]? = some (.object plan site (some b)) →
    ∀ (i c : Nat) id, b.children[i]? = some (some c) → b.subscriptions[i]? = some id →
      ∀ k ∈ g.idsOf c, id < k
  items_younger : ∀ {w : Nat} {item batch site b},
    g.watchers[w]? = some (.collection item batch site (some b)) →
    ∀ e ∈ b.items, ∀ k ∈ g.idsOf e.2, b.subscription < k

end World
end

namespace World

variable {κ : Type} {g : World κ}

theorem listed_of_get {w : Nat} {x : Watcher κ} (h : g.watchers[w]? = some x) : g.listed w = x.listed := by
  simp [listed, h]

theorem idsOf_of_get {w : Nat} {x : Watcher κ} (h : g.watchers[w]? = some x) : g.idsOf w = x.ids := by
  simp [idsOf, h]

theorem exists_of_mem_listed {v w : WatcherId} (h : w ∈ g.listed v) :
    ∃ x, g.watchers[v]? = some x ∧ w ∈ x.listed := by
  unfold listed at h
  cases hx : g.watchers[v]? with
  | none => simp [hx] at h
  | some x => exact ⟨x, rfl, by simpa [hx] using h⟩

theorem lister_bound {v w : WatcherId} (h : w ∈ g.listed v) : g.IsBound v := by
  obtain ⟨x, hx, hw⟩ := exists_of_mem_listed h
  exact ⟨x, hx, Watcher.target_of_mem_listed hw⟩

/-- Where a plan posts nothing, nothing is kept. -/
theorem Posted.eq_none {c : Option WatcherId} (h : g.Posted c none) : c = none := by
  cases c with
  | none => rfl
  | some c =>
    obtain ⟨x, -, hx⟩ := h
    cases hx

/-- Where a plan posts a watcher of an object, one is kept. -/
theorem Posted.object {c : Option WatcherId} {plan site} (h : g.Posted c (some (.object plan site none))) :
    ∃ w bound, c = some w ∧ g.watchers[w]? = some (.object plan site bound) := by
  cases c with
  | none => cases h
  | some w =>
    obtain ⟨x, hx, hpost⟩ := h
    obtain ⟨bound, rfl⟩ := Watcher.of_dormant_object (Option.some.inj hpost).symm
    exact ⟨w, bound, rfl, hx⟩

/-- Where a plan posts a watcher of a collection, one is kept. -/
theorem Posted.collection {c : Option WatcherId} {item batch site}
    (h : g.Posted c (some (.collection item batch site none))) :
    ∃ w bound, c = some w ∧ g.watchers[w]? = some (.collection item batch site bound) := by
  cases c with
  | none => cases h
  | some w =>
    obtain ⟨x, hx, hpost⟩ := h
    obtain ⟨bound, rfl⟩ := Watcher.of_dormant_collection (Option.some.inj hpost).symm
    exact ⟨w, bound, rfl, hx⟩

/-- What a watcher is bound to does not matter to what is posted. -/
theorem Posted.mono {g' : World κ} {c : Option WatcherId} {post : Option (Watcher κ)} (h : g.Posted c post)
    (hkeep : ∀ {w : Nat} {x}, g.watchers[w]? = some x → ∃ y, g'.watchers[w]? = some y ∧ y.dormant = x.dormant) :
    g'.Posted c post := by
  cases c with
  | none => exact h
  | some c =>
    obtain ⟨x, hx, hpost⟩ := h
    obtain ⟨y, hy, hdormant⟩ := hkeep hx
    exact ⟨y, hy, hdormant ▸ hpost⟩

theorem reduceOption_eq_nil_of_posted {cs : List (Option WatcherId)}
    (h : ∀ (i : Nat) c, cs[i]? = some c → g.Posted c none) :
    cs.reduceOption = [] := by
  rw [List.eq_nil_iff_forall_not_mem]
  intro c hc
  obtain ⟨i, hi⟩ := List.getElem?_of_mem (List.reduceOption_mem_iff.mp hc)
  exact nomatch (h i _ hi).eq_none

/-- Each watched member has a watcher that follows the plan for members. -/
theorem Shaped.member (hg : g.Shaped) {w : Nat} {item batch site b}
    (hw : g.watchers[w]? = some (.collection item batch site (some b))) {e : ObjectId × WatcherId} (he : e ∈ b.items) :
    ∃ bound, g.watchers[e.2]? = some (.object item site bound) := by
  obtain ⟨x, hx, hdormant⟩ := hg.items hw e he
  obtain ⟨bound, rfl⟩ := Watcher.of_dormant_object hdormant
  exact ⟨bound, hx⟩

/-- What is listed exists, and shares the site of its lister. -/
theorem Shaped.exists_listed (hg : g.Shaped) {v w : WatcherId} (h : w ∈ g.listed v) :
    ∃ x y, g.watchers[v]? = some x ∧ g.watchers[w]? = some y ∧ y.site = x.site := by
  obtain ⟨x, hx, hw⟩ := exists_of_mem_listed h
  refine ⟨x, ?_⟩
  cases x with
  | object plan site bound =>
    cases bound with
    | none => simp [Watcher.listed] at hw
    | some b =>
      have hc : some w ∈ b.children := by simpa [Watcher.listed, List.reduceOption_mem_iff] using hw
      obtain ⟨i, hi⟩ := List.getElem?_of_mem hc
      obtain ⟨y, hy, hpost⟩ := hg.posts hx i (some w) hi
      refine ⟨y, hx, hy, ?_⟩
      exact (Watcher.site_dormant y).symm.trans (Plan.site_post? hpost)
  | collection item membership site bound =>
    cases bound with
    | none => simp [Watcher.listed] at hw
    | some b =>
      obtain ⟨e, he, rfl⟩ := List.mem_map.mp hw
      obtain ⟨bound, hy⟩ := hg.member hx he
      exact ⟨_, hx, hy, rfl⟩

section

variable (hg : g.Ledger)

include hg

theorem Ledger.object_of_listener {s p} {id : SubscriptionId} {l : Listener κ} {w : Nat}
    (hl : (id, l) ∈ g.listeners s p) (hw : l.watcher? = some w) :
    ∃ plan site b, g.watchers[w]? = some (.object plan site (some b)) ∧ id ∈ b.subscriptions := by
  cases l with
  | code k context => cases hw
  | member v i =>
    obtain rfl : v = w := Option.some.inj hw
    obtain ⟨t, batch, ⟨plan, site, b, hget, hid, -, -⟩, -⟩ := hg.member.mp hl
    exact ⟨plan, site, b, hget, List.mem_of_getElem? hid⟩

theorem Ledger.collection_of_listener {c} {id : SubscriptionId} {l : ChangeListener κ} {w : Nat}
    (hl : (id, l) ∈ g.listenersOfCollection c) (hw : l.watcher? = some w) :
    ∃ item batch site b, g.watchers[w]? = some (.collection item batch site (some b)) ∧
      b.subscription = id := by
  cases l with
  | code k => cases hw
  | membership v =>
    obtain rfl : v = w := Option.some.inj hw
    obtain ⟨item, batch, site, b, hget, hid, -⟩ := hg.membership.mp hl
    exact ⟨item, batch, site, b, hget, hid⟩

theorem Ledger.exists_entry {w : Nat} {plan site b} (hw : g.watchers[w]? = some (.object plan site (some b)))
    {i : Nat} {id : SubscriptionId} (hi : b.subscriptions[i]? = some id) :
    ∃ p batch, plan.place? i = some (p, batch) ∧ (id, .member w i) ∈ g.listeners (g.home b.subject p) p := by
  have hlt : i < plan.length := lt_of_lt_of_le (List.getElem?_eq_some_iff.mp hi).1 (hg.fits hw)
  obtain ⟨⟨p, batch⟩, hentry⟩ := Option.isSome_iff_exists.mp ((plan.place?_isSome i).mpr hlt)
  exact ⟨p, batch, hentry, hg.member.mpr ⟨b.subject, batch, ⟨plan, site, b, hw, hi, hentry, rfl⟩, rfl⟩⟩

/-- The listeners of a watcher are those under the subscriptions it lists. -/
theorem Ledger.mem_subscriptions {w : Nat} {plan site b}
    (hw : g.watchers[w]? = some (.object plan site (some b))) {s p} {id : SubscriptionId} {l : Listener κ}
    (hl : (id, l) ∈ g.listeners s p) : id ∈ b.subscriptions ↔ l.watcher? = some w := by
  constructor
  · intro hid
    obtain ⟨i, hi⟩ := List.getElem?_of_mem hid
    obtain ⟨q, batch, -, hm⟩ := hg.exists_entry hw hi
    rw [(hg.filed.entry hl hm).2.2]
    rfl
  · intro hlw
    obtain ⟨plan', site', b', hw', hid⟩ := hg.object_of_listener hl hlw
    rw [hw] at hw'
    cases hw'
    exact hid

theorem Ledger.eq_subscription {w : Nat} {item batch site b}
    (hw : g.watchers[w]? = some (.collection item batch site (some b))) {c} {id : SubscriptionId}
    {l : ChangeListener κ} (hl : (id, l) ∈ g.listenersOfCollection c) :
    id = b.subscription ↔ l.watcher? = some w := by
  constructor
  · rintro rfl
    have hm : (b.subscription, .membership w) ∈ g.listenersOfCollection b.collection :=
      hg.membership.mpr ⟨item, batch, site, b, hw, rfl, rfl⟩
    rw [(hg.filed.changesEntry hl hm).2]
    rfl
  · intro hlw
    obtain ⟨item', batch', site', b', hw', hid⟩ := hg.collection_of_listener hl hlw
    rw [hw] at hw'
    cases hw'
    exact hid.symm

/-- A subscription of a watcher is found from the subject it was made through. -/
theorem Ledger.reaches (hs : g.Sane) {w : Nat} {plan site b}
    (hw : g.watchers[w]? = some (.object plan site (some b))) {id : SubscriptionId}
    (hid : id ∈ b.subscriptions) {t q l} (hl : (id, l) ∈ g.listeners t q) : t ∈ g.reach b.subject := by
  obtain ⟨i, hi⟩ := List.getElem?_of_mem hid
  obtain ⟨p, batch, -, hm⟩ := hg.exists_entry hw hi
  obtain ⟨rfl, -, -⟩ := hg.filed.entry hm hl
  exact hs.home_mem_reach b.subject p

end

end World
end LiveRules
