/-
# Following a plan

Binding a watcher takes many steps of the machine, but nobody else has a word
in between, so it comes to one change of the world: the watcher subscribes to
each property of its plan, and the values the plan looks into are followed on
the way. That change is written here as a recursion on the plan, with the books
opened at the start and entered as it goes.

What has been bound so is settled: all of its plan is subscribed to, what is
below it follows the values that are there now, and all members are watched.

Key definitions: `World.follow`, `World.enlistAll`, `World.Settled`,
`World.Grows`.
Key theorems: `World.follow_spec`, `World.enlistAll_spec`.
-/
import LiveRules.Proofs.Watching.Growth

namespace LiveRules
namespace World

variable {κ : Type}

/-! ### The change -/

/-- Watches further members for `w`, each by a watcher that `follow` binds. -/
def enlistAll (follow : World κ → WatcherId → BoundObject → World κ) (w : WatcherId) (item : WatchPlan κ)
    (site : Attachment) : List ObjectId → World κ → BoundCollection → World κ
  | [], g, _ => g
  | o :: os, g, b =>
    let x := g.watchers.size
    let g' := ((g.addWatcher (.object item site none)).enlist w b (o, x)).bindObject x (opened (.object o))
    enlistAll follow w item site os (follow g' x (opened (.object o))) { b with items := b.items ++ [(o, x)] }

/-- The members of `c` that are watched under a plan: all, unless it asks for
nothing. -/
def wanted (g : World κ) (item : WatchPlan κ) (c : CollectionId) : List ObjectId :=
  if item.isNil then [] else g.itemsOf c

/-- Subscribes `w` to the rest of its plan, and follows the values on the way. -/
def follow : WatchPlan κ → World κ → WatcherId → Attachment → BoundObject → World κ
  | .nil, g, _, _, _ => g
  | .value name _ next, g, w, site, b =>
    follow next (g.subscribeMember w b name none) w site (b.join g.nextSubscription none)
  | .object name _ inside next, g, w, site, b =>
    let c := g.watchers.size
    let g' := (g.addWatcher (.object inside site none)).subscribeMember w b name (some c)
    let g' := (g.memberValue b.subject name).subject?.elim g' fun s =>
      follow inside (g'.bindObject c (opened s)) c site (opened s)
    follow next g' w site (b.join g.nextSubscription (some c))
  | .collection name _ membership item next, g, w, site, b =>
    let c := g.watchers.size
    let g' := (g.addWatcher (.collection item membership site none)).subscribeMember w b name (some c)
    let g' := (g.memberValue b.subject name).collection?.elim g' fun d =>
      enlistAll (fun g x b => follow item g x site b) c item site (g'.wanted item d) (g'.openCollection c d)
        { collection := d, subscription := g'.nextSubscription, items := [] }
    follow next g' w site (b.join g.nextSubscription (some c))

theorem subscribeMember_outline (g : World κ) (w : WatcherId) (b : BoundObject) (name : String)
    (child : Option WatcherId) : (g.subscribeMember w b name child).outline = g.outline :=
  g.enterListener_outline _ _ _

theorem openCollection_outline (g : World κ) (w : WatcherId) (c : CollectionId) :
    (g.openCollection w c).outline = g.outline :=
  g.enterChangeListener_outline c (.membership w)

theorem enlistAll_outline {F : World κ → WatcherId → BoundObject → World κ}
    (hF : ∀ g x b, (F g x b).outline = g.outline) (w : WatcherId) (item : WatchPlan κ) (site : Attachment) :
    ∀ (os : List ObjectId) (g : World κ) (b : BoundCollection),
      (enlistAll F w item site os g b).outline = g.outline := by
  intro os
  induction os with
  | nil => exact fun _ _ => rfl
  | cons o os ih =>
    intro g b
    rw [enlistAll, ih, hF]
    rfl

/-- Following touches nothing but watchers and who is subscribed. -/
theorem follow_outline (site : Attachment) : ∀ (rest : WatchPlan κ) (g : World κ) (w : WatcherId) (b : BoundObject),
    (follow rest g w site b).outline = g.outline := by
  intro rest
  induction rest with
  | nil => exact fun _ _ _ => rfl
  | value name batch next ih =>
    intro g w b
    rw [follow, ih, subscribeMember_outline]
  | object name batch inside next ihInside ih =>
    intro g w b
    rw [follow, ih]
    have hpost := (g.addWatcher (.object inside site none)).subscribeMember_outline w b name (some g.watchers.size)
    cases (g.memberValue b.subject name).subject? with
    | none => exact hpost
    | some s => exact (ihInside _ _ _).trans hpost
  | collection name batch membership item next ihItem ih =>
    intro g w b
    rw [follow, ih]
    have hpost := (g.addWatcher (.collection item membership site none)).subscribeMember_outline w b name
      (some g.watchers.size)
    cases (g.memberValue b.subject name).collection? with
    | none => exact hpost
    | some d =>
      refine (enlistAll_outline ihItem _ _ _ _ _ _).trans (Eq.trans ?_ hpost)
      exact openCollection_outline _ _ d

/-! ### Settled watchers -/

/-- `c` is bound to what it is to be bound to when it follows `v`. -/
def Sees (g : World κ) (c : WatcherId) (v : Value) : Prop :=
  ∃ x, g.watchers[c]? = some x ∧ x.target = x.seen v

/-- The watcher at the `i`th property follows the value that is there. -/
def FreshAt (g : World κ) (plan : WatchPlan κ) (b : BoundObject) (i : Nat) : Prop :=
  ∀ c name batch, b.children[i]? = some (some c) → plan.place? i = some (name, batch) →
    g.Sees c (g.memberValue b.subject name)

/-- All of the plan is subscribed to, and members are watched by watchers bound to
them. -/
structure Complete (g : World κ) (w : WatcherId) : Prop where
  plan : ∀ {plan site b}, g.watchers[w]? = some (.object plan site (some b)) →
    b.subscriptions.length = plan.length
  items : ∀ {item batch site b}, g.watchers[w]? = some (.collection item batch site (some b)) →
    ∀ e ∈ b.items, ∃ x, g.watchers[e.2]? = some x ∧ x.target = some (.object e.1)

/-- What is watched below `w` is what is there now. -/
structure Settled (g : World κ) (w : WatcherId) : Prop extends Complete g w where
  fresh : ∀ {plan site b}, g.watchers[w]? = some (.object plan site (some b)) → ∀ i, g.FreshAt plan b i
  gathered : ∀ {item batch site b}, g.watchers[w]? = some (.collection item batch site (some b)) →
    b.items.map (·.1) = g.wanted item b.collection

/-- `g'` is `g` after `w` and new watchers have grown. -/
structure Grows (w : WatcherId) (g g' : World κ) : Prop where
  outline : g'.outline = g.outline
  trees : g'.trees = g.trees
  size : g.watchers.size ≤ g'.watchers.size
  next : g.nextSubscription ≤ g'.nextSubscription
  others : ∀ v : Nat, v < g.watchers.size → v ≠ w → g'.watchers[v]? = g.watchers[v]?
  self : ∀ x, g.watchers[w]? = some x → ∃ y, g'.watchers[w]? = some y ∧ y.dormant = x.dormant ∧
    (x.target.isSome = true → y.target = x.target)
  listeners : ∀ s p, ∃ new, g'.listeners s p = g.listeners s p ++ new ∧ ∀ e ∈ new, g.nextSubscription ≤ e.1
  changes : ∀ c, ∃ new, g'.listenersOfCollection c = g.listenersOfCollection c ++ new ∧
    ∀ e ∈ new, g.nextSubscription ≤ e.1

theorem Grows.refl (w : WatcherId) (g : World κ) : Grows w g g :=
  ⟨rfl, rfl, le_refl _, le_refl _, fun _ _ _ => rfl, fun x hx => ⟨x, hx, rfl, fun _ => rfl⟩,
    fun _ _ => ⟨[], by simp, by simp⟩, fun _ => ⟨[], by simp, by simp⟩⟩

/-- What is put behind twice is put behind, under ids that are no older. -/
theorem exists_append_trans {α : Type} {l l' l'' : List (SubscriptionId × α)} {n n' : SubscriptionId} (hn : n ≤ n')
    (h : ∃ new, l' = l ++ new ∧ ∀ e ∈ new, n ≤ e.1) (h' : ∃ new, l'' = l' ++ new ∧ ∀ e ∈ new, n' ≤ e.1) :
    ∃ new, l'' = l ++ new ∧ ∀ e ∈ new, n ≤ e.1 := by
  obtain ⟨new, rfl, hnew⟩ := h
  obtain ⟨new', rfl, hnew'⟩ := h'
  refine ⟨new ++ new', List.append_assoc .., fun e he => ?_⟩
  rcases List.mem_append.mp he with he | he
  · exact hnew e he
  · exact hn.trans (hnew' e he)

/-- What grows next may be `w` again or a watcher that is new. -/
theorem Grows.trans {w c : WatcherId} {g₁ g₂ g₃ : World κ} (h : Grows w g₁ g₂) (h' : Grows c g₂ g₃)
    (hw : w < g₁.watchers.size) (hc : c = w ∨ g₁.watchers.size ≤ c) : Grows w g₁ g₃ := by
  have hne : c ≠ w → ∀ v : Nat, v < g₁.watchers.size → v ≠ c := by
    intro hcw v hv
    rcases hc with hc | hc
    · exact absurd hc hcw
    · exact ne_of_lt (lt_of_lt_of_le hv hc)
  constructor
  case outline => exact h'.outline.trans h.outline
  case trees => exact h'.trees.trans h.trees
  case size => exact h.size.trans h'.size
  case next => exact h.next.trans h'.next
  case others =>
    intro v hv hvw
    have hvc : v ≠ c := by
      by_cases hcw : c = w
      · exact hcw ▸ hvw
      · exact hne hcw v hv
    exact (h'.others v (lt_of_lt_of_le hv h.size) hvc).trans (h.others v hv hvw)
  case self =>
    intro x hx
    obtain ⟨y, hy, hd, ht⟩ := h.self x hx
    by_cases hcw : c = w
    · subst hcw
      obtain ⟨z, hz, hd', ht'⟩ := h'.self y hy
      exact ⟨z, hz, hd'.trans hd, fun hs => (ht' (by rw [ht hs]; exact hs)).trans (ht hs)⟩
    · refine ⟨y, ?_, hd, ht⟩
      rw [h'.others w (lt_of_lt_of_le hw h.size) (hne hcw w hw)]
      exact hy
  case listeners => exact fun s p => exists_append_trans h.next (h.listeners s p) (h'.listeners s p)
  case changes => exact fun d => exists_append_trans h.next (h.changes d) (h'.changes d)

section

variable {w : WatcherId} {g g' : World κ} (h : Grows w g g')

include h

theorem Grows.get {v : Nat} {x : Watcher κ} (hv : g.watchers[v]? = some x) (hvw : v ≠ w) :
    g'.watchers[v]? = some x := by
  rw [h.others v (Array.getElem?_eq_some_iff.mp hv).1 hvw, hv]

theorem Grows.sees {c : WatcherId} {v : Value} (hc : g.Sees c v) (hcw : c ≠ w) : g'.Sees c v := by
  obtain ⟨x, hx, hv⟩ := hc
  exact ⟨x, h.get hx hcw, hv⟩

theorem Grows.wanted (item : WatchPlan κ) (c : CollectionId) : g'.wanted item c = g.wanted item c := by
  unfold World.wanted
  rw [itemsOf_congr h.outline]

/-- What is settled elsewhere stays so. -/
theorem Grows.settled {v : Nat} (hv : g.Settled v) (hlt : v < g.watchers.size) (hvw : v ≠ w)
    (hw : w ∉ g.listed v) : g'.Settled v := by
  have hget : g'.watchers[v]? = g.watchers[v]? := h.others v hlt hvw
  constructor
  case toComplete =>
    constructor
    case plan =>
      intro plan site b hb
      exact hv.plan (hget ▸ hb)
    case items =>
      intro item batch site b hb e he
      rw [hget] at hb
      obtain ⟨x, hx, ht⟩ := hv.items hb e he
      refine ⟨x, h.get hx ?_, ht⟩
      rintro rfl
      exact hw (by rw [listed_of_get hb]; exact List.mem_map_of_mem he)
  case fresh =>
    intro plan site b hb i c name batch hc hentry
    rw [hget] at hb
    rw [memberValue_congr h.outline]
    refine h.sees (hv.fresh hb i c name batch hc hentry) ?_
    rintro rfl
    exact hw (by rw [listed_of_get hb]; exact List.reduceOption_mem_iff.mpr (List.mem_of_getElem? hc))
  case gathered =>
    intro item batch site b hb
    rw [h.wanted]
    exact hv.gathered (hget ▸ hb)

end

/-! ### The moves grow -/

theorem addWatcher_grows (g : World κ) (x : Watcher κ) {w : Nat} (hw : w < g.watchers.size) :
    Grows w g (g.addWatcher x) := by
  have hget : ∀ v : Nat, v < g.watchers.size → (g.addWatcher x).watchers[v]? = g.watchers[v]? := by
    intro v hv
    rw [getElem?_addWatcher, if_neg (ne_of_lt hv)]
  refine ⟨rfl, rfl, ?_, le_refl _, fun v hv _ => hget v hv, fun y hy => ?_, fun _ _ => ⟨[], ?_, by simp⟩,
    fun _ => ⟨[], ?_, by simp⟩⟩
  · simp [addWatcher]
  · exact ⟨y, (hget w hw).trans hy, rfl, fun _ => rfl⟩
  · exact (List.append_nil _).symm
  · exact (List.append_nil _).symm

theorem subscribeMember_grows {g : World κ} (hs : g.Sane) {w : Nat} {plan site b}
    (hw : g.watchers[w]? = some (.object plan site (some b))) (hb : g.hasValue b.subject.value = true)
    (name : String) (child : Option WatcherId) : Grows w g (g.subscribeMember w b name child) := by
  have hw' : (g.enterListener (g.home b.subject name) name (.member w b.subscriptions.length)).watchers[w]? =
      some (.object plan site (some b)) := by rw [enterListener_watchers, hw]
  have hget : ∀ v : Nat, (g.subscribeMember w b name child).watchers[v]? = _ :=
    fun v => getElem?_bindObject hw' _ v
  refine ⟨g.enterListener_outline _ _ _, ?_, ?_, Nat.le_succ _, fun v _ hvw => ?_, fun y hy => ?_,
    fun t q => ?_, fun c => ⟨[], ?_, by simp⟩⟩
  · unfold subscribeMember
    cases g.home b.subject name <;> rfl
  · unfold subscribeMember bindObject
    rw [Array.size_modify, enterListener_watchers]
  · rw [hget, if_neg hvw, enterListener_watchers]
  · rw [hw] at hy
    obtain rfl := Option.some.inj hy
    exact ⟨_, (hget w).trans (if_pos rfl), rfl, fun _ => rfl⟩
  · have hlist : (g.subscribeMember w b name child).listeners t q = _ :=
      listeners_enterListener g (hs.hasValue_home hb name) name _ t q
    rw [hlist]
    split
    · exact ⟨_, rfl, fun e he => (congrArg Prod.fst (List.mem_singleton.mp he)).ge⟩
    · exact ⟨[], by simp, by simp⟩
  · rw [List.append_nil]
    exact g.listenersOfCollection_enterListener _ _ _ c

theorem bindObject_grows {g : World κ} {w : Nat} {plan site}
    (hw : g.watchers[w]? = some (.object plan site none)) (b : BoundObject) : Grows w g (g.bindObject w b) := by
  have hget := getElem?_bindObject hw b
  refine ⟨rfl, rfl, ?_, le_refl _, fun v _ hvw => ?_, fun y hy => ?_, fun _ _ => ⟨[], ?_, by simp⟩,
    fun _ => ⟨[], ?_, by simp⟩⟩
  · simp [bindObject]
  · rw [hget, if_neg hvw]
  · rw [hw] at hy
    obtain rfl := Option.some.inj hy
    exact ⟨_, (hget w).trans (if_pos rfl), rfl, fun h => by cases h⟩
  · exact (List.append_nil _).symm
  · exact (List.append_nil _).symm

theorem openCollection_grows {g : World κ} (hg : g.Filed) {w : Nat} {item batch site}
    (hw : g.watchers[w]? = some (.collection item batch site none)) {c : CollectionId}
    (hc : g.hasValue (.collection c) = true) : Grows w g (g.openCollection w c) := by
  have hget : ∀ v : Nat, (g.openCollection w c).watchers[v]? = _ :=
    fun v => getElem?_bindCollection (g := g.enterChangeListener c (.membership w)) hw _ v
  refine ⟨g.enterChangeListener_outline _ _, rfl, ?_, Nat.le_succ _, fun v _ hvw => ?_, fun y hy => ?_,
    fun s p => ⟨[], ?_, by simp⟩, fun d => ?_⟩
  · simp [openCollection, bindCollection, enterChangeListener, modifyCollection]
  · rw [hget, if_neg hvw]
    rfl
  · rw [hw] at hy
    obtain rfl := Option.some.inj hy
    exact ⟨_, (hget w).trans (if_pos rfl), rfl, fun h => by cases h⟩
  · rw [List.append_nil]
    exact g.listeners_enterChangeListener c (.membership w) s p
  · have hlist : (g.openCollection w c).listenersOfCollection d = _ :=
      listenersOfCollection_enterChangeListener hg hc (.membership w) d
    rw [hlist]
    split
    · exact ⟨_, rfl, fun e he => (congrArg Prod.fst (List.mem_singleton.mp he)).ge⟩
    · exact ⟨[], by simp, by simp⟩

theorem bindCollection_grows {g : World κ} {w : Nat} {item batch site b}
    (hw : g.watchers[w]? = some (.collection item batch site (some b))) (items : List (ObjectId × WatcherId)) :
    Grows w g (g.bindCollection w { b with items }) := by
  have hget := getElem?_bindCollection hw { b with items }
  refine ⟨rfl, rfl, ?_, le_refl _, fun v _ hvw => ?_, fun y hy => ?_, fun _ _ => ⟨[], ?_, by simp⟩,
    fun _ => ⟨[], ?_, by simp⟩⟩
  · simp [bindCollection]
  · rw [hget, if_neg hvw]
  · rw [hw] at hy
    obtain rfl := Option.some.inj hy
    exact ⟨_, (hget w).trans (if_pos rfl), rfl, fun _ => rfl⟩
  · exact (List.append_nil _).symm
  · exact (List.append_nil _).symm

/-! ### What following comes to -/

/-- `g'` is `g` after `w` and all that is new below it has been bound. -/
structure Followed (tops : List WatcherId) (w : WatcherId) (g g' : World κ) : Prop where
  grown : g'.Grown tops
  grows : Grows w g g'
  settled : g'.Settled w
  new : ∀ x, g.watchers.size ≤ x → x < g'.watchers.size → g'.Settled x

/-- What was done before is settled and stays so. -/
theorem Followed.after {tops : List WatcherId} {w : WatcherId} {g₁ g₂ g₃ : World κ} (h : Followed tops w g₂ g₃)
    (hg : g₂.Grown tops) (hgrows : Grows w g₁ g₂) (hw : w < g₁.watchers.size)
    (hnew : ∀ x, g₁.watchers.size ≤ x → x < g₂.watchers.size → g₂.Settled x) : Followed tops w g₁ g₃ := by
  refine ⟨h.grown, hgrows.trans h.grows hw (Or.inl rfl), h.settled, fun x hx hlt => ?_⟩
  rcases lt_or_ge x g₂.watchers.size with hx₂ | hx₂
  · have hwx : w < x := lt_of_lt_of_le hw hx
    exact h.grows.settled (hnew x hx hx₂) hx₂ (ne_of_gt hwx) fun hmem => lt_asymm hwx (hg.older hmem)
  · exact h.new x hx₂ hlt

theorem settled_of_dormant {g : World κ} {w : Nat} {x : Watcher κ} (hx : g.watchers[w]? = some x)
    (ht : x.target = none) : g.Settled w := by
  have hobj : ∀ {plan site b}, g.watchers[w]? ≠ some (.object plan site (some b)) := by
    intro plan site b hb
    rw [hx] at hb
    obtain rfl := Option.some.inj hb
    cases ht
  have hcoll : ∀ {item batch site b}, g.watchers[w]? ≠ some (.collection item batch site (some b)) := by
    intro item batch site b hb
    rw [hx] at hb
    obtain rfl := Option.some.inj hb
    cases ht
  exact { plan := fun hb => absurd hb hobj, items := fun hb => absurd hb hcoll
          fresh := fun hb => absurd hb hobj, gathered := fun hb => absurd hb hcoll }

/-- What looks into nothing has nothing to follow. -/
theorem Grown.followed_dormant {tops : List WatcherId} {g : World κ} (hg : g.Grown tops) {w : WatcherId}
    {x : Watcher κ} (hx : g.watchers[w]? = some x) (ht : x.target = none) : Followed tops w g g :=
  ⟨hg, .refl w g, settled_of_dormant hx ht, fun _ hle hlt => absurd (hlt.trans_le hle) (lt_irrefl _)⟩

/-- `g'` is `g` after `w` has come to watch the members `os` too. -/
structure Enlisted (tops : List WatcherId) (w : Nat) (item : WatchPlan κ) (batch : Batch κ) (site : Attachment)
    (b : BoundCollection) (os : List ObjectId) (g g' : World κ) : Prop where
  grown : g'.Grown tops
  grows : Grows w g g'
  books : ∃ items, g'.watchers[w]? = some (.collection item batch site (some { b with items := b.items ++ items })) ∧
    items.map (·.1) = os ∧ ∀ e ∈ items, g.watchers.size ≤ e.2
  complete : g'.Complete w
  new : ∀ x, g.watchers.size ≤ x → x < g'.watchers.size → g'.Settled x

/-- Watching further members, if `follow` does what it should. -/
theorem enlistAll_spec (follow : World κ → WatcherId → BoundObject → World κ) {tops : List WatcherId}
    {w : Nat} {item : WatchPlan κ} (batch : Batch κ) {site : Attachment}
    (hfollow : ∀ {g : World κ} {x o}, g.Grown tops → (∀ t ∈ tops, t < g.watchers.size) →
      g.watchers[x]? = some (.object item site (some (opened (.object o)))) →
      Followed tops x g (follow g x (opened (.object o)))) :
    ∀ (os : List ObjectId) {g : World κ} {b : BoundCollection}, g.Grown tops →
      (∀ t ∈ tops, t < g.watchers.size) → g.watchers[w]? = some (.collection item batch site (some b)) →
      g.Complete w → (∀ o ∈ os, g.hasObject o = true) →
      Enlisted tops w item batch site b os g (enlistAll follow w item site os g b) := by
  intro os
  induction os with
  | nil =>
    intro g b hg htops hw hcomplete hos
    refine ⟨hg, Grows.refl w g, ⟨[], by rw [List.append_nil]; exact hw, rfl, by simp⟩, hcomplete, fun x hx hlt => ?_⟩
    exact absurd (lt_of_lt_of_le hlt hx) (lt_irrefl _)
  | cons o os ih =>
    intro g b hg htops hw hcomplete hos
    have hwlt : w < g.watchers.size := (Array.getElem?_eq_some_iff.mp hw).1
    set x := g.watchers.size with hx
    -- the member's watcher is made
    set g₁ := g.addWatcher (.object item site none) with hg₁
    have hgrown₁ : g₁.Grown tops := hg.addWatcher rfl
    have hgrows₁ : Grows w g g₁ := addWatcher_grows g _ hwlt
    have hw₁ : g₁.watchers[w]? = some (.collection item batch site (some b)) := by
      rw [hg₁, getElem?_addWatcher, if_neg (ne_of_lt hwlt), hw]
    have hx₁ : g₁.watchers[x]? = some (.object item site none) := by
      rw [hg₁, getElem?_addWatcher, if_pos rfl]
    have hxtops : x ∉ tops := fun h => lt_irrefl _ (htops x h)
    have hxlisted : ∀ v, x ∉ g₁.listed v := by
      intro v hv
      rw [hg₁, listed_addWatcher rfl] at hv
      exact lt_irrefl _ (hg.lt_of_mem_listed hv)
    -- it is entered in the books
    set b' : BoundCollection := { b with items := b.items ++ [(o, x)] } with hb'
    set g₂ := g₁.bindCollection w b' with hg₂
    have hgrown₂ : g₂.Grown tops := by
      refine hgrown₁.rebookItems hw₁ ?_ ?_ ?_ (fun c hc => Or.inl hc) fun c hc => Or.inl hc
      · have hnodup := hgrown₁.nodup w
        have hnot := hxlisted w
        rw [listed_of_get hw₁] at hnodup hnot
        rw [List.map_append]
        refine List.nodup_append.mpr ⟨hnodup, List.nodup_singleton _, fun a ha c hc => ?_⟩
        rw [List.mem_singleton.mp hc]
        intro hax
        have hax : a = x := hax
        exact hnot (hax ▸ ha)
      · intro e he
        rcases List.mem_append.mp he with he | he
        · exact Or.inl he
        · obtain rfl := List.mem_singleton.mp he
          refine Or.inr ⟨hwlt, hxtops, hxlisted, fun k hk => ?_, _, hx₁, rfl⟩
          rw [idsOf_of_get hx₁] at hk
          cases hk
      · intro e he
        refine Or.inl ?_
        rw [List.map_append]
        exact List.mem_append_left _ (List.mem_map_of_mem he)
    have hget₂ := getElem?_bindCollection hw₁ b'
    have hw₂ : g₂.watchers[w]? = some (.collection item batch site (some b')) := by
      rw [hg₂, hget₂, if_pos rfl]
    have hwx : w ≠ x := ne_of_lt hwlt
    have hx₂ : g₂.watchers[x]? = some (.object item site none) := by
      rw [hg₂, hget₂, if_neg hwx.symm, hx₁]
    have hgrows₂ : Grows w g₁ g₂ := bindCollection_grows hw₁ _
    -- it is bound to the member
    set g₃ := g₂.bindObject x (opened (.object o)) with hg₃
    have hobject : g.hasObject o = true := hos o List.mem_cons_self
    have hgrown₃ : g₃.Grown tops := by
      refine hgrown₂.openObject hx₂ (s := .object o) hobject (Or.inr ⟨w, ?_⟩)
      rw [listed_of_get hw₂]
      exact List.mem_map_of_mem (f := fun e : ObjectId × WatcherId => e.2)
        (List.mem_append_right b.items (List.mem_singleton_self (o, x)))
    have hget₃ := getElem?_bindObject hx₂ (opened (.object o))
    have hx₃ : g₃.watchers[x]? = some (.object item site (some (opened (.object o)))) := by
      rw [hg₃, hget₃, if_pos rfl]
    have hgrows₃ : Grows x g₂ g₃ := bindObject_grows hx₂ _
    have hsize₃ : g₃.watchers.size = x + 1 := by
      simp [hg₃, hg₂, hg₁, bindObject, bindCollection, World.addWatcher, ← hx]
    have hfol := hfollow hgrown₃ (fun t ht => by rw [hsize₃]; exact Nat.lt_succ_of_lt (htops t ht)) hx₃
    set g₄ := follow g₃ x (opened (.object o)) with hg₄
    have hlt₁ : w < g₁.watchers.size := lt_of_lt_of_le hwlt hgrows₁.size
    have hgrows₄ : Grows w g g₄ := by
      have h₁₂ := hgrows₁.trans hgrows₂ hwlt (Or.inl rfl)
      have h₁₃ := h₁₂.trans hgrows₃ hwlt (Or.inr (le_refl _))
      exact h₁₃.trans hfol.grows hwlt (Or.inr (le_refl _))
    have hw₄ : g₄.watchers[w]? = some (.collection item batch site (some b')) := by
      refine hfol.grows.get ?_ hwx
      rw [hg₃, hget₃, if_neg hwx, hw₂]
    have hnew₄ : ∀ y, g.watchers.size ≤ y → y < g₄.watchers.size → g₄.Settled y := by
      intro y hy hlt
      rcases eq_or_lt_of_le hy with rfl | hy
      · exact hfol.settled
      · exact hfol.new y (hsize₃ ▸ hy) hlt
    have hcomplete₄ : g₄.Complete w := by
      constructor
      case plan =>
        intro plan site' b'' hb''
        rw [hw₄] at hb''
        cases hb''
      case items =>
        intro item' batch' site' b'' hb'' e he
        rw [hw₄] at hb''
        cases hb''
        rcases List.mem_append.mp he with he | he
        · obtain ⟨y, hy, ht⟩ := hcomplete.items hw e he
          have hne : e.2 ≠ w := by
            have hmem : e.2 ∈ g.listed w := by rw [listed_of_get hw]; exact List.mem_map_of_mem he
            exact ne_of_gt (hg.older hmem)
          exact ⟨y, hgrows₄.get hy hne, ht⟩
        · obtain rfl := List.mem_singleton.mp he
          obtain ⟨y, hy, hd, ht⟩ := hfol.grows.self _ hx₃
          exact ⟨y, hy, ht rfl⟩
    have hrest := ih hfol.grown (fun t ht => lt_of_lt_of_le (htops t ht) hgrows₄.size) hw₄ hcomplete₄
      fun o' ho' => (hasValue_congr hgrows₄.outline (.object o')).trans (hos o' (List.mem_cons_of_mem _ ho'))
    show Enlisted tops w item batch site b (o :: os) g (enlistAll follow w item site os g₄ b')
    obtain ⟨items, hitems, hmap, hyoung⟩ := hrest.books
    refine ⟨hrest.grown, hgrows₄.trans hrest.grows hwlt (Or.inl rfl), ⟨(o, x) :: items, ?_, ?_, fun e he => ?_⟩,
      hrest.complete, fun y hy hlt => ?_⟩
    · rw [hitems, hb']
      simp
    · rw [List.map_cons, hmap]
    · rcases List.mem_cons.mp he with rfl | he
      · exact le_refl x
      · exact hgrows₄.size.trans (hyoung e he)
    · rcases lt_or_ge y g₄.watchers.size with hy₄ | hy₄
      · have hwy : w < y := lt_of_lt_of_le hwlt hy
        exact hrest.grows.settled (hnew₄ y hy hy₄) hy₄ (ne_of_gt hwy)
          fun hmem => lt_asymm hwy (hfol.grown.older hmem)
      · exact hrest.new y hy₄ hlt

/-- A watcher made for the next property of the plan. -/
theorem Grown.post {g : World κ} {tops : List WatcherId} (hg : g.Grown tops) (htops : ∀ t ∈ tops, t < g.watchers.size)
    {w : Nat} {plan site b} (hw : g.watchers[w]? = some (.object plan site (some b))) {name : String}
    {batch : Batch κ} (hentry : plan.place? b.subscriptions.length = some (name, batch)) {x : Watcher κ}
    (hpost : plan.post? site b.subscriptions.length = some x) (hx : x.target = none) :
    let g' := (g.addWatcher x).subscribeMember w b name (some g.watchers.size)
    g'.Grown tops ∧ Grows w g g' ∧ g'.watchers[g.watchers.size]? = some x ∧ g.watchers.size ∈ g'.listed w ∧
      g'.watchers.size = g.watchers.size + 1 ∧
      g'.watchers[w]? = some (.object plan site (some (b.join g.nextSubscription (some g.watchers.size)))) := by
  have hwlt : w < g.watchers.size := (Array.getElem?_eq_some_iff.mp hw).1
  have hgrown := hg.addWatcher hx
  have hw₁ : (g.addWatcher x).watchers[w]? = some (.object plan site (some b)) := by
    rw [getElem?_addWatcher, if_neg (ne_of_lt hwlt), hw]
  have hx₁ : (g.addWatcher x).watchers[g.watchers.size]? = some x := by
    rw [getElem?_addWatcher, if_pos rfl]
  have hgrows := subscribeMember_grows hgrown.sane hw₁ (hgrown.known hw₁ rfl) name (some g.watchers.size)
  have hw₂ : ((g.addWatcher x).subscribeMember w b name (some g.watchers.size)).watchers[w]? =
      some (.object plan site (some (b.join g.nextSubscription (some g.watchers.size)))) := by
    have hw' : ((g.addWatcher x).enterListener ((g.addWatcher x).home b.subject name) name
        (.member w b.subscriptions.length)).watchers[w]? = some (.object plan site (some b)) := by
      rw [enterListener_watchers, hw₁]
    exact (getElem?_bindObject hw' _ w).trans (if_pos rfl)
  refine ⟨?_, (addWatcher_grows g x hwlt).trans hgrows hwlt (Or.inl rfl), hgrows.get hx₁ (ne_of_gt hwlt),
    ?_, ?_, hw₂⟩
  · refine hgrown.subscribeMember hw₁ hentry ⟨x, hx₁, ?_⟩ fun c hc => ?_
    · rw [hpost, (holds_nothing hx).2.2]
    · obtain rfl := Option.some.inj hc
      refine ⟨hwlt, fun h => lt_irrefl _ (htops _ h), fun v hv => ?_, ?_⟩
      · rw [listed_addWatcher hx] at hv
        exact lt_irrefl _ (hg.lt_of_mem_listed hv)
      · rw [idsOf_of_get hx₁]
        exact (holds_nothing hx).2.1
  · rw [listed_of_get hw₂]
    exact List.reduceOption_mem_iff.mpr (List.mem_append_right _ (List.mem_singleton_self _))
  · unfold World.subscribeMember bindObject
    rw [Array.size_modify, enterListener_watchers]
    simp [World.addWatcher]

/-- What is entered for the next property is fresh if the new watcher sees its value. -/
theorem Grows.fresh_join {g g' : World κ} {w : Nat} (h : Grows w g g') (hg : g.Shaped) {plan site b}
    (hw : g.watchers[w]? = some (.object plan site (some b))) (hfresh : ∀ i, g.FreshAt plan b i)
    {name : String} {batch : Batch κ} (hentry : plan.place? b.subscriptions.length = some (name, batch))
    {child : Option WatcherId} (hsees : ∀ c, child = some c → g'.Sees c (g.memberValue b.subject name))
    (id : SubscriptionId) (i : Nat) : g'.FreshAt plan (b.join id child) i := by
  intro c name' batch' hc hentry'
  have hval : g'.memberValue (b.join id child).subject name' = g.memberValue b.subject name' :=
    memberValue_congr h.outline _ _
  rw [hval]
  rcases getElem?_concat hc with hold | ⟨rfl, hnew⟩
  · refine h.sees (hfresh i c name' batch' hold hentry') ?_
    have hmem : c ∈ g.listed w := by
      rw [listed_of_get hw]
      exact List.reduceOption_mem_iff.mpr (List.mem_of_getElem? hold)
    exact ne_of_gt (hg.older hmem)
  · rw [hg.paired hw, hentry] at hentry'
    cases hentry'
    exact hsees c hnew.symm

/-- That following `rest` keeps a world grown and settles what it binds. -/
def FollowSpec (tops : List WatcherId) (site : Attachment) (rest : WatchPlan κ) : Prop :=
  ∀ {g : World κ} {w : Nat} {plan : WatchPlan κ} {b : BoundObject}, g.Grown tops →
    (∀ t ∈ tops, t < g.watchers.size) → g.watchers[w]? = some (.object plan site (some b)) →
    plan.drop b.subscriptions.length = rest → (∀ i, g.FreshAt plan b i) →
    Followed tops w g (follow rest g w site b)

section

variable {tops : List WatcherId} {site : Attachment}

/-- A dormant watcher of an object is bound. -/
theorem FollowSpec.object {plan : WatchPlan κ} (h : FollowSpec tops site plan) {g : World κ}
    (hg : g.Grown tops) (htops : ∀ t ∈ tops, t < g.watchers.size) {c : Nat}
    (hc : g.watchers[c]? = some (.object plan site none)) {s : Subject} (hs : g.hasValue s.value = true)
    (hanchor : c ∈ tops ∨ ∃ v, c ∈ g.listed v) :
    let g' := follow plan (g.bindObject c (opened s)) c site (opened s)
    Followed tops c g g' ∧ ∃ b, g'.watchers[c]? = some (.object plan site (some b)) ∧ b.subject.value = s.value := by
  have hclt : c < g.watchers.size := (Array.getElem?_eq_some_iff.mp hc).1
  have hgrown := hg.openObject hc hs hanchor
  have hgrows : Grows c g (g.bindObject c (opened s)) := bindObject_grows hc _
  have hc' : (g.bindObject c (opened s)).watchers[c]? = some (.object plan site (some (opened s))) := by
    rw [getElem?_bindObject hc, if_pos rfl]
  have hsize : (g.bindObject c (opened s)).watchers.size = g.watchers.size := by simp [bindObject]
  have hfol := h (w := c) (b := opened s) hgrown (fun t ht => lt_of_lt_of_le (htops t ht) hgrows.size) hc' rfl
    (fun i c' name' batch' hc' => by simp [opened] at hc')
  refine ⟨hfol.after hgrown hgrows hclt fun x hx hlt => ?_, ?_⟩
  · rw [hsize] at hlt
    exact absurd (lt_of_lt_of_le hlt hx) (lt_irrefl _)
  · obtain ⟨y, hy, hd, ht⟩ := hfol.grows.self _ hc'
    cases y with
    | collection => cases hd
    | object plan' site' bound =>
      cases bound with
      | none => exact absurd (ht rfl) (by simp [Watcher.target])
      | some b =>
        cases hd
        exact ⟨b, hy, Option.some.inj (ht rfl)⟩

/-- A dormant watcher of a collection is bound. -/
theorem FollowSpec.collection {item : WatchPlan κ} (h : FollowSpec tops site item) {g : World κ}
    (hg : g.Grown tops) (htops : ∀ t ∈ tops, t < g.watchers.size) {c : Nat} {membership : Batch κ}
    (hc : g.watchers[c]? = some (.collection item membership site none)) {d : CollectionId}
    (hd : g.hasValue (.collection d) = true) (hanchor : c ∈ tops ∨ ∃ v, c ∈ g.listed v) :
    let g' := enlistAll (fun g x b => follow item g x site b) c item site (g.wanted item d)
      (g.openCollection c d) { collection := d, subscription := g.nextSubscription, items := [] }
    Followed tops c g g' ∧ ∃ b, g'.watchers[c]? = some (.collection item membership site (some b)) ∧
      b.collection = d ∧ b.subscription = g.nextSubscription := by
  have hclt : c < g.watchers.size := (Array.getElem?_eq_some_iff.mp hc).1
  have hgrown := hg.openCollection hc hd hanchor
  have hgrows := openCollection_grows hg.filed hc hd
  set b : BoundCollection := { collection := d, subscription := g.nextSubscription, items := [] } with hb
  have hc' : (g.openCollection c d).watchers[c]? = some (.collection item membership site (some b)) :=
    (getElem?_bindCollection (g := g.enterChangeListener d (.membership c)) hc _ c).trans (if_pos rfl)
  have hsize : (g.openCollection c d).watchers.size = g.watchers.size := by
    simp [World.openCollection, bindCollection, enterChangeListener, modifyCollection]
  have hcomplete : (g.openCollection c d).Complete c := by
    constructor
    case plan =>
      intro plan site' b' hb'
      rw [hc'] at hb'
      cases hb'
    case items =>
      intro item' batch' site' b' hb' e he
      rw [hc'] at hb'
      cases hb'
      cases he
  have hexist : ∀ o ∈ g.wanted item d, (g.openCollection c d).hasObject o = true := by
    intro o ho
    refine (hasValue_congr hgrows.outline (.object o)).trans (hg.sane.items d o ?_)
    unfold wanted at ho
    split at ho
    · cases ho
    · exact ho
  have henl := enlistAll_spec (fun g x b => follow item g x site b) membership
    (fun hg' ht hx => h hg' ht hx rfl fun i c' name' batch' hc' => by simp [opened] at hc')
    (g.wanted item d) hgrown (fun t ht => lt_of_lt_of_le (htops t ht) hgrows.size) hc' hcomplete hexist
  obtain ⟨items, hitems, hmap, -⟩ := henl.books
  refine ⟨⟨henl.grown, hgrows.trans henl.grows hclt (Or.inl rfl), ?_, fun x hx hlt => henl.new x (hsize ▸ hx) hlt⟩,
    _, hitems, rfl, rfl⟩
  refine { henl.complete with
    fresh := fun {plan site' b'} hb' => ?_
    gathered := fun {item' batch' site' b'} hb' => ?_ }
  · rw [hitems] at hb'
    cases hb'
  · rw [hitems] at hb'
    cases hb'
    rw [henl.grows.wanted, hgrows.wanted, List.map_append, hmap]
    rfl

/-- What follows a value sees it. -/
theorem sees_subject {g : World κ} {c : Nat} {plan : WatchPlan κ} {b : BoundObject} {v : Value} {s : Subject}
    (hc : g.watchers[c]? = some (.object plan site (some b))) (hb : b.subject.value = s.value)
    (hv : v.subject? = some s) : g.Sees c v :=
  ⟨_, hc, by simp [Watcher.target, Watcher.seen, hv, hb]⟩

theorem sees_collection {g : World κ} {c : Nat} {item : WatchPlan κ} {batch : Batch κ} {b : BoundCollection}
    {v : Value} (hc : g.watchers[c]? = some (.collection item batch site (some b)))
    (hv : v.collection? = some b.collection) : g.Sees c v :=
  ⟨_, hc, by simp [Watcher.target, Watcher.seen, hv]⟩

theorem hasValue_of_subject {g : World κ} {v : Value} {s : Subject} (h : g.hasValue v = true)
    (hv : v.subject? = some s) : g.hasValue s.value = true := by
  cases v <;> cases hv <;> exact h

theorem hasValue_of_collection {g : World κ} {v : Value} {c : CollectionId} (h : g.hasValue v = true)
    (hv : v.collection? = some c) : g.hasValue (.collection c) = true := by
  cases v <;> cases hv
  exact h

/-- When the watcher at the next property has been seen to, the rest follows. -/
theorem FollowSpec.posted {next : WatchPlan κ} (h : FollowSpec tops site next) {g g₁ g₂ : World κ} {w : Nat}
    {plan : WatchPlan κ} {b : BoundObject} (hg : g.Grown tops) (htops : ∀ t ∈ tops, t < g.watchers.size)
    (hw : g.watchers[w]? = some (.object plan site (some b))) (hfresh : ∀ i, g.FreshAt plan b i)
    {name : String} {batch : Batch κ} (hentry : plan.place? b.subscriptions.length = some (name, batch))
    (hnext : plan.drop (b.subscriptions.length + 1) = next) (hgrows₁ : Grows w g g₁)
    (hw₁ : g₁.watchers[w]? = some (.object plan site (some (b.join g.nextSubscription (some g.watchers.size)))))
    (hsize₁ : g₁.watchers.size = g.watchers.size + 1) (hfol : Followed tops g.watchers.size g₁ g₂)
    (hsees : g₂.Sees g.watchers.size (g.memberValue b.subject name)) :
    Followed tops w g (follow next g₂ w site (b.join g.nextSubscription (some g.watchers.size))) := by
  have hwlt : w < g.watchers.size := (Array.getElem?_eq_some_iff.mp hw).1
  have hgrows : Grows w g g₂ := hgrows₁.trans hfol.grows hwlt (Or.inr (le_refl _))
  have hw₂ := hfol.grows.get hw₁ (ne_of_lt hwlt)
  have hrest := h hfol.grown (fun t ht => lt_of_lt_of_le (htops t ht) hgrows.size) hw₂
    (by simpa [BoundObject.join] using hnext)
    (hgrows.fresh_join hg.toShaped hw hfresh hentry (fun d hd => by cases hd; exact hsees) _)
  refine hrest.after hfol.grown hgrows hwlt fun x hx hlt => ?_
  rcases eq_or_lt_of_le hx with rfl | hx
  · exact hfol.settled
  · exact hfol.new x (hsize₁ ▸ hx) hlt

/-- **Following** a plan keeps a world grown, and what it binds is settled. -/
theorem follow_spec (rest : WatchPlan κ) : FollowSpec tops site rest := by
  -- what a plan says first is what stands at the place reached
  have hplace : ∀ {plan rest : WatchPlan κ} {n : Nat}, plan.drop n = rest →
      plan.place? n = rest.place? 0 ∧ plan.post? site n = rest.post? site 0 ∧ plan.drop (n + 1) = rest.tail := by
    rintro plan rest n rfl
    exact ⟨(plan.place?_drop n 0).symm, (plan.post?_drop site n 0).symm, plan.drop_succ n⟩
  induction rest with
  | nil =>
    intro g w plan b hg htops hw hdrop hfresh
    have hlen : b.subscriptions.length = plan.length := by
      have := plan.length_drop b.subscriptions.length
      rw [hdrop, Plan.length] at this
      exact le_antisymm (hg.fits hw) (Nat.sub_eq_zero_iff_le.mp this.symm)
    rw [follow]
    refine ⟨hg, Grows.refl w g, ?_, fun x hx hlt => absurd (lt_of_lt_of_le hlt hx) (lt_irrefl _)⟩
    constructor
    case toComplete =>
      constructor
      case plan =>
        intro plan' site' b' hb'
        rw [hw] at hb'
        cases hb'
        exact hlen
      case items =>
        intro item batch site' b' hb'
        rw [hw] at hb'
        cases hb'
    case fresh =>
      intro plan' site' b' hb'
      rw [hw] at hb'
      cases hb'
      exact hfresh
    case gathered =>
      intro item batch site' b' hb'
      rw [hw] at hb'
      cases hb'
  | value name batch next ih =>
    intro g w plan b hg htops hw hdrop hfresh
    obtain ⟨hentry, hpost, hnext⟩ := hplace hdrop
    have hgrows := subscribeMember_grows hg.sane hw (hg.known hw rfl) name none
    have hgrown : (g.subscribeMember w b name none).Grown tops :=
      hg.subscribeMember hw hentry hpost fun c hc => by cases hc
    have hw' : (g.subscribeMember w b name none).watchers[w]? =
        some (.object plan site (some (b.join g.nextSubscription none))) := by
      have hw' : (g.enterListener (g.home b.subject name) name (.member w b.subscriptions.length)).watchers[w]? =
          some (.object plan site (some b)) := by rw [enterListener_watchers, hw]
      exact (getElem?_bindObject hw' _ w).trans (if_pos rfl)
    have hsize : (g.subscribeMember w b name none).watchers.size = g.watchers.size := by
      unfold World.subscribeMember bindObject
      rw [Array.size_modify, enterListener_watchers]
    have hfol := ih hgrown (fun t ht => by rw [hsize]; exact htops t ht) hw'
      (by simpa [BoundObject.join, Plan.tail] using hnext)
      (hgrows.fresh_join hg.toShaped hw hfresh hentry (fun c hc => by cases hc) _)
    refine hfol.after hgrown hgrows (Array.getElem?_eq_some_iff.mp hw).1 fun x hx hlt => ?_
    rw [hsize] at hlt
    exact absurd (lt_of_lt_of_le hlt hx) (lt_irrefl _)
  | object name batch inside next ihInside ih =>
    intro g w plan b hg htops hw hdrop hfresh
    obtain ⟨hentry, hpost, hnext⟩ := hplace hdrop
    obtain ⟨hgrown₁, hgrows₁, hc₁, hlisted₁, hsize₁, hw₁⟩ :=
      hg.post (x := .object inside site none) htops hw hentry hpost rfl
    have htops₁ := fun t ht => lt_of_lt_of_le (htops t ht) hgrows₁.size
    rw [follow]
    cases hv : (g.memberValue b.subject name).subject? with
    | some s =>
      have hs : World.hasValue _ s.value = true :=
        hasValue_of_subject (hgrown₁.sane.hasValue_memberValue b.subject name)
          (by rw [memberValue_congr hgrows₁.outline]; exact hv)
      obtain ⟨hfol, b', hb', hsubject⟩ := ihInside.object hgrown₁ htops₁ hc₁ hs (Or.inr ⟨w, hlisted₁⟩)
      exact ih.posted hg htops hw hfresh hentry hnext hgrows₁ hw₁ hsize₁ hfol (sees_subject hb' hsubject hv)
    | none =>
      have hfol := hgrown₁.followed_dormant hc₁ rfl
      refine ih.posted hg htops hw hfresh hentry hnext hgrows₁ hw₁ hsize₁ hfol ⟨_, hc₁, ?_⟩
      simp [Watcher.target, Watcher.seen, hv]
  | collection name batch membership item next ihItem ih =>
    intro g w plan b hg htops hw hdrop hfresh
    obtain ⟨hentry, hpost, hnext⟩ := hplace hdrop
    obtain ⟨hgrown₁, hgrows₁, hc₁, hlisted₁, hsize₁, hw₁⟩ :=
      hg.post (x := .collection item membership site none) htops hw hentry hpost rfl
    have htops₁ := fun t ht => lt_of_lt_of_le (htops t ht) hgrows₁.size
    rw [follow]
    cases hv : (g.memberValue b.subject name).collection? with
    | some d =>
      have hd : World.hasValue _ (.collection d) = true :=
        hasValue_of_collection (hgrown₁.sane.hasValue_memberValue b.subject name)
          (by rw [memberValue_congr hgrows₁.outline]; exact hv)
      obtain ⟨hfol, b', hb', rfl, -⟩ := ihItem.collection hgrown₁ htops₁ hc₁ hd (Or.inr ⟨w, hlisted₁⟩)
      exact ih.posted hg htops hw hfresh hentry hnext hgrows₁ hw₁ hsize₁ hfol (sees_collection hb' hv)
    | none =>
      have hfol := hgrown₁.followed_dormant hc₁ rfl
      refine ih.posted hg htops hw hfresh hentry hnext hgrows₁ hw₁ hsize₁ hfol ⟨_, hc₁, ?_⟩
      simp [Watcher.target, Watcher.seen, hv]

end

end World
end LiveRules
