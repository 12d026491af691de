/-
# Members that come and go

A collection's watcher that is told of a change takes out, for each member that
left, the first watched one that is the same object, if it still watches one,
and comes to watch those that joined.

Key definitions: `World.regather`, `World.Regathered`.
Key theorems: `World.count_takeItems`, `World.Grown.foldl_unbind`,
`World.Grown.regather`.
-/
import LiveRules.Proofs.Watching.Rebind

namespace LiveRules
namespace World

variable {κ : Type}

/-! ### Taking members out -/

theorem takeItem_none {o : ObjectId} {items : List (ObjectId × WatcherId)} (h : takeItem o items = none) :
    o ∉ items.map (·.1) := by
  induction items with
  | nil => simp
  | cons e items ih =>
    rw [takeItem] at h
    split at h
    · cases h
    · rename_i he
      rw [List.map_cons, List.mem_cons, not_or]
      exact ⟨fun heq => he heq.symm, ih (Option.map_eq_none_iff.mp h)⟩

theorem takeItem_perm {o : ObjectId} {items rest : List (ObjectId × WatcherId)} {w : WatcherId}
    (h : takeItem o items = some (w, rest)) : items.Perm ((o, w) :: rest) := by
  induction items generalizing rest with
  | nil => cases h
  | cons e items ih =>
    rw [takeItem] at h
    split at h
    · rename_i he
      cases h
      rw [← he]
    · obtain ⟨⟨v, r⟩, hr, heq⟩ := Option.map_eq_some_iff.mp h
      cases heq
      exact ((ih hr).cons e).trans (List.Perm.swap _ _ _)

/-- What is taken and what stays are the items there were. -/
theorem takeItems_perm (os : List ObjectId) : ∀ items : List (ObjectId × WatcherId),
    ∃ taken, (takeItems items os).1 = taken.map (·.2) ∧ items.Perm (taken ++ (takeItems items os).2) := by
  induction os with
  | nil => exact fun items => ⟨[], rfl, List.Perm.refl _⟩
  | cons o os ih =>
    intro items
    rw [takeItems]
    split
    · rename_i w rest hr
      obtain ⟨taken, htaken, hperm⟩ := ih rest
      refine ⟨(o, w) :: taken, ?_, (takeItem_perm hr).trans (hperm.cons _)⟩
      simp [htaken]
    · exact ih items

/-- As many stay as there were, less those that left; none are owed. -/
theorem count_takeItems (o : ObjectId) (os : List ObjectId) : ∀ items : List (ObjectId × WatcherId),
    ((takeItems items os).2.map (·.1)).count o = (items.map (·.1)).count o - os.count o := by
  induction os with
  | nil => exact fun items => by simp [takeItems]
  | cons p os ih =>
    intro items
    rw [takeItems]
    split
    · rename_i w rest hr
      have hcount := ((takeItem_perm hr).map (·.1)).count_eq o
      rw [List.map_cons, List.count_cons] at hcount
      rw [List.count_cons, hcount]
      have := ih rest
      simp only at this ⊢
      omega
    · rename_i hr
      rw [ih, List.count_cons]
      by_cases hpo : p = o
      · subst hpo
        rw [List.count_eq_zero_of_not_mem (takeItem_none hr)]
        simp
      · simp [hpo]

/-! ### Unbinding several -/

/-- Several tops are unbound one after the other: all that hangs below them is
dormant then. -/
theorem Grown.foldl_unbind {tops : List WatcherId} (ws : List WatcherId) :
    ∀ {g : World κ}, g.Grown tops → (∀ t ∈ ws, t < g.watchers.size) →
      ∃ vs, Released g (ws.foldl World.unbind g) vs ∧ (ws.foldl World.unbind g).Grown tops ∧
        (∀ x ∈ vs, ∃ t ∈ ws, g.Under t x) ∧ (∀ t ∈ ws, t ∈ vs) ∧ ∀ x ∈ vs, ∀ y ∈ g.listed x, y ∈ vs := by
  induction ws with
  | nil => exact fun hg _ => ⟨[], Released.refl hg.filed, hg, by simp, by simp, by simp⟩
  | cons t ws ih =>
    intro g hg hws
    have ht := hws t List.mem_cons_self
    obtain ⟨hgrown, hrel⟩ := hg.unbind ht
    obtain ⟨vs, hrel', hgrown', hunder, hmem, hclosed⟩ :=
      ih hgrown fun u hu => hrel.size ▸ hws u (List.mem_cons_of_mem _ hu)
    have hlisted : ∀ {x y}, y ∈ (g.unbind t).listed x → y ∈ g.listed x := by
      intro x y hy
      unfold listed at hy ⊢
      rw [hrel.watchers] at hy
      split at hy
      · cases hx : g.watchers[x]? <;> simp [hx] at hy
      · exact hy
    have hself : t ∈ g.nodes t := (hg.mem_nodes ht).mpr .refl
    refine ⟨g.nodes t ++ vs, hrel.trans hrel', hgrown', fun x hx => ?_, fun u hu => ?_, fun x hx y hy => ?_⟩
    · rcases List.mem_append.mp hx with hx | hx
      · exact ⟨t, List.mem_cons_self, (hg.mem_nodes ht).mp hx⟩
      · obtain ⟨u, hu, hux⟩ := hunder x hx
        exact ⟨u, List.mem_cons_of_mem _ hu, hux.mono hlisted⟩
    · rcases List.mem_cons.mp hu with rfl | hu
      · exact List.mem_append_left _ hself
      · exact List.mem_append_right _ (hmem u hu)
    · by_cases hxt : x ∈ g.nodes t
      · refine List.mem_append_left _ ?_
        rw [hg.mem_nodes ht] at hxt ⊢
        exact hxt.tail hy
      · have hx := (List.mem_append.mp hx).resolve_left hxt
        refine List.mem_append_right _ (hclosed x hx y ?_)
        unfold listed
        rw [hrel.watchers, if_neg hxt]
        exact hy

/-! ### Both at once -/

/-- The watchers of members that left are taken out of `w` and released. -/
def taken (g : World κ) (w : WatcherId) (b : BoundCollection) (removed : List ObjectId) : World κ :=
  (takeItems b.items removed).1.foldl World.unbind
    (g.bindCollection w { b with items := (takeItems b.items removed).2 })

/-- The watcher `w` of a collection, whose books are `b`, is told of a change. -/
def regather (g : World κ) (w : WatcherId) (item : WatchPlan κ) (site : Attachment) (b : BoundCollection)
    (change : Change) : World κ :=
  enlistAll (fun g x b => follow item g x site b) w item site (if item.isNil then [] else change.added)
    (g.taken w b change.removed) { b with items := (takeItems b.items change.removed).2 }

/-- `g'` is `g` after `w` has been told of a change. -/
structure Regathered (tops : List WatcherId) (w : Nat) (item : WatchPlan κ) (batch : Batch κ) (site : Attachment)
    (b : BoundCollection) (change : Change) (g g' : World κ) : Prop where
  grown : g'.Grown tops
  outline : g'.outline = g.outline
  trees : g'.trees = g.trees
  size : g.watchers.size ≤ g'.watchers.size
  next : g.nextSubscription ≤ g'.nextSubscription
  books : ∃ joined, g'.watchers[w]? = some (.collection item batch site
      (some { b with items := (takeItems b.items change.removed).2 ++ joined })) ∧
    joined.map (·.1) = (if item.isNil then [] else change.added) ∧ ∀ e ∈ joined, g.watchers.size ≤ e.2
  complete : g'.Complete w
  settled : ∀ x, g.watchers.size ≤ x → x < g'.watchers.size → g'.Settled x
  kept : ∀ {x : Nat} {y : Watcher κ}, g'.watchers[x]? = some y → y.target.isSome = true → x ≠ w →
    x < g.watchers.size → g.watchers[x]? = some y ∧ ∀ c ∈ g.listed x, c ≠ w → g'.watchers[c]? = g.watchers[c]?
  top_kept : ∀ r ∈ tops, r < g.watchers.size → r ≠ w → g'.watchers[r]? = g.watchers[r]?
  old : ∀ {s p e}, e ∈ g'.listeners s p → e ∈ g.listeners s p ∨ g.nextSubscription ≤ e.1
  oldChanges : ∀ {c e}, e ∈ g'.listenersOfCollection c → e ∈ g.listenersOfCollection c ∨ g.nextSubscription ≤ e.1

theorem bindCollection_self {g : World κ} {w : Nat} {item batch site b}
    (hw : g.watchers[w]? = some (.collection item batch site (some b))) : g.bindCollection w b = g := by
  have hmod : ∀ (a : Array (Watcher κ)) (f : Watcher κ → Watcher κ) x, a[w]? = some x → f x = x → a.modify w f = a := by
    intro a f x hx hf
    apply Array.ext_getElem?
    intro n
    rw [Array.getElem?_modify]
    split
    · rename_i hn
      subst hn
      rw [hx, Option.map_some, hf]
    · rfl
  unfold bindCollection
  rw [hmod g.watchers _ _ hw rfl]

/-- Members are struck off the books of `w`: their watchers, which were listed there, hang on
nothing now. -/
theorem Grown.struck {tops : List WatcherId} {g : World κ} (hg : g.Grown tops) {w : Nat} {item batch site b}
    (hw : g.watchers[w]? = some (.collection item batch site (some b))) (removed : List ObjectId) :
    (g.bindCollection w { b with items := (takeItems b.items removed).2 }).Grown
        (tops ++ (takeItems b.items removed).1) ∧
      (∀ t ∈ (takeItems b.items removed).1, t ∈ g.listed w) ∧ ∀ e ∈ (takeItems b.items removed).2, e ∈ b.items := by
  obtain ⟨taken, htaken, hperm⟩ := takeItems_perm removed b.items
  set ws := (takeItems b.items removed).1 with hws
  set stay := (takeItems b.items removed).2 with hstay
  have hnodup : (taken.map (·.2) ++ stay.map (·.2)).Nodup := by
    rw [← List.map_append]
    refine ((hperm.map _).nodup_iff).mp ?_
    have := hg.nodup w
    rwa [listed_of_get hw] at this
  have hleft : ∀ t ∈ ws, t ∈ b.items.map (·.2) := by
    intro t ht
    rw [htaken] at ht
    obtain ⟨e, he, rfl⟩ := List.mem_map.mp ht
    exact List.mem_map_of_mem (hperm.mem_iff.mpr (List.mem_append_left _ he))
  have hstays : ∀ e ∈ stay, e ∈ b.items := fun e he => hperm.mem_iff.mpr (List.mem_append_right _ he)
  refine ⟨?_, fun t ht => ?_, hstays⟩
  · refine hg.rebookItems hw (List.nodup_append.mp hnodup).2.1 (fun e he => Or.inl (hstays e he)) (fun e he => ?_)
      (fun c hc => Or.inl (List.mem_append_left _ hc)) fun c hc => ?_
    · rcases List.mem_append.mp (hperm.mem_iff.mp he) with he | he
      · refine Or.inr (List.mem_append_right _ ?_)
        rw [htaken]
        exact List.mem_map_of_mem he
      · exact Or.inl (List.mem_map_of_mem he)
    · refine (List.mem_append.mp hc).imp_right fun hc => ⟨hleft c hc, fun hs => ?_⟩
      exact (List.nodup_append.mp hnodup).2.2 c (htaken ▸ hc) c hs rfl
  · rw [listed_of_get hw]
    exact hleft t ht

/-- What taking members out of `w` releases: `vs`, which hang on nothing now. -/
structure Taken (tops : List WatcherId) (w : Nat) (item : WatchPlan κ) (batch : Batch κ) (site : Attachment)
    (b stay : BoundCollection) (g g' : World κ) (vs : List WatcherId) : Prop where
  grown : g'.Grown tops
  released : Released (g.bindCollection w stay) g' vs
  books : g'.watchers[w]? = some (.collection item batch site (some stay))
  items : ∀ e ∈ stay.items, e ∈ b.items
  closed : ∀ {x y}, x ∉ vs → y ∈ (g.bindCollection w stay).listed x → y ∉ vs
  top_kept : ∀ r ∈ tops, r ∉ vs
  kept : w ∉ vs

theorem Grown.taken {tops : List WatcherId} {g : World κ} (hg : g.Grown tops) {w : Nat} {item batch site b}
    (hw : g.watchers[w]? = some (.collection item batch site (some b))) (removed : List ObjectId) :
    ∃ vs, Taken tops w item batch site b { b with items := (takeItems b.items removed).2 } g
      (g.taken w b removed) vs := by
  obtain ⟨hgrown₁, hwsItems, hstays⟩ := hg.struck hw removed
  unfold World.taken
  set ws := (takeItems b.items removed).1 with hws
  set b₁ : BoundCollection := { b with items := (takeItems b.items removed).2 } with hb₁
  set g₁ := g.bindCollection w b₁ with hg₁
  have hget₁ := getElem?_bindCollection hw b₁
  have hsize₁ : g₁.watchers.size = g.watchers.size := by simp [hg₁, bindCollection]
  obtain ⟨vs, hrel, hgrown₂, hunder, hmem, hclosed⟩ := hgrown₁.foldl_unbind ws fun t ht => by
    rw [hsize₁]
    exact hg.lt_of_mem_listed (hwsItems t ht)
  set g₂ := ws.foldl World.unbind g₁ with hg₂
  have hwvs : w ∉ vs := by
    intro hwvs
    obtain ⟨t, ht, htw⟩ := hunder w hwvs
    exact absurd (hg.older (hwsItems t ht)) (not_lt.mpr (hgrown₁.le_of_under htw))
  refine ⟨vs, ?_⟩
  constructor
  case grown =>
    refine hgrown₂.retop (fun c hc hbound => ?_) fun c hc v hv => hgrown₂.topmost (List.mem_append_left _ hc) hv
    obtain ⟨x, hx, ht⟩ := hbound
    rcases List.mem_append.mp hc with hc | hc
    · exact hc
    · rw [hrel.watchers, if_pos (hmem c hc)] at hx
      obtain ⟨z, -, rfl⟩ := Option.map_eq_some_iff.mp hx
      simp at ht
  case released => exact hrel
  case books => rw [hrel.watchers, if_neg hwvs, hg₁, hget₁, if_pos rfl]
  case items => exact hstays
  case closed =>
    intro x y hx hy hyvs
    obtain ⟨t, ht, hty⟩ := hunder y hyvs
    rcases hgrown₁.under_lister hy hty with heq | htx
    · exact hgrown₁.topmost (List.mem_append_right _ ht) (heq ▸ hy)
    · exact hx (htx.mem_of_closed hclosed (hmem t ht))
  case top_kept =>
    intro r hr hrvs
    obtain ⟨t, ht, htr⟩ := hunder r hrvs
    have heq := hgrown₁.eq_of_under_top (List.mem_append_left _ hr) htr
    exact hg.topmost hr (heq ▸ hwsItems t ht)
  case kept => exact hwvs

/-- **Regathering** keeps a world grown. -/
theorem Grown.regather {tops : List WatcherId} {g : World κ} (hg : g.Grown tops)
    (htops : ∀ t ∈ tops, t < g.watchers.size) {w : Nat} {item batch site b}
    (hw : g.watchers[w]? = some (.collection item batch site (some b))) (hcomplete : g.Complete w)
    {change : Change} (hadded : ∀ o ∈ change.added, g.hasObject o = true) :
    Regathered tops w item batch site b change g (g.regather w item site b change) := by
  obtain ⟨vs, htaken⟩ := hg.taken hw change.removed
  set b₁ : BoundCollection := { b with items := (takeItems b.items change.removed).2 } with hb₁
  set g₁ := g.bindCollection w b₁ with hg₁
  set g₂ := g.taken w b change.removed with hg₂
  have hrel := htaken.released
  have hlistedItems : ∀ e ∈ b.items, e.2 ∈ g.listed w := by
    intro e he
    rw [listed_of_get hw]
    exact List.mem_map_of_mem he
  have hget₁ := getElem?_bindCollection hw b₁
  have hsize₂ : g₂.watchers.size = g.watchers.size := hrel.size.trans (by simp [bindCollection])
  have houtline₂ : g₂.outline = g.outline := hrel.outline
  have hcomplete₂ : g₂.Complete w := by
    constructor
    case plan =>
      intro plan site' b' hb'
      rw [htaken.books] at hb'
      cases hb'
    case items =>
      intro item' batch' site' b' hb' e he
      rw [htaken.books] at hb'
      cases hb'
      have he' : e ∈ b.items := htaken.items e he
      obtain ⟨x, hx, ht⟩ := hcomplete.items hw e he'
      refine ⟨x, ?_, ht⟩
      have hmem₁ : e.2 ∈ g₁.listed w := by
        rw [listed_of_get ((hget₁ w).trans (if_pos rfl))]
        exact List.mem_map_of_mem he
      rw [hrel.watchers, if_neg (htaken.closed htaken.kept hmem₁), hget₁,
        if_neg (ne_of_gt (hg.older (hlistedItems e he'))), hx]
  have henl := enlistAll_spec (fun g x b => follow item g x site b) batch
    (fun hg' ht hx => follow_spec item hg' ht hx rfl fun i c name batch' hc => by simp [opened] at hc)
    (if item.isNil then [] else change.added) htaken.grown (fun t ht => hsize₂ ▸ htops t ht) htaken.books hcomplete₂
    (fun o ho => by
      refine (hasValue_congr houtline₂ (.object o)).trans (hadded o ?_)
      split at ho
      · cases ho
      · exact ho)
  obtain ⟨joined, hjoined, hmap, hyoung⟩ := henl.books
  have hget : ∀ {x : Nat}, x < g.watchers.size → x ≠ w →
      (g.regather w item site b change).watchers[x]? =
        if x ∈ vs then g.watchers[x]?.map Watcher.dormant else g.watchers[x]? := by
    intro x hx hxw
    have := henl.grows.others x (hsize₂ ▸ hx) hxw
    refine this.trans ?_
    rw [hrel.watchers, hget₁, if_neg hxw]
  have hlisted₁ : ∀ {x}, x ≠ w → g₁.listed x = g.listed x := by
    intro x hx
    unfold listed
    rw [hg₁, hget₁, if_neg hx]
  constructor
  case grown => exact henl.grown
  case outline => exact henl.grows.outline.trans houtline₂
  case trees => exact henl.grows.trees.trans hrel.trees
  case size => exact hsize₂ ▸ henl.grows.size
  case next =>
    have := henl.grows.next
    rw [hrel.next] at this
    exact this
  case books => exact ⟨joined, hjoined, hmap, fun e he => hsize₂ ▸ hyoung e he⟩
  case complete => exact henl.complete
  case settled => exact fun x hx hlt => henl.new x (hsize₂ ▸ hx) hlt
  case kept =>
    intro x y hx ht hxw hxlt
    rw [hget hxlt hxw] at hx
    split at hx
    · obtain ⟨z, -, rfl⟩ := Option.map_eq_some_iff.mp hx
      simp at ht
    · rename_i hxvs
      refine ⟨hx, fun c hc hcw => ?_⟩
      rw [hget (hg.lt_of_mem_listed hc) hcw, if_neg (htaken.closed hxvs (by rw [hlisted₁ hxw]; exact hc))]
  case top_kept =>
    intro r hr hrlt hrw
    rw [hget hrlt hrw, if_neg (htaken.top_kept r hr)]
  case old =>
    intro s p e he
    obtain ⟨new, heq, hnew⟩ := henl.grows.listeners s p
    have he : e ∈ g₂.listeners s p ++ new := heq ▸ he
    rcases List.mem_append.mp he with he | he
    · rw [hrel.listeners] at he
      exact Or.inl (List.mem_of_mem_filter he)
    · have := hnew e he
      rw [hrel.next] at this
      exact Or.inr this
  case oldChanges =>
    intro c e he
    obtain ⟨new, heq, hnew⟩ := henl.grows.changes c
    have he : e ∈ g₂.listenersOfCollection c ++ new := heq ▸ he
    rcases List.mem_append.mp he with he | he
    · rw [hrel.changes] at he
      exact Or.inl (List.mem_of_mem_filter he)
    · have := hnew e he
      rw [hrel.next] at this
      exact Or.inr this

end World
end LiveRules
