/-
# A tree and its copy

Two worlds are twins if they are the same but for one tree and what watches for it: in
the one it is attached to a base, in the other to an object that forwards to the base,
and its actions act on the base of that object. The watchers of both stand at the same
places and hold the same subscriptions. Whatever is done with watchers and trees in the
two worlds leaves them twins.

Key definitions: `Guise`, `Watcher.Twin`, `World.Twin`.
Key theorems: `World.Twin.nodes`, `World.Twin.unbind`, `World.Twin.dispose`.
-/
import LiveRules.Proofs.Derived.Alike
import LiveRules.Proofs.Derived.Plans

namespace LiveRules

variable {κ : Type}

/-- An attachment and its twin, and what becomes of the actions that are fired for it. -/
inductive Guise (d b : ObjectId) : Attachment → Attachment → (Action κ → Action κ) → Prop
  | same (site : Attachment) : Guise d b site site id
  | based (tree : TreeId) (top : WatcherId) : Guise d b ⟨tree, top, b⟩ ⟨tree, top, d⟩ .onBase

/-- The same value, or the object that forwards in place of its base. -/
def Value.Twin (d b : ObjectId) (v v' : Value) : Prop :=
  v' = v ∨ v = .object b ∧ v' = .object d

/-- The same subject, or the object that forwards in place of its base. -/
def Subject.Twin (d b : ObjectId) (s s' : Subject) : Prop :=
  s' = s ∨ s = .object b ∧ s' = .object d

structure BoundObject.Twin (d b : ObjectId) (x x' : BoundObject) : Prop where
  subject : x.subject.Twin d b x'.subject
  subscriptions : x'.subscriptions = x.subscriptions
  children : x'.children = x.children

inductive Watcher.Twin (d b : ObjectId) : Watcher κ → Watcher κ → Prop
  | object {plan : WatchPlan κ} {site site' : Attachment} {f : Action κ → Action κ} {bound bound' : Option BoundObject}
      (h : Guise d b site site' f) (hbound : Option.Rel (BoundObject.Twin d b) bound bound') :
      Twin d b (.object plan site bound) (.object (plan.map (onActions f)) site' bound')
  | collection {item : WatchPlan κ} {membership : Batch κ} {site site' : Attachment} {f : Action κ → Action κ}
      {bound : Option BoundCollection} (h : Guise d b site site' f) :
      Twin d b (.collection item membership site bound)
        (.collection (item.map (onActions f)) (membership.map (onActions f)) site' bound)

/-- The tree at the place `i`: if it is the tree `t`, its actions act on the base. -/
def Tree.guise (t i : TreeId) (x : Tree κ) : Tree κ :=
  if i = t then { x with plan := x.plan.map (onActions .onBase) } else x

/-- See the head of this file. -/
inductive World.Twin (t : TreeId) (d b : ObjectId) (g : World κ) : World κ → Prop
  | refit (ws : Array (Watcher κ)) (ts : Array (Tree κ)) (hsize : ws.size = g.watchers.size)
      (hwatchers : ∀ w : Nat, Option.Rel (Watcher.Twin d b) g.watchers[w]? ws[w]?)
      (htrees : ∀ i : Nat, ts[i]? = g.trees[i]?.map (Tree.guise t i)) : Twin t d b g (g.refit ws ts)

/-! ### The same is a twin -/

theorem Value.Twin.refl (d b : ObjectId) (v : Value) : v.Twin d b v :=
  Or.inl rfl

theorem Subject.Twin.refl (d b : ObjectId) (s : Subject) : s.Twin d b s :=
  Or.inl rfl

theorem Subject.Twin.value {d b : ObjectId} {s s' : Subject} (h : s.Twin d b s') : s.value.Twin d b s'.value := by
  rcases h with rfl | ⟨rfl, rfl⟩
  · exact .refl d b _
  · exact Or.inr ⟨rfl, rfl⟩

theorem Plan.map_onActions_id (plan : WatchPlan κ) : plan.map (onActions id) = plan :=
  plan.map_id

theorem Batch.map_onActions_id (batch : Batch κ) : batch.map (onActions id) = batch :=
  List.map_id _

theorem Watcher.Twin.refl (d b : ObjectId) (x : Watcher κ) : x.Twin d b x := by
  cases x with
  | object plan site bound =>
    have hbound : Option.Rel (BoundObject.Twin d b) bound bound := by
      cases bound with
      | none => exact .none
      | some x => exact .some ⟨.refl d b _, rfl, rfl⟩
    have h : Watcher.Twin d b (.object plan site bound) (.object (plan.map (onActions id)) site bound) :=
      .object (.same site) hbound
    rwa [Plan.map_onActions_id] at h
  | collection item membership site bound =>
    have h : Watcher.Twin d b (.collection item membership site bound)
        (.collection (item.map (onActions id)) (membership.map (onActions id)) site bound) := .collection (.same site)
    rwa [Plan.map_onActions_id, Batch.map_onActions_id] at h

namespace World

variable {t : TreeId} {d b : ObjectId} {g g' : World κ}

/-- A tree that does not exist yet makes no difference. -/
theorem Twin.refl (h : g.trees.size ≤ t) : g.Twin t d b g := by
  refine .refit g.watchers g.trees rfl (fun w => ?_) fun i => ?_
  · cases g.watchers[w]? with
    | none => exact .none
    | some x => exact .some (.refl d b x)
  · by_cases hi : i < g.trees.size
    · have hne : i ≠ t := (lt_of_lt_of_le hi h).ne
      rw [Array.getElem?_eq_getElem hi]
      simp [Tree.guise, hne]
    · rw [Array.getElem?_eq_none (Nat.le_of_not_lt hi)]
      rfl

/-! ### What is the same in twins -/

section

variable (h : g.Twin t d b g')

include h

theorem Twin.frame : g' = g.refit g'.watchers g'.trees := by
  cases h
  rfl

theorem Twin.outline : g'.outline = g.outline := by
  cases h
  rfl

theorem Twin.size : g'.watchers.size = g.watchers.size := by
  cases h with
  | refit ws ts hsize _ _ => exact hsize

theorem Twin.watcher (w : WatcherId) : Option.Rel (Watcher.Twin d b) g.watchers[w]? g'.watchers[w]? := by
  cases h with
  | refit ws ts _ hwatchers _ => exact hwatchers w

theorem Twin.tree (i : TreeId) : g'.trees[i]? = g.trees[i]?.map (Tree.guise t i) := by
  cases h with
  | refit ws ts _ _ htrees => exact htrees i

theorem Twin.trees_size : g'.trees.size = g.trees.size := by
  refine le_antisymm (Nat.le_of_not_lt fun hlt => ?_) (Nat.le_of_not_lt fun hlt => ?_)
  · have htree := h.tree g.trees.size
    rw [Array.getElem?_eq_getElem hlt, Array.getElem?_eq_none le_rfl] at htree
    cases htree
  · have htree := h.tree g'.trees.size
    rw [Array.getElem?_eq_getElem hlt, Array.getElem?_eq_none le_rfl] at htree
    cases htree

theorem Twin.treeRoot (i : TreeId) : g'.treeRoot i = g.treeRoot i := by
  unfold World.treeRoot
  rw [h.tree]
  cases g.trees[i]? with
  | none => rfl
  | some x =>
    simp only [Option.map_some, Option.bind_some, Tree.guise]
    split <;> rfl

theorem Twin.childrenOf (w : WatcherId) : g'.childrenOf w = g.childrenOf w := by
  have hw := h.watcher w
  unfold World.childrenOf boundObject?
  generalize g.watchers[w]? = x at hw ⊢
  generalize g'.watchers[w]? = x' at hw ⊢
  cases hw with
  | none => rfl
  | some hx =>
    cases hx with
    | object _ hbound =>
      cases hbound with
      | none => rfl
      | some hb => exact hb.children
    | collection _ => rfl

theorem Twin.watchedItems (w : WatcherId) : g'.watchedItems w = g.watchedItems w := by
  have hw := h.watcher w
  unfold World.watchedItems boundCollection?
  generalize g.watchers[w]? = x at hw ⊢
  generalize g'.watchers[w]? = x' at hw ⊢
  cases hw with
  | none => rfl
  | some hx => cases hx <;> rfl

theorem Twin.ownSubscriptions (w : WatcherId) : g'.ownSubscriptions w = g.ownSubscriptions w := by
  have hw := h.watcher w
  unfold World.ownSubscriptions
  generalize g.watchers[w]? = x at hw ⊢
  generalize g'.watchers[w]? = x' at hw ⊢
  cases hw with
  | none => rfl
  | some hx =>
    cases hx with
    | object _ hbound =>
      cases hbound with
      | none => rfl
      | some hb => exact congrArg List.length hb.subscriptions
    | @collection _ _ _ _ _ bound _ => cases bound <;> rfl

theorem Twin.below (f : Action κ → Action κ) (plan : WatchPlan κ) (cs : List (Option WatcherId)) :
    g'.below (plan.map (onActions f)) cs = g.below plan cs := by
  induction plan generalizing cs with
  | nil => rfl
  | value n fire next ih =>
    cases cs with
    | nil => rfl
    | cons c cs => exact ih cs
  | object n fire inside next ihInside ih =>
    cases cs with
    | nil => rfl
    | cons c cs => simp only [Plan.map, World.below, h.childrenOf, ihInside, ih]
  | collection n fire m item next ihItem ih =>
    cases cs with
    | nil => rfl
    | cons c cs => simp only [Plan.map, World.below, h.childrenOf, h.watchedItems, ihItem, ih]

/-- **The same watchers** stand below a watcher. -/
theorem Twin.nodes (w : WatcherId) : g'.nodes w = g.nodes w := by
  have hw := h.watcher w
  unfold World.nodes
  rw [h.childrenOf, h.watchedItems]
  generalize g.watchers[w]? = x at hw ⊢
  generalize g'.watchers[w]? = x' at hw ⊢
  cases hw with
  | none => rfl
  | some hx =>
    cases hx with
    | object _ _ => simp only [h.below]
    | collection _ => simp only [h.below, h.childrenOf]

theorem Twin.isAttached (i : TreeId) : g'.isAttached i = g.isAttached i := by
  unfold World.isAttached
  rw [h.treeRoot]

theorem Twin.subscriptionCount (i : TreeId) : g'.subscriptionCount i = g.subscriptionCount i := by
  have hown : g'.ownSubscriptions = g.ownSubscriptions := funext h.ownSubscriptions
  have hnodes : g'.nodes = g.nodes := funext h.nodes
  simp only [World.subscriptionCount, h.treeRoot, hnodes, hown]

theorem Twin.planted : g'.planted = g.planted := by
  have hroots : g'.trees.toList.map (·.root) = g.trees.toList.map (·.root) := by
    apply List.ext_getElem?
    intro i
    simp only [List.getElem?_map, Array.getElem?_toList, h.tree, Option.map_map]
    cases g.trees[i]? with
    | none => rfl
    | some x =>
      simp only [Option.map_some, Function.comp_apply, Tree.guise]
      split <;> rfl
  have hnodes : g'.nodes = g.nodes := funext h.nodes
  have hfilter : ∀ g : World κ, g.trees.toList.filterMap (·.root) = (g.trees.toList.map (·.root)).filterMap id := by
    intro g
    rw [List.filterMap_map]
    rfl
  unfold World.planted
  rw [hfilter, hroots, hnodes, ← hfilter]

theorem Twin.heldNodes {held held' : List Held} (hheld : heldWatchers held' = heldWatchers held) :
    g'.heldNodes held' = g.heldNodes held := by
  unfold World.heldNodes
  rw [hheld, funext h.nodes]

/-! ### What leaves twins -/

/-- What concerns neither watchers nor trees. -/
theorem Twin.frameOf (g₁ : World κ) (hwatchers : g₁.watchers = g.watchers) (htrees : g₁.trees = g.trees) :
    g₁.Twin t d b (g₁.refit g'.watchers g'.trees) := by
  refine .refit g'.watchers g'.trees ?_ (fun w => ?_) fun i => ?_
  · rw [hwatchers, h.size]
  · rw [hwatchers]
    exact h.watcher w
  · rw [htrees]
    exact h.tree i

theorem Twin.modifyWatcher (f f' : Watcher κ → Watcher κ) (w : WatcherId)
    (hf : ∀ x x', x.Twin d b x' → (f x).Twin d b (f' x')) :
    Twin t d b { g with watchers := g.watchers.modify w f } { g' with watchers := g'.watchers.modify w f' } := by
  cases h with
  | refit ws ts hsize hwatchers htrees =>
    refine .refit (ws.modify w f') ts (by simpa using hsize) (fun v => ?_) htrees
    have hv := hwatchers v
    simp only [Array.getElem?_modify]
    split
    · generalize g.watchers[v]? = x at hv ⊢
      generalize ws[v]? = x' at hv ⊢
      cases hv with
      | none => exact .none
      | some hx => exact .some (hf _ _ hx)
    · exact hv

theorem Twin.addWatcher {x x' : Watcher κ} (hx : x.Twin d b x') : (g.addWatcher x).Twin t d b (g'.addWatcher x') := by
  cases h with
  | refit ws ts hsize hwatchers htrees =>
    refine .refit (ws.push x') ts (by simpa [World.addWatcher] using hsize) (fun v => ?_) htrees
    simp only [World.addWatcher, Array.getElem?_push, hsize]
    split
    · exact .some hx
    · exact hwatchers v

theorem Twin.bindObject {x x' : BoundObject} (w : WatcherId) (hx : x.Twin d b x') :
    (g.bindObject w x).Twin t d b (g'.bindObject w x') := by
  refine h.modifyWatcher _ _ w fun y y' hy => ?_
  cases hy with
  | object hguise _ => exact .object hguise (.some hx)
  | collection hguise => exact .collection hguise

theorem Twin.bindCollection (w : WatcherId) (x : BoundCollection) :
    (g.bindCollection w x).Twin t d b (g'.bindCollection w x) := by
  refine h.modifyWatcher _ _ w fun y y' hy => ?_
  cases hy with
  | object hguise hbound => exact .object hguise hbound
  | collection hguise => exact .collection hguise

theorem Twin.modifyTree (i : TreeId) {f : Tree κ → Tree κ} (hf : ∀ x, f (Tree.guise t i x) = Tree.guise t i (f x)) :
    (g.modifyTree i f).Twin t d b (g'.modifyTree i f) := by
  cases h with
  | refit ws ts hsize hwatchers htrees =>
    refine .refit ws (ts.modify i f) hsize hwatchers fun j => ?_
    simp only [World.modifyTree, Array.getElem?_modify, htrees]
    split
    · rename_i hij
      subst hij
      cases g.trees[i]? with
      | none => rfl
      | some x => exact congrArg some (hf x)
    · rfl

theorem Twin.reroot (i : TreeId) (r : Option WatcherId) :
    (g.modifyTree i fun x => { x with root := r }).Twin t d b (g'.modifyTree i fun x => { x with root := r }) := by
  refine h.modifyTree i fun x => ?_
  unfold Tree.guise
  split <;> rfl

theorem Twin.giveUp (i : TreeId) :
    (g.modifyTree i fun x => { x with dropped := true }).Twin t d b
      (g'.modifyTree i fun x => { x with dropped := true }) := by
  refine h.modifyTree i fun x => ?_
  unfold Tree.guise
  split <;> rfl

/-- Another tree is the same in both. -/
theorem Twin.newTree (ht : t < g.trees.size) (plan : WatchPlan κ) :
    Twin t d b { g with trees := g.trees.push { plan } } { g' with trees := g'.trees.push { plan } } := by
  have htreesSize := h.trees_size
  cases h with
  | refit ws ts hsize hwatchers htrees =>
    refine .refit ws (ts.push { plan }) hsize hwatchers fun j => ?_
    have hts : ts.size = g.trees.size := htreesSize
    simp only [Array.getElem?_push, hts, htrees]
    split
    · rename_i hj
      have hne : j ≠ t := hj ▸ ht.ne'
      simp [Tree.guise, hne]
    · rfl

/-- The tree and its copy are made. -/
theorem Twin.newCopy (ht : g.trees.size = t) (plan : WatchPlan κ) : Twin t d b { g with trees := g.trees.push { plan } }
    { g' with trees := g'.trees.push { plan := plan.map (onActions .onBase) } } := by
  have htreesSize := h.trees_size
  cases h with
  | refit ws ts hsize hwatchers htrees =>
    refine .refit ws (ts.push { plan := plan.map (onActions .onBase) }) hsize hwatchers fun j => ?_
    have hts : ts.size = g.trees.size := htreesSize
    simp only [Array.getElem?_push, hts, htrees]
    split
    · rename_i hj
      have heq : j = t := hj.trans ht
      simp [Tree.guise, heq]
    · rfl

theorem Twin.unsubscribe (s : Subject) (id : SubscriptionId) :
    (g.unsubscribe s id).Twin t d b (g'.unsubscribe s id) := by
  obtain ⟨hwatchers, htrees⟩ := g.unsubscribe_watchers s id
  have hframe := h.frame
  conv_rhs => rw [hframe, unsubscribe_refit]
  exact h.frameOf _ hwatchers htrees

theorem Twin.unsubscribeChanges (c : CollectionId) (id : SubscriptionId) :
    (g.unsubscribeChanges c id).Twin t d b (g'.unsubscribeChanges c id) := by
  have hframe := h.frame
  conv_rhs => rw [hframe]
  exact h.frameOf (g.unsubscribeChanges c id) rfl rfl

variable (hfronts : g.Fronts d b)

include hfronts

/-- Subscriptions through the object that forwards are taken back at its base. -/
theorem Twin.unsubscribe_twin {s s' : Subject} (hs : s.Twin d b s') (id : SubscriptionId) :
    (g.unsubscribe s id).Twin t d b (g'.unsubscribe s' id) := by
  rcases hs with rfl | ⟨rfl, rfl⟩
  · exact h.unsubscribe _ id
  · have hframe := h.frame
    have hsame : g'.unsubscribe (.object d) id = g'.unsubscribe (.object b) id := by
      rw [hframe, unsubscribe_refit, unsubscribe_refit, hfronts.unsubscribe_eq]
    rw [hsame]
    exact h.unsubscribe _ id

theorem Twin.release (w : WatcherId) : (g.release w).Twin t d b (g'.release w) := by
  have hfold : ∀ (ids : List SubscriptionId) {g g' : World κ} {s s' : Subject}, g.Twin t d b g' → g.Fronts d b →
      s.Twin d b s' → (ids.foldl (fun g id => g.unsubscribe s id) g).Twin t d b
        (ids.foldl (fun g id => g.unsubscribe s' id) g') := by
    intro ids
    induction ids with
    | nil => exact fun h _ _ => h
    | cons id ids ih => exact fun h hfronts hs => ih (h.unsubscribe_twin hfronts hs id) (hfronts.unsubscribe _ id) hs
  have hset : ∀ {x x' : Watcher κ}, x.Twin d b x' →
      Twin t d b { g with watchers := g.watchers.setIfInBounds w x }
        { g' with watchers := g'.watchers.setIfInBounds w x' } := by
    intro x x' hx
    rw [setIfInBounds_eq_modify, setIfInBounds_eq_modify]
    exact h.modifyWatcher (fun _ => x) (fun _ => x') w fun _ _ _ => hx
  have hw := h.watcher w
  unfold World.release
  generalize g.watchers[w]? = x at hw ⊢
  generalize g'.watchers[w]? = x' at hw ⊢
  cases hw with
  | none => exact h
  | some hx =>
    cases hx with
    | object hguise hbound =>
      cases hbound with
      | none => exact h
      | some hb =>
        simp only [hb.subscriptions]
        refine hfold _ (hset (.object hguise .none)) ?_ hb.subject
        exact hfronts.of_watching rfl (hfronts.forwards.congr rfl)
    | @collection _ _ _ _ _ bound hguise =>
      cases bound with
      | none => exact h
      | some x => exact (hset (.collection hguise)).unsubscribeChanges _ _

theorem Twin.unbind (w : WatcherId) : (g.unbind w).Twin t d b (g'.unbind w) := by
  unfold World.unbind
  rw [h.nodes]
  generalize g.nodes w = ws
  induction ws generalizing g g' with
  | nil => exact h
  | cons w ws ih => exact ih (h.release hfronts w) (hfronts.release w)

theorem Twin.foldl_unbind (ws : List WatcherId) : (ws.foldl World.unbind g).Twin t d b (ws.foldl World.unbind g') := by
  induction ws generalizing g g' with
  | nil => exact h
  | cons w ws ih => exact ih (h.unbind hfronts w) (hfronts.unbind w)

theorem Twin.dispose (i : TreeId) : (g.dispose i).Twin t d b (g'.dispose i) := by
  unfold World.dispose
  rw [h.treeRoot]
  split
  · exact (h.reroot i none).unbind (hfronts.of_watching rfl (hfronts.forwards.congr rfl)) _
  · exact h

end

end World
end LiveRules
