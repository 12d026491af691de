/-
# Rebinding

A watcher that is bound anew lets go of all that hung below it and follows the
new value with watchers of its own. Everything that does not hang below it
stays as it was, and new subscriptions come after all others.

Key definitions: `World.rebind`, `World.Rebound`.
Key theorems: `World.Grown.rebind`.
-/
import LiveRules.Proofs.Watching.Follow

namespace LiveRules
namespace World

variable {κ : Type}

/-- Binds a watcher anew: what hung below it is released first. -/
def rebind (g : World κ) (w : WatcherId) (v : Value) : World κ :=
  match (g.unbind w).watchers[w]? with
  | some (.object plan site _) =>
    v.subject?.elim (g.unbind w) fun s => follow plan ((g.unbind w).bindObject w (opened s)) w site (opened s)
  | some (.collection item _ site _) =>
    v.collection?.elim (g.unbind w) fun c =>
      enlistAll (fun g x b => follow item g x site b) w item site ((g.unbind w).wanted item c)
        ((g.unbind w).openCollection w c)
        { collection := c, subscription := (g.unbind w).nextSubscription, items := [] }
  | none => g.unbind w

/-- A dormant watcher has nothing to release. -/
theorem unbind_dormant {g : World κ} {w : Nat} {x : Watcher κ} (hx : g.watchers[w]? = some x)
    (ht : x.target = none) : g.unbind w = g := by
  have hrelease : g.release w = g := by
    unfold release
    rw [hx]
    cases x with
    | object plan site bound =>
      cases bound with
      | none => rfl
      | some b => cases ht
    | collection item batch site bound =>
      cases bound with
      | none => rfl
      | some b => cases ht
  have hnodes : g.nodes w = [w] := by
    unfold nodes
    rw [hx]
    cases x with
    | object plan site bound =>
      cases bound with
      | none => cases plan <;> simp [childrenOf, boundObject?, hx, below]
      | some b => cases ht
    | collection item batch site bound =>
      cases bound with
      | none => simp [watchedItems, boundCollection?, hx]
      | some b => cases ht
  unfold unbind
  rw [hnodes, List.foldl_cons, List.foldl_nil, hrelease]

theorem rebind_object {g : World κ} {w : Nat} {plan site} (hw : g.watchers[w]? = some (.object plan site none))
    (v : Value) : g.rebind w v =
      v.subject?.elim g fun s => follow plan (g.bindObject w (opened s)) w site (opened s) := by
  unfold rebind
  rw [unbind_dormant hw rfl, hw]

theorem rebind_collection {g : World κ} {w : Nat} {item batch site}
    (hw : g.watchers[w]? = some (.collection item batch site none)) (v : Value) : g.rebind w v =
      v.collection?.elim g fun c => enlistAll (fun g x b => follow item g x site b) w item site
        (g.wanted item c) (g.openCollection w c)
        { collection := c, subscription := g.nextSubscription, items := [] } := by
  unfold rebind
  rw [unbind_dormant hw rfl, hw]

/-- `g'` is `g` after `w` has been bound to what it is to follow `v` by. -/
structure Rebound (tops : List WatcherId) (w : Nat) (v : Value) (g g' : World κ) : Prop where
  grown : g'.Grown tops
  outline : g'.outline = g.outline
  trees : g'.trees = g.trees
  size : g.watchers.size ≤ g'.watchers.size
  next : g.nextSubscription ≤ g'.nextSubscription
  others : ∀ x : Nat, x < g.watchers.size → x ≠ w → g'.watchers[x]? =
    if x ∈ g.nodes w then g.watchers[x]?.map Watcher.dormant else g.watchers[x]?
  self : ∀ x, g.watchers[w]? = some x → ∃ y, g'.watchers[w]? = some y ∧ y.dormant = x.dormant ∧
    y.target = x.seen v
  listeners : ∀ s p, ∃ new, g'.listeners s p =
    (g.listeners s p).filter (fun e => e.2.watcher?.all (decide <| · ∉ g.nodes w)) ++ new ∧
      ∀ e ∈ new, g.nextSubscription ≤ e.1
  changes : ∀ c, ∃ new, g'.listenersOfCollection c =
    (g.listenersOfCollection c).filter (fun e => e.2.watcher?.all (decide <| · ∉ g.nodes w)) ++ new ∧
      ∀ e ∈ new, g.nextSubscription ≤ e.1
  settled : ∀ x, x = w ∨ g.watchers.size ≤ x → x < g'.watchers.size → g'.Settled x

theorem Followed.rebound {tops : List WatcherId} {w : Nat} {v : Value} {g g₁ g' : World κ}
    (h : Followed tops w g₁ g') (hrel : Released g g₁ (g.nodes w)) (hw : w ∈ g.nodes w)
    (hself : ∀ x, g₁.watchers[w]? = some x → ∃ y, g'.watchers[w]? = some y ∧ y.target = x.seen v) :
    Rebound tops w v g g' := by
  have hgrows := h.grows
  constructor
  case grown => exact h.grown
  case outline => exact hgrows.outline.trans hrel.outline
  case trees => exact hgrows.trees.trans hrel.trees
  case size => exact hrel.size ▸ hgrows.size
  case next => exact hrel.next ▸ hgrows.next
  case others =>
    intro x hx hxw
    rw [hgrows.others x (hrel.size ▸ hx) hxw, hrel.watchers]
  case self =>
    intro x hx
    have hx₁ : g₁.watchers[w]? = some x.dormant := by rw [hrel.watchers, if_pos hw, hx, Option.map_some]
    obtain ⟨y, hy, ht⟩ := hself _ hx₁
    obtain ⟨z, hz, hd, -⟩ := hgrows.self _ hx₁
    obtain rfl : z = y := Option.some.inj (hz.symm.trans hy)
    refine ⟨z, hz, hd.trans x.dormant_dormant, ht.trans ?_⟩
    cases x <;> rfl
  case listeners =>
    intro s p
    obtain ⟨new, heq, hnew⟩ := hgrows.listeners s p
    exact ⟨new, by rw [heq, hrel.listeners], hrel.next ▸ hnew⟩
  case changes =>
    intro c
    obtain ⟨new, heq, hnew⟩ := hgrows.changes c
    exact ⟨new, by rw [heq, hrel.changes], hrel.next ▸ hnew⟩
  case settled =>
    rintro x (rfl | hx) hlt
    · exact h.settled
    · exact h.new x (hrel.size ▸ hx) hlt

/-- **Rebinding** a watcher that hangs on the tops. -/
theorem Grown.rebind {tops : List WatcherId} {g : World κ} (hg : g.Grown tops)
    (htops : ∀ t ∈ tops, t < g.watchers.size) {w : Nat} (hw : w < g.watchers.size)
    (hanchor : w ∈ tops ∨ ∃ u, w ∈ g.listed u) {v : Value} (hv : g.hasValue v = true) :
    Rebound tops w v g (g.rebind w v) := by
  obtain ⟨hgrown, hrel⟩ := hg.unbind hw
  have hself : w ∈ g.nodes w := (hg.mem_nodes hw).mpr .refl
  obtain ⟨x, hx⟩ : ∃ x, g.watchers[w]? = some x := ⟨_, Array.getElem?_eq_getElem hw⟩
  have hx₁ : (g.unbind w).watchers[w]? = some x.dormant := by
    rw [hrel.watchers, if_pos hself, hx, Option.map_some]
  have htops₁ : ∀ t ∈ tops, t < (g.unbind w).watchers.size := fun t ht => hrel.size ▸ htops t ht
  -- the watcher hangs where it hung, for nothing above it was released
  have hanchor₁ : w ∈ tops ∨ ∃ u, w ∈ (g.unbind w).listed u := by
    refine hanchor.imp id fun ⟨u, hu⟩ => ⟨u, ?_⟩
    have hnot : u ∉ g.nodes w := by
      intro hmem
      exact absurd (hg.older hu) (not_lt.mpr (hg.le_of_under ((hg.mem_nodes hw).mp hmem)))
    unfold listed
    rw [hrel.watchers, if_neg hnot]
    exact hu
  have hdormant : Rebound tops w v g (g.unbind w) ∨ (x.seen v).isSome = true := by
    cases hseen : x.seen v with
    | some u => exact Or.inr rfl
    | none =>
      have hfol := hgrown.followed_dormant hx₁ x.target_dormant
      refine Or.inl (hfol.rebound hrel hself fun y hy => ⟨y, hy, ?_⟩)
      rw [hx₁] at hy
      obtain rfl := Option.some.inj hy
      rw [x.target_dormant]
      cases x <;> exact hseen.symm
  cases x with
  | object plan site bound =>
    simp only [World.rebind, hx₁, Watcher.dormant]
    cases hs : v.subject? with
    | none => exact hdormant.resolve_right (by simp [Watcher.seen, hs])
    | some s =>
      have hs' : (g.unbind w).hasValue s.value = true := by
        rw [hasValue_congr hrel.outline]
        exact hasValue_of_subject hv hs
      obtain ⟨hfol, b, hb, hbs⟩ := FollowSpec.object (follow_spec plan) hgrown htops₁ hx₁ hs' hanchor₁
      refine hfol.rebound hrel hself fun y hy => ⟨_, hb, ?_⟩
      rw [hx₁] at hy
      obtain rfl := Option.some.inj hy
      simp [Watcher.target, Watcher.seen, Watcher.dormant, hs, hbs]
  | collection item batch site bound =>
    simp only [World.rebind, hx₁, Watcher.dormant]
    cases hc : v.collection? with
    | none => exact hdormant.resolve_right (by simp [Watcher.seen, hc])
    | some c =>
      have hc' : (g.unbind w).hasValue (.collection c) = true := by
        rw [hasValue_congr hrel.outline]
        exact hasValue_of_collection hv hc
      obtain ⟨hfol, b, hb, hbc, -⟩ :=
        FollowSpec.collection (follow_spec item) hgrown htops₁ hx₁ hc' hanchor₁
      refine hfol.rebound hrel hself fun y hy => ⟨_, hb, ?_⟩
      rw [hx₁] at hy
      obtain rfl := Option.some.inj hy
      simp [Watcher.target, Watcher.seen, Watcher.dormant, hc, hbc]

section

variable {tops : List WatcherId} {w : Nat} {v : Value} {g g' : World κ} (h : Rebound tops w v g g')

include h

/-- What is bound afterwards is new, or not below `w` and as it was. -/
theorem Rebound.kept {x : Nat} {y : Watcher κ} (hx : g'.watchers[x]? = some y) (ht : y.target.isSome = true) :
    (x = w ∨ g.watchers.size ≤ x) ∨ x ≠ w ∧ x ∉ g.nodes w ∧ g.watchers[x]? = some y := by
  by_cases hxw : x = w
  · exact Or.inl (Or.inl hxw)
  · rcases lt_or_ge x g.watchers.size with hlt | hge
    · rw [h.others x hlt hxw] at hx
      split at hx
      · obtain ⟨z, -, rfl⟩ := Option.map_eq_some_iff.mp hx
        simp at ht
      · rename_i hnot
        exact Or.inr ⟨hxw, hnot, hx⟩
    · exact Or.inl (Or.inr hge)

theorem Rebound.settled_new {x : Nat} {y : Watcher κ} (hx : g'.watchers[x]? = some y)
    (hnew : x = w ∨ g.watchers.size ≤ x) : g'.Settled x :=
  h.settled x hnew (Array.getElem?_eq_some_iff.mp hx).1

/-- What is listed elsewhere is as it was, but for `w` itself. -/
theorem Rebound.listed_kept (hg : g.Shaped) (hw : w < g.watchers.size) {x y : Nat} (hx : x ∉ g.nodes w)
    (hy : y ∈ g.listed x) (hyw : y ≠ w) : g'.watchers[y]? = g.watchers[y]? := by
  rw [h.others y (hg.lt_of_mem_listed hy) hyw, if_neg]
  intro hmem
  have hunder := (hg.under_lister hy ((hg.mem_nodes hw).mp hmem)).resolve_left hyw
  exact hx ((hg.mem_nodes hw).mpr hunder)

/-- A collection is subscribed to anew under a new id. -/
theorem Rebound.next_le (hg : g.Ledger) (hw : w ∈ g.nodes w) {x : Nat} (hx : x = w ∨ g.watchers.size ≤ x) {c}
    {id : SubscriptionId} (hm : (id, ChangeListener.membership x) ∈ g'.listenersOfCollection c) :
    g.nextSubscription ≤ id := by
  obtain ⟨new, heq, hnew⟩ := h.changes c
  rw [heq] at hm
  rcases List.mem_append.mp hm with hm | hm
  · obtain ⟨hold, hnot⟩ := List.mem_filter.mp hm
    have hnot : x ∉ g.nodes w := by simpa [ChangeListener.watcher?] using hnot
    rcases hx with rfl | hx
    · exact absurd hw hnot
    · obtain ⟨item, batch, site, b, hb, -⟩ := hg.membership.mp hold
      exact absurd (Array.getElem?_eq_some_iff.mp hb).1 (not_lt.mpr hx)
  · exact hnew _ hm

theorem Rebound.old {s p} {e : SubscriptionId × Listener κ} (he : e ∈ g'.listeners s p) :
    e ∈ g.listeners s p ∨ g.nextSubscription ≤ e.1 := by
  obtain ⟨new, heq, hnew⟩ := h.listeners s p
  rw [heq] at he
  rcases List.mem_append.mp he with he | he
  · exact Or.inl (List.mem_of_mem_filter he)
  · exact Or.inr (hnew e he)

theorem Rebound.oldChanges {c} {e : SubscriptionId × ChangeListener κ} (he : e ∈ g'.listenersOfCollection c) :
    e ∈ g.listenersOfCollection c ∨ g.nextSubscription ≤ e.1 := by
  obtain ⟨new, heq, hnew⟩ := h.changes c
  rw [heq] at he
  rcases List.mem_append.mp he with he | he
  · exact Or.inl (List.mem_of_mem_filter he)
  · exact Or.inr (hnew e he)

/-- The tops stay where they are, unless `w` is one. -/
theorem Rebound.top_kept (hg : g.Grown tops) (hw : w < g.watchers.size) {r : Nat} (hr : r ∈ tops) (hrw : r ≠ w)
    (hlt : r < g.watchers.size) : g'.watchers[r]? = g.watchers[r]? := by
  rw [h.others r hlt hrw, if_neg]
  exact fun hmem => hrw (hg.eq_of_under_top hr ((hg.mem_nodes hw).mp hmem))

end

end World
end LiveRules
