/-
# What is watched anew

A watcher that has followed a new value holds, at and below it, what its plan asks for
of that value, and whoever notifies of a property tells as many of those below it as are
subscribed to that property. Of the subscriptions it held before, at and below it, none
is left. It is the same with the members that join a collection and with those that
leave it.

Key definitions: `World.askedBelow`, `World.Holds`, `World.LetsGo`.
Key theorems: `World.Rebound.holds`, `World.Rebound.letsGo`, `World.Regathered.holds`,
`World.Regathered.letsGo`.
-/
import LiveRules.Proofs.Mirror.Mirror

namespace LiveRules

variable {κ : Type}

/-- The subscription is to the property `p` and is entered at `s`. -/
def Subscription.isTo (s : Subject) (p : String) : Subscription → Bool
  | .property place _ name => decide (place = s ∧ name = p)
  | .changes _ => false

/-- The task tells one of `ws` that a property has changed. -/
def Task.isFor (ws : List WatcherId) : Task κ → Bool
  | .deliver _ _ (.member w _) => ws.contains w
  | _ => false

theorem Watcher.seen_dormant (x : Watcher κ) (v : Value) : x.dormant.seen v = x.seen v := by
  cases x <;> rfl

namespace World

/-- The subscriptions asked for at and below a watcher that follows `v`. -/
def askedBelow (g : World κ) (v : Value) : Watcher κ → List Subscription
  | .object plan _ _ => v.subject?.elim [] (g.asked plan)
  | .collection item _ _ _ => v.collection?.elim [] fun c =>
      .changes c :: (g.itemsOf c).flatMap fun o => g.asked item (.object o)

/-- What notifiers and collections have on their lists for `w` and all below it. -/
def heldBelow (g : World κ) (w : WatcherId) : List Subscription :=
  (g.subscriptionsBy (g.nodes w).contains).map (·.2)

/-- At and below `w` is held exactly what `x` is to hold when it follows `v`, and a round
for a property tells as many of those watchers as are to be subscribed to it. -/
structure Holds (g : World κ) (w : WatcherId) (x : Watcher κ) (v : Value) : Prop where
  asked : (g.heldBelow w).Perm (g.askedBelow v x)
  told : ∀ s p, (g.round s p).countP (Task.isFor (g.nodes w)) = (g.askedBelow v x).countP (Subscription.isTo s p)

/-- No subscription that a watcher at or below `w` had in `g` is on a list in `g'`. -/
structure LetsGo (g g' : World κ) (w : WatcherId) : Prop where
  listeners : ∀ {s p x i} {id : SubscriptionId}, x ∈ g.nodes w → (id, Listener.member x i) ∈ g.listeners s p →
    ∀ t q l, (id, l) ∉ g'.listeners t q
  changes : ∀ {c x} {id : SubscriptionId}, x ∈ g.nodes w →
    (id, ChangeListener.membership x) ∈ g.listenersOfCollection c →
    ∀ d l, (id, l) ∉ g'.listenersOfCollection d

/-! ### Who is told in a round -/

/-- **A round** tells a watcher as often as it is subscribed. -/
theorem Filed.countP_round {g : World κ} (hg : g.Filed) (ws : List WatcherId) (s : Subject) (p : String) :
    (g.round s p).countP (Task.isFor ws) =
      ((g.subscriptionsBy ws.contains).map (·.2)).countP (Subscription.isTo s p) := by
  have hlisteners : ((g.listeners s p).map (·.1)).Nodup := by
    rw [List.Nodup, List.pairwise_map]
    exact ((hg.agrees s).ascending p).imp fun hab => ne_of_lt hab
  have hentries : ((g.listeners s p).filterMap (g.asPropertyBy ws.contains s p)).Nodup :=
    nodup_filterMap hlisteners fun {e b} heb => by
      obtain ⟨w, i, -, -, rfl⟩ := asPropertyBy_eq_some.mp heb
      rfl
  have hperm : ((g.subscriptionsBy ws.contains).filter fun e => e.2.isTo s p).Perm
      ((g.listeners s p).filterMap (g.asPropertyBy ws.contains s p)) := by
    refine (List.perm_ext_iff_of_nodup ((hg.subscriptionsBy_nodup _).filter _) hentries).mpr fun ⟨id, e⟩ => ?_
    rw [List.mem_filter, mem_subscriptionsBy, List.mem_filterMap]
    constructor
    · rintro ⟨⟨t, q, w, i, hm, hw, rfl⟩ | ⟨c, w, -, -, rfl⟩, hto⟩
      · obtain ⟨rfl, rfl⟩ := of_decide_eq_true hto
        exact ⟨_, hm, asPropertyBy_eq_some.mpr ⟨w, i, rfl, hw, rfl⟩⟩
      · cases hto
    · rintro ⟨⟨k, l⟩, hm, heq⟩
      obtain ⟨w, i, rfl, hw, heq⟩ := asPropertyBy_eq_some.mp heq
      cases heq
      exact ⟨Or.inl ⟨s, p, w, i, hm, hw, rfl⟩, decide_eq_true ⟨rfl, rfl⟩⟩
  have hround : (g.round s p).countP (Task.isFor ws) =
      (g.listeners s p).countP fun e => (g.asPropertyBy ws.contains s p e).isSome := by
    unfold round
    rw [List.countP_map]
    refine List.countP_congr fun e _ => ?_
    obtain ⟨id, l⟩ := e
    cases l with
    | code k context => rfl
    | member w i =>
      simp only [Function.comp_apply, Task.isFor, asPropertyBy]
      split <;> simp_all
  rw [hround, List.countP_map, List.countP_eq_length_filter (l := g.subscriptionsBy _)]
  rw [← List.length_filterMap_eq_countP]
  exact hperm.length_eq.symm

/-- Below a watcher that sees `v`, and mirrors what is there, is held what is asked for. -/
theorem Grown.holds {g : World κ} {tops : List WatcherId} (hg : g.Grown tops) {w : Nat} {x : Watcher κ} {v : Value}
    (hw : g.watchers[w]? = some x) (hsees : g.Sees w v) (hbelow : g.MirrorsBelow w) : g.Holds w x.dormant v := by
  have hasked : (g.heldBelow w).Perm (g.askedBelow v x.dormant) := by
    have hheld := (hg.subscriptionsBy_perm (q := (g.nodes w).contains) (hg.nodes_nodup w) fun y _ => by simp).map (·.2)
    refine hheld.trans ?_
    cases x with
    | object plan site bound => exact KeepsAsked.seen hg.toShaped (hg.keepsAsked plan) hw hsees hbelow
    | collection item batch site bound => exact KeepsAsked.collection hg.toShaped (hg.keepsAsked item) hw hsees hbelow
  refine ⟨hasked, fun s p => ?_⟩
  rw [hg.filed.countP_round]
  exact hasked.countP_eq _

/-- What is bound to nothing mirrors whatever is there. -/
theorem mirrors_of_unbound {g : World κ} {w : WatcherId} (h : ¬ g.IsBound w) : g.Mirrors w where
  plan hw := absurd ⟨_, hw, rfl⟩ h
  items hw := absurd ⟨_, hw, rfl⟩ h
  fresh hw := absurd ⟨_, hw, rfl⟩ h
  members hw := absurd ⟨_, hw, rfl⟩ h

/-! ### After a watcher has followed a value -/

section

variable {tops : List WatcherId} {w : Nat} {v : Value} {g g' : World κ} (h : Rebound tops w v g g') (hg : g.Grown tops)
  (hw : w < g.watchers.size)

include h hg hw

/-- What hangs below `w` afterwards, and is bound, is new. -/
theorem Rebound.new_below {x : WatcherId} (hunder : g'.Under w x) (hx : g'.IsBound x) :
    x = w ∨ g.watchers.size ≤ x := by
  have hself : w ∈ g.nodes w := (hg.mem_nodes hw).mpr .refl
  induction hunder with
  | refl => exact Or.inl rfl
  | @tail y x hwy hxy ih =>
    obtain ⟨z, hz, ht⟩ := hx
    refine (h.kept hz ht).resolve_right ?_
    rintro ⟨hxw, hnot, hz⟩
    rcases hg.anchored ⟨z, hz, ht⟩ with htop | ⟨u, hu⟩
    · exact h.grown.topmost htop hxy
    · -- who listed it is as it was, and lists it still
      have hunot : u ∉ g.nodes w := by
        intro hmem
        rw [hg.mem_nodes hw] at hmem hnot
        exact hnot (hmem.tail hu)
      have hult : u < g.watchers.size := (hg.older hu).trans (hg.lt_of_mem_listed hu)
      have hkept : g'.listed u = g.listed u := by
        unfold listed
        rw [h.others u hult fun heq => hunot (heq ▸ hself), if_neg hunot]
      obtain rfl := h.grown.single (hkept ▸ hu) hxy
      rcases ih (lister_bound hxy) with heq | hge
      · exact hunot (heq ▸ hself)
      · exact absurd hult (not_lt.mpr hge)

omit hw in
/-- Who lists `w` stays as it was. -/
theorem Rebound.lister_kept {u : WatcherId} (hu : w ∈ g.listed u) : g'.watchers[u]? = g.watchers[u]? := by
  have hlt := hg.older hu
  have hwlt := hg.lt_of_mem_listed hu
  rw [h.others u (hlt.trans hwlt) (ne_of_lt hlt), if_neg]
  intro hmem
  exact absurd hlt (not_lt.mpr (hg.le_of_under ((hg.mem_nodes hwlt).mp hmem)))

theorem Rebound.mirrorsBelow : g'.MirrorsBelow w := by
  intro x hunder
  by_cases hx : g'.IsBound x
  · obtain ⟨y, hy, -⟩ := id hx
    exact (h.settled_new hy (h.new_below hg hw hunder hx)).mirrors
  · exact mirrors_of_unbound hx

/-- **What is held** at and below a watcher that has followed `v` is what it is to hold. -/
theorem Rebound.holds {x : Watcher κ} (hx : g.watchers[w]? = some x) : g'.Holds w x.dormant v := by
  obtain ⟨y, hy, hdorm, htarget⟩ := h.self x hx
  have hseen : y.seen v = x.seen v := by
    rw [← y.seen_dormant, hdorm, x.seen_dormant]
  exact hdorm ▸ h.grown.holds hy ⟨y, hy, htarget.trans hseen.symm⟩ (h.mirrorsBelow hg hw)

omit hw in
/-- **Nothing is held** any more on account of what the watcher followed before. -/
theorem Rebound.letsGo : g.LetsGo g' w where
  listeners {s p x i id} hx hm t q l hl := by
    obtain ⟨new, heq, hnew⟩ := h.listeners t q
    rw [heq] at hl
    rcases List.mem_append.mp hl with hl | hl
    · obtain ⟨hold, hnot⟩ := List.mem_filter.mp hl
      obtain ⟨-, -, rfl⟩ := hg.filed.entry hold hm
      simp [Listener.watcher?, hx] at hnot
    · exact absurd (hg.filed.older s p _ hm) (not_lt.mpr (hnew (id, l) hl))
  changes {c x id} hx hm d l hl := by
    obtain ⟨new, heq, hnew⟩ := h.changes d
    rw [heq] at hl
    rcases List.mem_append.mp hl with hl | hl
    · obtain ⟨hold, hnot⟩ := List.mem_filter.mp hl
      obtain ⟨-, rfl⟩ := hg.filed.changesEntry hold hm
      simp [ChangeListener.watcher?, hx] at hnot
    · exact absurd (hg.filed.changesOlder c _ hm) (not_lt.mpr (hnew (id, l) hl))

end

/-! ### After a change of members has been taken in -/

section

variable {tops : List WatcherId} {w : Nat} {item : WatchPlan κ} {batch : Batch κ} {site : Attachment}
  {b : BoundCollection} {change : Change} {g g' : World κ} (h : Regathered tops w item batch site b change g g')

include h

/-- **A member that has joined** is watched as the plan asks. -/
theorem Regathered.holds {b' : BoundCollection}
    (hw' : g'.watchers[w]? = some (.collection item batch site (some b'))) {e : ObjectId × WatcherId}
    (he : e ∈ b'.items)
    (hnew : g.watchers.size ≤ e.2) : g'.Holds e.2 (.object item site none) (.object e.1) := by
  obtain ⟨y, hy, hdorm⟩ := h.grown.items hw' e he
  obtain ⟨z, hz, htarget⟩ := h.complete.items hw' e he
  rw [hy] at hz
  cases hz
  have hseen : y.seen (.object e.1) = some (.object e.1) := by
    rw [← y.seen_dormant, hdorm]
    rfl
  refine hdorm ▸ h.grown.holds hy ⟨y, hy, htarget.trans hseen.symm⟩ fun x hunder => ?_
  by_cases hx : g'.IsBound x
  · obtain ⟨z, hz, -⟩ := id hx
    exact (h.settled x (hnew.trans (h.grown.le_of_under hunder)) (Array.getElem?_eq_some_iff.mp hz).1).mirrors
  · exact mirrors_of_unbound hx

variable (hg : g.Grown tops) (hw : g.watchers[w]? = some (.collection item batch site (some b)))

include hw

/-- A watcher that was there is listed where it was. -/
theorem Regathered.listed_old {x y : Nat} (hx : x < g.watchers.size) (hy : x ∈ g'.listed y) : x ∈ g.listed y := by
  by_cases hyw : y = w
  · subst hyw
    obtain ⟨joined, hbooks, -, hnew⟩ := h.books
    rw [listed_of_get hbooks] at hy
    obtain ⟨e, he, rfl⟩ := List.mem_map.mp hy
    rcases List.mem_append.mp he with he | he
    · obtain ⟨taken, -, hperm⟩ := takeItems_perm change.removed b.items
      rw [listed_of_get hw]
      exact List.mem_map_of_mem (hperm.mem_iff.mpr (List.mem_append_right _ he))
    · exact absurd hx (not_lt.mpr (hnew e he))
  · obtain ⟨z, hz, ht⟩ := lister_bound hy
    have hkept := (h.kept hz ht hyw ((h.grown.older hy).trans hx)).1
    rw [listed_of_get hz] at hy
    rwa [listed_of_get hkept]

include hg

/-- What hung below a watcher that `w` does not list any more is bound to nothing. -/
theorem Regathered.unbound {t : WatcherId} (ht : t ∈ g.listed w) (hgone : t ∉ g'.listed w) {x : WatcherId}
    (hunder : g.Under t x) : ¬ g'.IsBound x := by
  induction hunder with
  | refl =>
    intro hbound
    rcases h.grown.anchored hbound with htop | ⟨y, hy⟩
    · exact hg.topmost htop ht
    · obtain rfl := hg.single (h.listed_old hw (hg.lt_of_mem_listed ht) hy) ht
      exact hgone hy
  | tail _ hlast ih =>
    intro hbound
    rcases h.grown.anchored hbound with htop | ⟨y, hy⟩
    · exact hg.topmost htop hlast
    · obtain rfl := hg.single (h.listed_old hw (hg.lt_of_mem_listed hlast) hy) hlast
      exact ih (lister_bound hy)

/-- **A member that has left** is watched no more. -/
theorem Regathered.letsGo {t : WatcherId} (ht : t ∈ g.listed w) (hgone : t ∉ g'.listed w) : g.LetsGo g' t where
  listeners {s p x i id} hx hm t' q l hl := by
    have hunder := (hg.mem_nodes (hg.lt_of_mem_listed ht)).mp hx
    rcases h.old hl with hold | hnew
    · obtain ⟨rfl, rfl, rfl⟩ := hg.filed.entry hold hm
      obtain ⟨u, batch', ⟨plan, site', b', hx', -⟩, -⟩ := h.grown.member.mp hl
      exact h.unbound hg hw ht hgone hunder ⟨_, hx', rfl⟩
    · exact absurd (hg.filed.older s p _ hm) (not_lt.mpr hnew)
  changes {c x id} hx hm d l hl := by
    have hunder := (hg.mem_nodes (hg.lt_of_mem_listed ht)).mp hx
    rcases h.oldChanges hl with hold | hnew
    · obtain ⟨rfl, rfl⟩ := hg.filed.changesEntry hold hm
      obtain ⟨item', batch', site', b', hx', -⟩ := h.grown.membership.mp hl
      exact h.unbound hg hw ht hgone hunder ⟨_, hx', rfl⟩
    · exact absurd (hg.filed.changesOlder c _ hm) (not_lt.mpr hnew)

end

end World
end LiveRules
