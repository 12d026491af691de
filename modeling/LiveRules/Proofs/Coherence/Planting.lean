/-
# Planting a tree is of no concern to who is alive

A call that attaches a context holds it, and so all that the context leads to is alive
meanwhile. The watchers of the new tree hold what the context leads to, and nothing else,
and the one at the top holds the context itself. So when the tree has been planted and the
call is over, who is alive is who was alive before.

Key theorems: `World.living_lineage`, `World.alive_ahead`, `Stable.mem_rootValues`,
`Stable.alive_plant`.
-/
import LiveRules.Proofs.Coherence.Attaching
import LiveRules.Proofs.Derived.Survival

namespace LiveRules

variable {κ σ : Type} {L : Language κ σ}

namespace World

variable {g : World κ} {roots : List Value}

/-! ### What an object leads to -/

theorem mem_living_of_valueHolds {u v : Value} (hu : u ∈ g.living roots) (hv : v ∈ g.valueHolds u)
    (hexists : v ∈ g.everything) : v ∈ g.living roots :=
  mem_living_of_held hexists (List.mem_flatMap.mpr ⟨u, hu, hv⟩)

/-- What an object is based on lives as long as the object. -/
theorem living_lineage (hg : g.Sane) {o q : ObjectId} (ho : g.hasObject o = true) (hlives : .object o ∈ g.living roots)
    (hq : q ∈ g.lineage o) : .object q ∈ g.living roots := by
  induction o using Nat.strong_induction_on with
  | _ o ih =>
    rw [hg.lineage_eq o, List.mem_cons] at hq
    rcases hq with rfl | hq
    · exact hlives
    · cases hbase : g.baseOf o with
      | none => simp [hbase] at hq
      | some b =>
        rw [hbase] at hq
        have hlt := hg.older o b hbase
        have hb : g.hasObject b = true := by
          simp only [hasObject, decide_eq_true_eq] at ho ⊢
          exact hlt.trans ho
        obtain ⟨x, hx, hxb⟩ := Option.bind_eq_some_iff.mp hbase
        have hheld : .object b ∈ g.valueHolds (.object o) := by simp [valueHolds, hx, hxb]
        exact ih b hlt hb (mem_living_of_valueHolds hlives hheld (mem_everything hb)) hq

/-- What can be read in a property of an object lives as long as the object. -/
theorem living_read (hg : g.Sane) {o : ObjectId} (ho : g.hasObject o = true) (hlives : .object o ∈ g.living roots)
    {p : String} (hexists : g.read o p ∈ g.everything) : g.read o p ∈ g.living roots := by
  have hholder := living_lineage hg ho hlives (hg.holder_mem_lineage o p)
  refine mem_living_of_valueHolds hholder ?_ hexists
  unfold read ownValue at hexists ⊢
  unfold valueHolds
  cases hx : g.objects[g.holder o p]? with
  | none => simp [hx, everything, Value.null] at hexists
  | some x =>
    cases hv : x.properties.get? p with
    | none => simp [hx, hv, everything, Value.null] at hexists
    | some v =>
      obtain ⟨e, he, rfl⟩ := Table.exists_of_get? hv
      simp only [hx, hv, Option.bind_some, Option.getD_some]
      exact List.mem_append_right _ (List.mem_map_of_mem he)

/-! ### Roots -/

/-- What has a name. -/
def named (g : World κ) : List Value :=
  g.objectNames.map (fun e => .object e.2) ++ g.collectionNames.map fun e => .collection e.2

theorem mem_rootValues {held : List Held} {v : Value} : v ∈ g.rootValues held ↔
    v ∈ g.named ∨ .value v ∈ held ∨ ∃ w ∈ g.planted ++ g.heldNodes held, v ∈ g.watcherHolds w := by
  rw [rootValues, List.mem_append, List.mem_append, mem_heldValues, List.mem_flatMap, or_assoc]
  rfl

theorem named_congr {g' : World κ} (h : g'.outline = g.outline) : g'.named = g.named := by
  unfold named
  rw [show g'.objectNames = g.objectNames from (congrArg World.objectNames h :),
    show g'.collectionNames = g.collectionNames from (congrArg World.collectionNames h :)]

section

variable {context : ObjectId} {front rest : List (Task κ)} (hg : g.Sane) (hcontext : g.hasObject context = true)
  (hmem : .release (.value (.object context)) ∈ front)
  (hfront : ∀ u ∈ front, ∀ x ∈ u.held, ∃ o ∈ g.lineage context, x = .value (.object o))

include hg hcontext hmem hfront

/-- Calls that hold an object, and maybe what it is based on, keep alive what one call that
holds the object does. -/
theorem alive_ahead (o : ObjectId) : Scene.alive { world := g, agenda := front ++ rest } o =
    Scene.alive { world := g, agenda := .release (.value (.object context)) :: rest } o := by
  have hheld : ∀ x, x ∈ Scene.held { world := g, agenda := front ++ rest } ↔
      x ∈ front.flatMap Task.held ∨ x ∈ rest.flatMap Task.held := by
    simp [Scene.held]
  have hheld' : ∀ x, x ∈ Scene.held { world := g, agenda := .release (.value (.object context)) :: rest } ↔
      x = .value (.object context) ∨ x ∈ rest.flatMap Task.held := by
    simp [Scene.held, Task.held]
  have hcontext' : Held.value (.object context) ∈ front.flatMap Task.held :=
    List.mem_flatMap.mpr ⟨_, hmem, by simp [Task.held]⟩
  have hlineage : ∀ x ∈ front.flatMap Task.held, ∃ o ∈ g.lineage context, x = .value (.object o) := by
    intro x hx
    obtain ⟨u, hu, hx⟩ := List.mem_flatMap.mp hx
    exact hfront u hu x hx
  have hnodes : g.heldNodes (Scene.held { world := g, agenda := front ++ rest }) =
      g.heldNodes (Scene.held { world := g, agenda := .release (.value (.object context)) :: rest }) := by
    have hnone : heldWatchers (front.flatMap Task.held) = [] := by
      refine List.filterMap_eq_nil_iff.mpr fun x hx => ?_
      obtain ⟨o, -, rfl⟩ := hlineage x hx
      rfl
    simp only [heldNodes, heldWatchers, Scene.held, List.flatMap_append, List.filterMap_append,
      List.flatMap_cons] at hnone ⊢
    rw [hnone]
    rfl
  refine alive_congr rfl (living_eq (fun v hv => Or.inl ?_) fun v hv _ => ?_) (fun o ho => ?_) o
  · rw [mem_rootValues, hheld'] at hv
    rw [mem_rootValues, hheld, hnodes]
    refine hv.imp_right fun hv => hv.imp_left fun hv => hv.imp_left fun heq => by rwa [heq]
  · rw [mem_rootValues, hheld, hnodes] at hv
    rw [mem_rootValues, hheld']
    rcases hv with hv | (hv | hv) | hv
    · exact Or.inl (Or.inl hv)
    · obtain ⟨q, hq, heq⟩ := hlineage _ hv
      cases heq
      have hroot : Value.object context ∈
          g.rootValues (Scene.held { world := g, agenda := .release (.value (.object context)) :: rest }) :=
        mem_rootValues.mpr (Or.inr (Or.inl ((hheld' _).mpr (Or.inl rfl))))
      exact Or.inr (living_lineage hg hcontext (mem_survivors hroot _ (mem_everything hcontext)) hq)
    · exact Or.inl (Or.inr (Or.inl (Or.inr hv)))
    · exact Or.inl (Or.inr (Or.inr hv))
  -- what does not exist is not of the lineage
  · have hne : ∀ q ∈ g.lineage context, q ≠ o := fun q hq heq => by
      rw [← heq, hg.hasObject_lineage hcontext hq] at ho
      cases ho
    rw [hheld, hheld']
    refine or_congr ⟨fun hv => ?_, fun heq => heq ▸ hcontext'⟩ Iff.rfl
    obtain ⟨q, hq, heq⟩ := hlineage _ hv
    cases heq
    exact absurd rfl (hne _ hq)

end

end World

/-! ### What settled watchers hold -/

/-- A watcher that follows a value is bound to that value, if to anything. -/
theorem Watcher.eq_of_seen {x : Watcher κ} {u v : Value} (h : x.seen v = some u) : u = v := by
  cases x <;> cases v <;> simp_all [Watcher.seen, Value.subject?, Value.collection?, Subject.value, eq_comm]

namespace World

section

variable {g g' : World κ} {roots : List Value} (houtline : g'.outline = g.outline)

include houtline

/-- A settled watcher holds what it is bound to and what is in there. -/
theorem Settled.holds_living {w : Nat} {x : Watcher κ} {u : Value} (h : g'.Settled w) (hw : g'.watchers[w]? = some x)
    (htarget : x.target = some u) (hu : u ∈ g.everything → u ∈ g.living roots) :
    ∀ v ∈ g'.watcherHolds w, v ∈ g.everything → v ∈ g.living roots := by
  intro v hv hexists
  cases x with
  | object plan site bound =>
    cases bound with
    | none => cases htarget
    | some b =>
      obtain rfl : b.subject.value = u := Option.some.inj htarget
      obtain rfl : v = b.subject.value := by simpa [watcherHolds, hw] using hv
      exact hu hexists
  | collection item batch site bound =>
    cases bound with
    | none => cases htarget
    | some b =>
      obtain rfl : .collection b.collection = u := Option.some.inj htarget
      simp only [watcherHolds, hw, List.mem_cons, List.mem_map] at hv
      rcases hv with rfl | ⟨e, he, rfl⟩
      · exact hu hexists
      · have hmember : e.1 ∈ g.itemsOf b.collection := by
          have hwanted : e.1 ∈ g'.wanted item b.collection := h.gathered hw ▸ List.mem_map_of_mem he
          unfold wanted at hwanted
          split at hwanted
          · cases hwanted
          · rwa [itemsOf_congr houtline] at hwanted
        have hcollection : Value.collection b.collection ∈ g.everything := by
          have hlt : b.collection < g.collections.size := by
            by_contra hge
            simp [itemsOf, Array.getElem?_eq_none (not_lt.mp hge)] at hmember
          exact List.mem_append_right _ (List.mem_map_of_mem (List.mem_range.mpr hlt))
        exact mem_living_of_valueHolds (hu hcollection) (List.mem_map_of_mem hmember) hexists

/-- What a watcher below a settled one is bound to is held by what that one holds. -/
theorem Settled.target_living (hg : g.Sane) (hg' : g'.Ledger) (hshaped : g'.Shaped) {p w : Nat} (h : g'.Settled p)
    (hw : w ∈ g'.listed p) (hp : ∀ v ∈ g'.watcherHolds p, v ∈ g.everything → v ∈ g.living roots) {x : Watcher κ}
    (hx : g'.watchers[w]? = some x) {u : Value} (htarget : x.target = some u) (hexists : u ∈ g.everything) :
    u ∈ g.living roots := by
  obtain ⟨y, hy, hlisted⟩ := exists_of_mem_listed hw
  cases y with
  | object plan site bound =>
    cases bound with
    | none => cases hlisted
    | some b =>
      obtain ⟨i, hi⟩ := List.getElem?_of_mem (List.reduceOption_mem_iff.mp hlisted)
      have hlt : i < plan.length := by
        have hchildren := (List.getElem?_eq_some_iff.mp hi).1
        rw [hshaped.paired hy, h.plan hy] at hchildren
        exact hchildren
      obtain ⟨⟨name, batch⟩, hplace⟩ := Option.isSome_iff_exists.mp ((plan.place?_isSome i).mpr hlt)
      obtain ⟨z, hz, hseen⟩ := h.fresh hy i w name batch hi hplace
      obtain rfl : x = z := Option.some.inj (hx.symm.trans hz)
      obtain rfl := Watcher.eq_of_seen (hseen.symm.trans htarget)
      cases hsubject : b.subject with
      | command c => simp [hsubject, memberValue, Value.null, everything] at hexists
      | object o =>
        have ho : g.hasObject o = true := by
          have hknown : g'.hasValue b.subject.value = true := hg'.known hy rfl
          rwa [hasValue_congr houtline, hsubject] at hknown
        have hlives := hp (.object o) (by simp [watcherHolds, hy, hsubject, Subject.value]) (mem_everything ho)
        rw [hsubject] at hexists
        rw [memberValue_congr houtline] at hexists ⊢
        exact living_read hg ho hlives hexists
  | collection item batch site bound =>
    cases bound with
    | none => cases hlisted
    | some b =>
      obtain ⟨e, he, rfl⟩ := List.mem_map.mp hlisted
      obtain ⟨z, hz, hbound⟩ := h.items hy e he
      obtain rfl : x = z := Option.some.inj (hx.symm.trans hz)
      obtain rfl : .object e.1 = u := Option.some.inj (hbound.symm.trans htarget)
      have hheld : .object e.1 ∈ b.items.map (Value.object ·.1) := List.mem_map_of_mem he
      exact hp _ (by simp only [watcherHolds, hy]; exact List.mem_cons_of_mem _ hheld) hexists

end

end World

/-! ### The watchers of a new tree -/

section

variable {g : World κ} {agenda : List (Task κ)} {missed : SubscriptionId → List ObjectId} (h : Stable g agenda missed)

include h

/-- Where no watcher is being bound, every watcher that is bound is one of a tree. -/
theorem Stable.mem_rootValues {held : List Held} {v : Value} : v ∈ g.rootValues held ↔
    v ∈ g.named ∨ .value v ∈ held ∨ ∃ w, v ∈ g.watcherHolds w := by
  rw [World.mem_rootValues]
  refine or_congr Iff.rfl (or_congr Iff.rfl ⟨fun hv => hv.imp fun w hw => hw.2, fun hv => ?_⟩)
  obtain ⟨w, hv⟩ := hv
  have hbound : g.IsBound w := by
    unfold World.watcherHolds at hv
    split at hv
    · rename_i hw
      exact ⟨_, hw, rfl⟩
    · rename_i hw
      exact ⟨_, hw, rfl⟩
    · cases hv
  obtain ⟨r, hr, hunder⟩ := h.grown.hangs hbound
  exact ⟨w, List.mem_append_left _
    (List.mem_flatMap.mpr ⟨r, hr, (h.grown.mem_nodes (h.rooted.lt_size hr)).mpr hunder⟩), hv⟩

/-- The watchers of a tree that is planted hold what its context leads to. -/
theorem Stable.holds_plant {t : TreeId} {plan : WatchPlan κ} {context : ObjectId}
    (hcontext : g.hasObject context = true)
    {roots : List Value} (hlives : .object context ∈ g.living roots) {w : Nat} (hw : g.watchers.size ≤ w) :
    ∀ v ∈ (g.plantTree t plan context).watcherHolds w, v ∈ g.everything → v ∈ g.living roots := by
  obtain ⟨hgrown, hreb⟩ :=
    h.rebound_top (x := .object plan { tree := t, top := g.watchers.size, context } none) rfl hcontext
  set top : Watcher κ := .object plan { tree := t, top := g.watchers.size, context } none with htop
  set g' := (g.addWatcher top).rebind g.watchers.size (.object context) with hg'
  have houtline : g'.outline = g.outline := hreb.outline
  have hsize : g.watchers.size < (g.addWatcher top).watchers.size := by simp [World.addWatcher]
  have hnew : (g.addWatcher top).watchers[g.watchers.size]? = some top := by simp [World.addWatcher]
  show ∀ v ∈ g'.watcherHolds w, v ∈ g.everything → v ∈ g.living roots
  -- down the tree: the top holds the context, and what is below a watcher is bound to what that one leads to
  induction w using Nat.strong_induction_on with
  | _ w ih =>
    intro v hv hexists
    obtain ⟨x, hx, u, htarget⟩ : ∃ x, g'.watchers[w]? = some x ∧ ∃ u, x.target = some u := by
      unfold World.watcherHolds at hv
      split at hv
      · rename_i hw
        exact ⟨_, hw, _, rfl⟩
      · rename_i hw
        exact ⟨_, hw, _, rfl⟩
      · cases hv
    have hsettled : ∀ {q : Nat} {y : Watcher κ}, g'.watchers[q]? = some y → g.watchers.size ≤ q → g'.Settled q := by
      intro q y hy hq
      refine hreb.settled q ?_ (Array.getElem?_eq_some_iff.mp hy).1
      rcases Nat.eq_or_lt_of_le hq with heq | hlt
      · exact Or.inl heq.symm
      · exact Or.inr (by simpa [World.addWatcher] using hlt)
    refine (hsettled hx hw).holds_living houtline hx htarget (fun hu => ?_) v hv hexists
    rcases Nat.eq_or_lt_of_le hw with rfl | hlt
    · obtain ⟨y, hy, -, hbound⟩ := hreb.self top hnew
      obtain rfl : x = y := Option.some.inj (hx.symm.trans hy)
      obtain rfl : u = .object context := Option.some.inj (htarget.symm.trans hbound)
      exact hlives
    · rcases hreb.grown.anchored ⟨x, hx, by rw [htarget]; rfl⟩ with hmem | ⟨p, hp⟩
      · rcases List.mem_cons.mp hmem with heq | hmem
        · exact absurd heq hlt.ne'
        · exact absurd (h.rooted.lt_size hmem) (not_lt.mpr hw)
      · obtain ⟨y, hy, hlisted⟩ := World.exists_of_mem_listed hp
        have hpnew : g.watchers.size ≤ p := by
          by_contra hold
          rw [not_le] at hold
          rcases hreb.kept hy (Watcher.target_of_mem_listed hlisted) with (heq | hge) | ⟨-, -, hy⟩
          · exact hold.ne heq
          · exact absurd (hold.trans hsize) (not_lt.mpr hge)
          · have hbefore : w ∈ (g.addWatcher top).listed p := World.listed_of_get hy ▸ hlisted
            rw [World.listed_addWatcher rfl] at hbefore
            exact absurd (h.grown.lt_of_mem_listed hbefore) (not_lt.mpr hw)
        exact (hsettled hy hpnew).target_living houtline h.grown.sane hreb.grown.toLedger hreb.grown.toShaped hp
          (ih p (hreb.grown.older hp) hpnew) hx htarget hu

/-- **Planting a tree** leaves alive who is, once the call that holds the context is over. -/
theorem Stable.alive_plant {t : TreeId} {tree : Tree κ} (htree : g.trees[t]? = some tree) (hoff : tree.root = none)
    {context : ObjectId} (hcontext : g.hasObject context = true) (rest : List (Task κ)) (o : ObjectId) :
    Scene.alive { world := g.plantTree t tree.plan context, agenda := rest } o =
      Scene.alive { world := g, agenda := .release (.value (.object context)) :: rest } o := by
  have hplanted : Stable (g.plantTree t tree.plan context) agenda missed := h.attached htree hoff hcontext
  have houtline : (g.plantTree t tree.plan context).outline = g.outline := (h.plant_watches t tree.plan hcontext).1
  have hheld : ∀ x, x ∈ Scene.held { world := g, agenda := .release (.value (.object context)) :: rest } ↔
      x = .value (.object context) ∨ x ∈ Scene.held { world := g.plantTree t tree.plan context, agenda := rest } := by
    simp [Scene.held, Task.held]
  have hold : ∀ {w : Nat}, w < g.watchers.size →
      (g.plantTree t tree.plan context).watcherHolds w = g.watcherHolds w := by
    intro w hw
    have hget := Array.getElem?_eq_getElem hw
    unfold World.watcherHolds
    rw [h.watchers_plant t tree.plan hcontext hget, hget]
  refine World.alive_congr houtline (fun v => ?_) (fun o ho => ?_) o
  · rw [World.living_congr houtline]
    refine World.living_eq (fun v hv => Or.inl ?_) (fun v hv hexists => ?_) v
    · rw [h.mem_rootValues, hheld] at hv
      rw [hplanted.mem_rootValues, World.named_congr houtline]
      rcases hv with hv | (heq | hv) | ⟨w, hv⟩
      · exact Or.inl hv
      · cases heq
        obtain ⟨b, htop, hsubject⟩ := (h.stands_plant tree.plan hcontext (by rw [htree]; rfl)).top
        refine Or.inr (Or.inr ⟨g.watchers.size, ?_⟩)
        simp [World.watcherHolds, htop, hsubject, Subject.value]
      · exact Or.inr (Or.inl hv)
      · have hw : w < g.watchers.size := by
          by_contra hge
          simp [World.watcherHolds, Array.getElem?_eq_none (not_lt.mp hge)] at hv
        exact Or.inr (Or.inr ⟨w, hold hw ▸ hv⟩)
    · rw [hplanted.mem_rootValues, World.named_congr houtline] at hv
      rw [h.mem_rootValues, hheld]
      rcases hv with hv | hv | ⟨w, hv⟩
      · exact Or.inl (Or.inl hv)
      · exact Or.inl (Or.inr (Or.inl (Or.inr hv)))
      · rcases lt_or_ge w g.watchers.size with hw | hw
        · exact Or.inl (Or.inr (Or.inr ⟨w, hold hw ▸ hv⟩))
        · refine Or.inr (h.holds_plant hcontext
            (World.mem_survivors ?_ _ (World.mem_everything hcontext)) hw v hv hexists)
          exact h.mem_rootValues.mpr (Or.inr (Or.inl ((hheld _).mpr (Or.inl rfl))))
  · rw [hheld]
    refine ⟨Or.inr, fun hv => hv.resolve_left fun heq => ?_⟩
    cases heq
    rw [hcontext] at ho
    cases ho

end

end LiveRules
