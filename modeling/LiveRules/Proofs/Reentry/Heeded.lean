/-
# Trees mirror the objects when code runs while they are bound

Code may run before every subscription, and write properties or change collections, so as to
load what is to be watched. A tree whose watchers took in all that they were told of then
mirrors the objects at rest, whatever came in between. News is lost only where it is
overlooked: where a watcher is told while it is being bound itself, it tells nobody.

Key theorems: `World.Attentive.mirrors`, `heeded_mirror`, `loaded_while_bound_lost`.
-/
import LiveRules.Proofs.Mirror.Mirror
import LiveRules.Proofs.Reentry.Attentive
import LiveRules.Proofs.Reentry.Released

namespace LiveRules

variable {κ σ : Type} {L : Language κ σ}

namespace World

/-! ### Hooks are of no concern -/

theorem subscriptionTo_dressed (g : World κ) (ws : Array (Watcher κ)) (s : Subject) (n : String) :
    (g.dressed ws).subscriptionTo s n = g.subscriptionTo s n := by
  unfold subscriptionTo
  rw [home_dressed]

theorem expected_dressed (g : World κ) (ws : Array (Watcher κ)) (d : Nat) :
    (g.dressed ws).expected d = g.expected d := by
  induction d with
  | zero => rfl
  | succ d ih =>
    funext words s
    rw [expected_succ, expected_succ]
    refine congrArg (firstNames words).flatMap (funext fun n => ?_)
    simp only [expectedAt, subscriptionTo_dressed, memberValue_dressed, itemsOf_dressed, ih]

/-! ### At rest -/

section

variable {h : World κ} {missed : SubscriptionId → Prop} {tops : List WatcherId}

/-- At rest whoever follows something sees it, if nothing was missed. -/
theorem Attentive.sees (ha : h.Attentive [] missed) {c : WatcherId} {e : Sight} (hf : h.Follows [] c e)
    (hheeded : ¬ e.Misses missed) : h.Sees c (e.value h) := by
  rcases ha.heeds hf with hheeds | hawaits | hmisses
  · cases hheeds with
    | soon heq => cases heq
    | already hsees => exact hsees
  · cases e with
    | object o => exact hawaits.elim
    | property id s p =>
      obtain ⟨u, hu, -⟩ := hawaits
      cases hu
  · exact absurd hmisses hheeded

/-- **A watcher that missed nothing** mirrors what is there. -/
theorem Attentive.mirrors (ha : h.Attentive [] missed) (hg : h.Grown tops)
    (hwhole : ∀ {w : Nat} {plan site b}, h.watchers[w]? = some (.object plan site (some b)) →
      b.subscriptions.length = plan.length)
    (hfree : ∀ x ∈ h.collections, x.free = false) {w : WatcherId}
    (hheeded : ∀ id e, (id, e) ∈ h.keptBy w → ¬ missed id) : h.Mirrors w where
  plan := hwhole
  items {item membership site b} hw e he := by
    obtain ⟨x, hx, htarget⟩ := ha.sees (.entered hw (.member he)) id
    obtain ⟨y, hy, hdormant⟩ := hg.items hw e he
    rw [hx] at hy
    cases hy
    cases x with
    | collection => cases hdormant
    | object => exact ⟨_, hx, htarget⟩
  fresh {plan site b} hw i c p batch hc hplace := by
    have hi : i < b.subscriptions.length := by
      rw [← hg.paired hw]
      exact (List.getElem?_eq_some_iff.mp hc).1
    have hid := List.getElem?_eq_getElem hi
    refine ha.sees (.entered hw (.child hc hid hplace))
      (hheeded _ (.property (h.home b.subject p) (some b.subject.value) p) ?_)
    refine hg.mem_keptBy.mpr (Or.inl ⟨_, p, i, hg.member.mpr ⟨_, _, ⟨_, _, _, hw, hid, hplace, rfl⟩, rfl⟩, ?_⟩)
    rw [hw]
    rfl
  members {item membership site b} hw hitem := by
    have hkept : ¬ missed b.subscription := by
      refine hheeded _ (.changes b.collection) ?_
      simp only [keptBy, hw, List.mem_singleton]
    rw [List.perm_iff_count]
    intro o
    have hbalanced := ha.balanced hw hitem hkept (listOf_itemsOf hfree (hg.known hw rfl)) o
    simpa [owed] using hbalanced

end

end World

/-! ### Whole runs -/

/-- **A tree mirrors the objects** at rest, whatever code ran before subscriptions and whatever
it wrote there, if nobody meddled with what was being bound, and no news was overlooked that
was told under one of the ids that the tree is subscribed under. -/
theorem heeded_mirror {past : List (Machine κ σ)} {g : World κ} {s : σ} (h : Run L past (machine g [] s))
    (hcalm : ∀ n ∈ past, n.toScene.Undisturbed) (hfree : ∀ x ∈ g.collections, x.free = false) {t : TreeId}
    (hattached : g.isAttached t = true)
    (hheeded : ∀ e ∈ g.subscriptionsOf t, ∀ n ∈ past, n.toScene.overlooks e.1 = false) :
    ∃ tree context, g.trees[t]? = some tree ∧ g.contextOf t = some context ∧
      ∀ (graph : Graph) (resolve : ActionId → Option (ActionId × Action κ)) (paths : List Path),
        graph.Built → tree.plan = graph.compile resolve → (∀ p, p ∈ paths ↔ graph.actionsAt p ≠ []) →
          ((g.subscriptionsOf t).map (·.2)).Perm (g.mirror paths context) ∧
            g.subscriptionCount t = (g.mirror paths context).length := by
  have hrest : Scene.Undisturbed { world := g, agenda := [] } := ⟨.nil, by simp [draftsOf], by simp⟩
  have hcalm : ∀ n ∈ machine g [] s :: past, n.toScene.Undisturbed := List.forall_mem_cons.mpr ⟨hrest, hcalm⟩
  have hu : g.Underway [] := h.underway hcalm
  have ha : (g.asIf []).Attentive [] fun id => ∃ n ∈ past, n.toScene.overlooks id = true := h.attentive hcalm
  have hgrown : (g.asIf []).Grown (g.topsOf []) := hu.grown
  have hidle : ∀ u ∈ ([] : List (Task κ)), u.bindsIn g t = false := by simp
  have hget (w : Nat) : (g.asIf []).watchers[w]? = g.watchers[w]? := World.getElem?_asIf_of_not_mem (by simp)
  obtain ⟨r, hroot⟩ := Option.isSome_iff_exists.mp hattached
  obtain ⟨tree, x, htree, hx, context, hdormant⟩ := hu.headed t r hroot
  cases x with
  | collection => cases hdormant
  | object plan site bound =>
    cases hdormant
    -- what the tree is subscribed to, it keeps below its top
    have hheld := hu.subscriptionsOf_perm hidle
    rw [World.subscriptionsOf_asIf hidle, hroot, Option.toList_some, List.flatMap_singleton] at hheld
    have hbooks := (hget r).trans hx
    have hmirrors : (g.asIf []).MirrorsBelow r := by
      refine fun w hunder => ha.mirrors hgrown (fun hw => hu.whole ((hget _).symm.trans hw)) hfree
        fun id e he hmissed => ?_
      obtain ⟨n, hn, hoverlooks⟩ := hmissed
      have hkept : (id, e) ∈ g.subscriptionsOf t :=
        hheld.mem_iff.mpr (List.mem_flatMap.mpr
          ⟨w, (hgrown.mem_nodes (Array.getElem?_eq_some_iff.mp hbooks).1).mpr hunder, he⟩)
      rw [hheeded _ hkept n hn] at hoverlooks
      cases hoverlooks
    have hsees : (g.asIf []).Sees r (.object context) := ha.sees (.top (Or.inl ⟨t, hroot⟩) hbooks) id
    refine ⟨tree, context, htree, ?_, fun graph resolve paths hbuilt hplan hpaths => ?_⟩
    · unfold World.contextOf
      rw [hroot, Option.bind_some, hx]
      rfl
    · have hkept := KeepsAsked.seen hgrown.toShaped (hgrown.keepsAsked tree.plan) hbooks hsees hmirrors
      rw [hplan] at hkept
      have hperm : ((g.subscriptionsOf t).map (·.2)).Perm (g.mirror paths context) :=
        calc ((g.subscriptionsOf t).map (·.2)).Perm ((g.asIf []).keptBelow r) := hheld.map (·.2)
          List.Perm _ ((g.asIf []).asked (graph.compile resolve) (.object context)) := hkept
          List.Perm _ ((g.asIf []).mirror paths context) :=
            hbuilt.asked hpaths _ (fun p hp => le_foldr_max (List.mem_map_of_mem (f := (·.word.length)) hp)) _
          _ = g.mirror paths context := by
            unfold World.mirror World.asIf
            rw [World.expected_dressed]
      refine ⟨hperm, ?_⟩
      rw [(hu.accounted hidle).1]
      exact (List.length_map ..).symm.trans hperm.length_eq

/-! ### Loading from a hook -/

/-- Code puts the second object at some properties of the third. -/
def loader : Language (List String) Unit where
  run ps _ _ s := (s, ps.map fun p => .write 2 p (.object 1))
  value _ _ _ _ := .null
  test _ _ _ _ s := (true, s)

/-- `a.v` -/
def valueInA : Path where
  steps := [.property "a", .property "v"]
  faultless := by decide +kernel

/-- `b.v` -/
def valueInB : Path where
  steps := [.property "b", .property "v"]
  faultless := by decide +kernel

def valuesGraph : Graph :=
  ⟨.node (.field "a") [] (.node (.field "v") [0] .nil .nil)
    (.node (.field "b") [] (.node (.field "v") [0] .nil .nil) .nil)⟩

theorem valuesGraph_insert : Graph.empty.insert [valueInA, valueInB] 0 = .ok valuesGraph := by
  decide +kernel

theorem valuesGraph_paths (p : Path) : p ∈ [valueInA, valueInB] ↔ valuesGraph.actionsAt p ≠ [] := by
  rw [Graph.actionsAt_insert valuesGraph_insert (fun q b hb => by simp [Graph.actionsAt_empty] at hb),
    Graph.actionsAt_empty]
  by_cases h : p ∈ [valueInA, valueInB] <;> simp [h]

/-- There are three objects, and a tree for `a.v` and `b.v`. -/
def loadingScene : List (Request (List String)) :=
  [.newObject "first" [("v", .null)] none [], .newObject "second" [("v", .null)] none [],
    .newObject "context" [("a", .null), ("b", .null)] none [],
    .newTree (valuesGraph.compile fun a => some (a, .code []))]

/-- What comes of it when something is asked for there. -/
def loading (requests : List (Request (List String))) :
    List (Machine (List String) Unit) × Machine (List String) Unit :=
  loader.trail 46 [] (machine {} ((loadingScene ++ requests).map .request) ())

theorem loading_run (requests : List (Request (List String))) : Run loader (loading requests).1 (loading requests).2 :=
  ((Run.start ()).ask _ ()).trail 46

/-- The tree is attached to the third object, which is given something for its `a`: before what
watches that has subscribed, code gives it something for its `b`. -/
def loadingBeside : List (Request (List String)) :=
  [.attach 0 2, .hook 0 "v" ["b"], .write 2 "a" (.object 0)]

/-- Both are watched in the end. -/
theorem heeded_mirror_beside :
    ((loading loadingBeside).2.world.subscriptionsOf 0 |>.map (·.2)).Perm
        [.property (.object 2) (some (.object 2)) "a", .property (.object 0) (some (.object 0)) "v",
          .property (.object 2) (some (.object 2)) "b", .property (.object 1) (some (.object 1)) "v"] ∧
      (loading loadingBeside).2.world.subscriptionCount 0 = 4 := by
  have hrun : Run loader (loading loadingBeside).1 (machine (loading loadingBeside).2.world [] ()) :=
    loading_run loadingBeside
  obtain ⟨tree, context, htree, hcontext, hmirror⟩ :=
    heeded_mirror (t := 0) hrun (by decide +kernel) (by decide +kernel) rfl (by decide +kernel)
  have hplan : (loading loadingBeside).2.world.trees[0]? =
      some { plan := valuesGraph.compile fun a => some (a, .code []), root := some 0, dropped := false } := by rfl
  rw [hplan] at htree
  cases htree
  have htwo : (loading loadingBeside).2.world.contextOf 0 = some 2 := by rfl
  rw [htwo] at hcontext
  cases hcontext
  exact hmirror valuesGraph _ [valueInA, valueInB] (.insert .empty valuesGraph_insert) rfl valuesGraph_paths

/-- The third object has something for its `a`, and the tree is attached: before it subscribes to
`b`, code puts something else at `a`. -/
def loadingBehind : List (Request (List String)) :=
  [.write 2 "a" (.object 0), .hook 2 "b" ["a"], .attach 0 2]

/-- **A change is lost** that the top of the tree is told of while it is being bound: it has
subscribed to `a` by then. At rest the tree watches what was there before. -/
theorem loaded_while_bound_lost : ∃ (past : List (Machine (List String) Unit)) (g : World (List String)) (s : Unit),
    Run loader past (machine g [] s) ∧ (∀ n ∈ past, n.toScene.Undisturbed) ∧ g.isAttached 0 = true ∧
      g.contextOf 0 = some 2 ∧ (g.trees[0]?.map (·.plan)) = some (valuesGraph.compile fun a => some (a, .code [])) ∧
      g.memberValue (.object 2) "a" = .object 1 ∧ (g.listeners (.object 0) "v").length = 1 ∧
      g.listeners (.object 1) "v" = [] ∧
      ¬ ((g.subscriptionsOf 0).map (·.2)).Perm (g.mirror [valueInA, valueInB] 2) :=
  ⟨(loading loadingBehind).1, (loading loadingBehind).2.world, (), loading_run loadingBehind, by decide +kernel,
    rfl, rfl, rfl, rfl,
    rfl, by decide +kernel, by decide +kernel⟩

end LiveRules
