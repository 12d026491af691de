/-
# Nothing is left behind

Whatever code runs while watchers are being bound, as long as it does not meddle with what
is being bound: where nothing of a tree is being bound, the tree counts what it is
subscribed to, and one that is not attached is subscribed to nothing.

Key definitions: `Task.bindsIn`.
Key theorems: `World.Underway.accounted`, `subscriptions_released`,
`attached_twice_left_behind`.
-/
import LiveRules.Proofs.Machine.Membership
import LiveRules.Proofs.Reentry.Course

namespace LiveRules

variable {κ σ : Type} {L : Language κ σ}

/-- The task goes on with what was begun in the tree `t`: a watcher is being bound, new
members are being watched, or the tree is to be planted. -/
def Task.bindsIn (g : World κ) (t : TreeId) (u : Task κ) : Bool :=
  u.plants? = some t || u.worksFor.any (g.isPart t)

theorem Task.bindsIn_eq_false {g : World κ} {t : TreeId} {u : Task κ} : u.bindsIn g t = false ↔
    u.plants? ≠ some t ∧ ∀ w, u.worksFor = some w → g.isPart t w = false := by
  unfold Task.bindsIn
  cases u.worksFor <;> simp

namespace World

theorem isPart_iff {g : World κ} {t : TreeId} {w : WatcherId} :
    g.isPart t w = true ↔ ∃ x, g.watchers[w]? = some x ∧ x.site.tree = t := by
  unfold isPart
  rw [decide_eq_true_eq, Option.map_eq_some_iff]

theorem isPart_asIf (g : World κ) (ds : List Draft) (t : TreeId) (w : WatcherId) :
    (g.asIf ds).isPart t w = g.isPart t w := by
  rw [Bool.eq_iff_iff, isPart_iff, isPart_iff]
  constructor
  · rintro ⟨y, hy, hsite⟩
    obtain ⟨x, hx, hdormant⟩ := exists_of_asIf hy
    exact ⟨x, hx, by rw [← Watcher.site_dormant, hdormant, Watcher.site_dormant, hsite]⟩
  · rintro ⟨x, hx, hsite⟩
    obtain ⟨y, hy, hdormant⟩ := exists_asIf ds hx
    exact ⟨y, hy, by rw [← Watcher.site_dormant, hdormant, Watcher.site_dormant, hsite]⟩

section

variable {g : World κ} {agenda : List (Task κ)} {t : TreeId} (hu : g.Underway agenda)
  (hidle : ∀ u ∈ agenda, u.bindsIn g t = false)

include hidle in
/-- What is being bound is not of the tree. -/
theorem ne_draft_of_part {w : WatcherId} (hpart : g.isPart t w = true) : ∀ d ∈ draftsOf agenda, d.watcher ≠ w := by
  rintro d hd rfl
  obtain ⟨u, hmem, hdraft⟩ := mem_draftsOf.mp hd
  have hnot := (Task.bindsIn_eq_false.mp (hidle u hmem)).2 _ (Task.worksFor_of_draft hdraft)
  rw [hpart] at hnot
  cases hnot

include hu in
/-- What is bound below a watcher is of the same tree. -/
theorem Underway.isPart_of_under {r w : WatcherId} (hr : r < g.watchers.size)
    (hunder : (g.asIf (draftsOf agenda)).Under r w) : g.isPart t w = g.isPart t r := by
  obtain ⟨y, hy, -⟩ := exists_asIf (draftsOf agenda) (Array.getElem?_eq_getElem hr)
  obtain ⟨x, hx, hsite⟩ := hu.grown.site_of_under hy hunder
  rw [← isPart_asIf g (draftsOf agenda), ← isPart_asIf g (draftsOf agenda) t r]
  unfold isPart
  rw [hy, hx, Option.map_some, Option.map_some, hsite]

include hidle in
/-- Drafts do not belong to the tree, so it is subscribed to the same without them. -/
theorem subscriptionsOf_asIf : (g.asIf (draftsOf agenda)).subscriptionsOf t = g.subscriptionsOf t := by
  have hproperty : (g.asIf (draftsOf agenda)).asProperty t = g.asProperty t := by
    funext s p ⟨id, l⟩
    cases l with
    | code k context => rfl
    | member w i =>
      simp only [asProperty, isPart_asIf]
      split
      · rename_i hpart
        rw [getElem?_asIf_of_not_mem (ne_draft_of_part hidle hpart)]
      · rfl
  have hchanges : (g.asIf (draftsOf agenda)).asChanges t = g.asChanges t := by
    funext c ⟨id, l⟩
    cases l with
    | code k => rfl
    | membership w => simp only [asChanges, isPart_asIf]
  have hsubjects : (g.asIf (draftsOf agenda)).subjects = g.subjects := by
    simp [subjects, asIf, dressed]
  have hlistened : (g.asIf (draftsOf agenda)).listenedTo = g.listenedTo := by
    funext s
    simp only [listenedTo, asIf, notifierOf_dressed]
  have hlisteners : (g.asIf (draftsOf agenda)).listeners = g.listeners := by
    funext s p
    exact g.listeners_dressed _ s p
  unfold subscriptionsOf
  rw [hproperty, hchanges, hsubjects, hlistened, hlisteners]
  rfl

include hu hidle

/-- The top of what is bound of the tree is the one it is planted on. -/
theorem Underway.treeRoot_of_part {r : WatcherId} (hr : r ∈ g.topsOf agenda) (hpart : g.isPart t r = true) :
    g.treeRoot t = some r := by
  obtain ⟨x, hx, hsite⟩ := isPart_iff.mp hpart
  rcases List.mem_append.mp hr with hr | hr
  · obtain ⟨v, hv⟩ := mem_roots_iff.mp hr
    obtain ⟨y, hy, hsite'⟩ := hu.sited hv
    rw [hx] at hy
    cases hy
    exact hsite.symm.trans hsite' ▸ hv
  · exfalso
    obtain ⟨u, hmem, hr⟩ := List.mem_flatMap.mp hr
    obtain ⟨hplants, hworks⟩ := Task.bindsIn_eq_false.mp (hidle u hmem)
    have hfits := hu.fits u hmem
    cases u with
    | plant v w =>
      obtain rfl := List.mem_singleton.mp hr
      obtain ⟨y, hy, hsite'⟩ := World.Heads.site hfits
      rw [hx] at hy
      cases hy
      exact hplants (congrArg some (hsite'.symm.trans hsite))
    | enrol e =>
      rw [Task.tops] at hr
      split at hr
      · rename_i hbinds
        obtain ⟨-, hfits⟩ := hfits
        rw [Option.isNone_iff_eq_none.mp hbinds] at hfits
        obtain ⟨⟨membership, bound, hw, -⟩, hdone⟩ := hfits
        obtain ⟨d, hd, rfl⟩ := List.mem_map.mp hr
        obtain ⟨-, y, hy, hdormant⟩ := hdone d hd
        rw [hx] at hy
        cases hy
        have hsame : x.site = e.site := by
          rw [← Watcher.site_dormant, hdormant]
          rfl
        have hnot := hworks e.watcher rfl
        rw [isPart_iff.mpr ⟨_, hw, hsame ▸ hsite⟩] at hnot
        cases hnot
      · cases hr
    | _ => cases hr

/-- The bound watchers of the tree are those below its top. -/
theorem Underway.isPart_iff_mem_nodes {w : WatcherId} (hw : (g.asIf (draftsOf agenda)).IsBound w) :
    g.isPart t w = true ↔
    w ∈ (g.treeRoot t).toList.flatMap (g.asIf (draftsOf agenda)).nodes := by
  have hgrown := hu.grown
  have hnodes {r : WatcherId} (hr : r < g.watchers.size) :
      w ∈ (g.asIf (draftsOf agenda)).nodes r ↔ (g.asIf (draftsOf agenda)).Under r w :=
    hgrown.mem_nodes (hr.trans_eq (size_asIf ..).symm)
  rw [List.mem_flatMap]
  constructor
  · intro hpart
    obtain ⟨r, hr, hunder⟩ := hgrown.hangs hw
    have hlt := (List.mem_append.mp hr).elim hu.root_lt hu.tops_lt
    have hroot := hu.treeRoot_of_part hidle hr ((hu.isPart_of_under hlt hunder).symm.trans hpart)
    exact ⟨r, Option.mem_toList.mpr hroot, (hnodes hlt).mpr hunder⟩
  · rintro ⟨r, hr, hmem⟩
    obtain ⟨x, hx, hsite⟩ := hu.sited (Option.mem_toList.mp hr)
    have hlt := (Array.getElem?_eq_some_iff.mp hx).1
    exact (hu.isPart_of_under hlt ((hnodes hlt).mp hmem)).trans (isPart_iff.mpr ⟨x, hx, hsite⟩)

/-- **The subscriptions of the tree** are those that the watchers below its top keep. -/
theorem Underway.subscriptionsOf_perm : ((g.asIf (draftsOf agenda)).subscriptionsOf t).Perm
    (((g.treeRoot t).toList.flatMap (g.asIf (draftsOf agenda)).nodes).flatMap (g.asIf (draftsOf agenda)).keptBy) := by
  refine hu.grown.subscriptionsBy_perm (q := (g.asIf (draftsOf agenda)).isPart t) ?_ fun w hw => ?_
  · cases g.treeRoot t with
    | none => exact List.nodup_nil
    | some r => simpa using hu.grown.nodes_nodup r
  · rw [isPart_asIf]
    exact hu.isPart_iff_mem_nodes hidle hw

/-- The tree counts the same with the drafts. -/
theorem Underway.subscriptionCount_asIf : (g.asIf (draftsOf agenda)).subscriptionCount t = g.subscriptionCount t := by
  unfold subscriptionCount
  show ((g.treeRoot t).toList.flatMap (g.asIf (draftsOf agenda)).nodes).foldl _ 0 = _
  cases hroot : g.treeRoot t with
  | none => rfl
  | some r =>
    obtain ⟨x, hx, hsite⟩ := hu.sited hroot
    have hlt := (Array.getElem?_eq_some_iff.mp hx).1
    have hfree {w : WatcherId} (hunder : (g.asIf (draftsOf agenda)).Under r w) : ∀ d ∈ draftsOf agenda, d.watcher ≠ w :=
      ne_draft_of_part hidle ((hu.isPart_of_under hlt hunder).trans (isPart_iff.mpr ⟨x, hx, hsite⟩))
    have hnodes : g.nodes r = (g.asIf (draftsOf agenda)).nodes r :=
      nodes_asIf (hu.drafted.shaped hu.grown.toShaped) hu.grown.toShaped r fun d hd hunder => hfree hunder d hd rfl
    rw [Option.toList_some, List.flatMap_singleton, List.flatMap_singleton, hnodes]
    refine List.foldl_ext _ _ 0 fun n w hw => ?_
    have hunder := (hu.grown.mem_nodes (hlt.trans_eq (size_asIf ..).symm)).mp hw
    unfold ownSubscriptions
    rw [getElem?_asIf_of_not_mem (hfree hunder)]

/-- **Where nothing of a tree is being bound** its account is right. -/
theorem Underway.accounted : g.subscriptionCount t = (g.subscriptionsOf t).length ∧
    (g.isAttached t = false → g.subscriptionsOf t = []) := by
  have hperm := hu.subscriptionsOf_perm hidle
  rw [subscriptionsOf_asIf hidle] at hperm
  constructor
  · rw [← hu.subscriptionCount_asIf hidle, hu.grown.subscriptionCount_eq, hperm.length_eq, List.flatMap_assoc]
    rfl
  · intro hnot
    unfold isAttached at hnot
    rw [Option.isSome_eq_false_iff, Option.isNone_iff_eq_none] at hnot
    rw [hnot] at hperm
    exact hperm.eq_nil

end

end World

/-! ### Whole runs -/

/-- **Nothing is left behind.** Code may run before every subscription and ask for whatever
it likes, other than to bind a watcher anew or to give it up while it is being bound or new
members are being watched for it, and other than to attach a tree while it is being attached.
Then, wherever nothing of a tree is being bound, the tree counts what notifiers and
collections have on their lists for it, and if it is not attached they have nothing. -/
theorem subscriptions_released {past : List (Machine κ σ)} {m : Machine κ σ} (h : Run L past m)
    (hcalm : ∀ n ∈ m :: past, n.toScene.Undisturbed) (t : TreeId)
    (hidle : ∀ u ∈ m.agenda, u.bindsIn m.world t = false) :
    m.world.subscriptionCount t = (m.world.subscriptionsOf t).length ∧
      (m.world.isAttached t = false → m.world.subscriptionsOf t = []) :=
  (h.underway hcalm).accounted hidle

/-! ### Attaching from a hook -/

/-- Code `t` attaches the tree `t` to the first object. -/
def attaching : Language TreeId Unit where
  run t _ _ s := (s, [.attach t 0])
  value _ _ _ _ := .null
  test _ _ _ _ s := (true, s)

/-- Of two trees that watch a property of an object the first is attached to it and disposed
of again. Before it subscribes, code on the object attaches the tree `t`. -/
def attachedOver (t : TreeId) : List (Machine TreeId Unit) × Machine TreeId Unit :=
  attaching.trail 23 [] (machine {} ([.newObject "object" [] none [], .newTree (.value "name" [] .nil),
    .newTree (.value "name" [] .nil), .hook 0 "name" t, .attach 0 0, .dispose 0].map .request) ())

theorem attachedOver_run (t : TreeId) : Run attaching (attachedOver t).1 (attachedOver t).2 :=
  ((Run.start ()).ask _ ()).trail 23

/-- The other tree comes in between: it holds its subscription, and the first, which has been
disposed of, none. -/
theorem subscriptions_released_beside :
    (∀ n ∈ (attachedOver 1).2 :: (attachedOver 1).1, n.toScene.Undisturbed) ∧
      (attachedOver 1).2.world.subscriptionsOf 0 = [] ∧ ((attachedOver 1).2.world.subscriptionsOf 1).length = 1 := by
  have hcalm : ∀ n ∈ (attachedOver 1).2 :: (attachedOver 1).1, n.toScene.Undisturbed := by decide +kernel
  have hrest : (attachedOver 1).2.agenda = [] := by rfl
  have hidle (t : TreeId) : ∀ u ∈ (attachedOver 1).2.agenda, u.bindsIn (attachedOver 1).2.world t = false := by
    simp [hrest]
  have hone : (attachedOver 1).2.world.subscriptionCount 1 = 1 := by rfl
  refine ⟨hcalm, (subscriptions_released (attachedOver_run 1) hcalm 0 (hidle 0)).2 rfl, ?_⟩
  exact (subscriptions_released (attachedOver_run 1) hcalm 1 (hidle 1)).1.symm.trans hone

/-- **A tree that is attached while it is being attached** leaves a subscription behind: it
has been disposed of and counts none, and still there is one on the list for it. -/
theorem attached_twice_left_behind : ∃ (past : List (Machine TreeId Unit)) (m : Machine TreeId Unit) (t : TreeId),
    Run attaching past m ∧ m.agenda = [] ∧ m.world.isAttached t = false ∧ m.world.subscriptionCount t = 0 ∧
      (m.world.subscriptionsOf t).length = 1 :=
  ⟨(attachedOver 0).1, (attachedOver 0).2, 0, attachedOver_run 0, rfl, rfl, rfl, rfl⟩

end LiveRules
