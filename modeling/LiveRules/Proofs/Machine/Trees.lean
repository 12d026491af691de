/-
# Trees that come and go

Disposing of a tree releases all its watchers; attaching it binds a new one at
its top. The other trees do not notice.

Key definitions: `World.Redone`, `World.plantTree`.
Key theorems: `Stable.redone`, `Stable.dispose`, `Stable.attach`, `World.Grown.newTree`,
`Stable.bury`.
-/
import LiveRules.Proofs.Machine.Delivering

namespace LiveRules

variable {κ σ : Type}

/-! ### Watchers that are done anew -/

namespace World

/-- Of the watchers of `g'`, each is as it was in `g` with all right below it, or has
just come to follow what is there. -/
structure Redone (g g' : World κ) : Prop where
  grown : g'.Grown g'.roots
  rooted : g'.Rooted
  outline : g'.outline = g.outline
  next : g.nextSubscription ≤ g'.nextSubscription
  old : ∀ {s p e}, e ∈ g'.listeners s p → e ∈ g.listeners s p ∨ g.nextSubscription ≤ e.1
  oldChanges : ∀ {c e}, e ∈ g'.listenersOfCollection c → e ∈ g.listenersOfCollection c ∨ g.nextSubscription ≤ e.1
  kept : ∀ {x : Nat} {y : Watcher κ}, g'.watchers[x]? = some y → y.target.isSome = true →
    (g'.Settled x ∧ ∀ {c} {id : SubscriptionId},
      (id, ChangeListener.membership x) ∈ g'.listenersOfCollection c → g.nextSubscription ≤ id) ∨
    (g.watchers[x]? = some y ∧ ∀ d ∈ g.listed x, g'.watchers[d]? = g.watchers[d]?)

end World

section

variable {g g' : World κ} {agenda : List (Task κ)} {missed : SubscriptionId → List ObjectId}

theorem Stable.redone (h : Stable g agenda missed) (hr : World.Redone g g') : Stable g' agenda missed := by
  constructor
  case grown => exact hr.grown
  case rooted => exact hr.rooted
  case complete =>
    intro x
    constructor
    case plan =>
      intro plan site b hb
      rcases hr.kept hb rfl with ⟨hs, -⟩ | ⟨hold, -⟩
      · exact hs.plan hb
      · exact (h.complete x).plan hold
    case items =>
      intro item batch site b hb e he
      rcases hr.kept hb rfl with ⟨hs, -⟩ | ⟨hold, hkept⟩
      · exact hs.items hb e he
      · obtain ⟨y, hy, ht⟩ := (h.complete x).items hold e he
        refine ⟨y, ?_, ht⟩
        rw [hkept e.2 ?_, hy]
        rw [World.listed_of_get hold]
        exact List.mem_map_of_mem he
  case fresh =>
    intro x plan site b hb i id hid hnot
    rcases hr.kept hb rfl with ⟨hs, -⟩ | ⟨hold, hkept⟩
    · exact hs.fresh hb i
    · intro d name batch hd hentry
      obtain ⟨y, hy, ht⟩ := h.fresh hold i id hid hnot d name batch hd hentry
      rw [World.memberValue_congr hr.outline]
      refine ⟨y, ?_, ht⟩
      rw [hkept d ?_, hy]
      rw [World.listed_of_get hold]
      exact List.reduceOption_mem_iff.mpr (List.mem_of_getElem? hd)
  case balanced =>
    intro x item batch site b hb hitem items hitems o
    rcases hr.kept hb rfl with ⟨hs, hnew⟩ | ⟨hold, -⟩
    · have hle := hnew (hr.grown.membership.mpr ⟨item, batch, site, b, hb, rfl, rfl⟩)
      obtain ⟨hj, hl⟩ := h.nothing_pending hle
      rw [balanced_of_settled hs hb hitem hitems, hj, hl, h.unmissed _ hle]
      rfl
    · rw [World.listOf_congr hr.outline] at hitems
      exact h.balanced hold hitem items hitems o
  case calm => exact h.calm
  case delivers => exact h.delivers_after hr.next hr.old
  case delivers_changes =>
    exact h.delivers_changes_after hr.next hr.oldChanges fun hv => (World.hasValue_congr hr.outline _).trans hv
  case unmissed => exact fun id hid => h.unmissed id (hr.next.trans hid)

end

/-! ### Trees of their own -/

namespace World

theorem replant_outline (g : World κ) (trees : Array (Tree κ)) : ({ g with trees } : World κ).outline = g.outline :=
  rfl

/-- Watchers do not look at the trees. -/
theorem Grown.replant {g : World κ} {tops : List WatcherId} (hg : g.Grown tops) (trees : Array (Tree κ)) :
    ({ g with trees } : World κ).Grown tops := by
  constructor
  case toLedger =>
    constructor
    case filed =>
      exact ⟨hg.filed.agrees, hg.filed.older, hg.filed.single, hg.filed.changesOlder, hg.filed.changesAscending,
        hg.filed.changesSingle⟩
    case member =>
      intro s p id w i
      refine hg.member.trans (exists_congr fun t => exists_congr fun batch => and_congr_right fun _ => ?_)
      rw [home_congr (g.replant_outline trees)]
    case membership => exact hg.membership
    case fits => exact hg.fits
    case known =>
      intro w x v hx hv
      have := hg.known hx hv
      cases v <;> exact this
  case toShaped =>
    constructor
    case paired => exact hg.paired
    case posts => exact fun hw i c hc => (hg.posts hw i c hc).mono fun hx => ⟨_, hx, rfl⟩
    case items => exact hg.items
    case nodup => exact hg.nodup
    case single => exact hg.single
    case older => exact hg.older
  case sane => exact hg.sane.congr (g.replant_outline trees)
  case anchored => exact hg.anchored
  case topmost => exact hg.topmost
  case children_younger => exact hg.children_younger
  case items_younger => exact hg.items_younger

theorem Settled.replant {g : World κ} {w : WatcherId} (h : g.Settled w) (trees : Array (Tree κ)) :
    ({ g with trees } : World κ).Settled w where
  plan := h.plan
  items := h.items
  fresh := by
    intro plan site b hw i c name batch hc hentry
    rw [memberValue_congr (g.replant_outline trees)]
    exact h.fresh hw i c name batch hc hentry
  gathered := by
    intro item batch site b hw
    unfold wanted
    rw [itemsOf_congr (g.replant_outline trees)]
    exact h.gathered hw

/-- Trees may change as long as their tops are the same. -/
theorem Grown.replanted {g : World κ} {tops : List WatcherId} (hg : g.Grown tops) {trees : Array (Tree κ)}
    (hroots : ({ g with trees } : World κ).roots = g.roots)
    (hrooted : g.Rooted → ({ g with trees } : World κ).Rooted) : Retold g { g with trees } := by
  have hg' := hg.replant trees
  constructor
  case watchers => rfl
  case trees => exact hroots
  case rooted => exact hrooted
  case next => exact le_refl _
  case filed => exact hg'.filed
  case sane => exact hg'.sane
  case member => exact Iff.rfl
  case membership => exact Iff.rfl
  case old => exact Or.inl
  case oldChanges => exact Or.inl
  case known =>
    intro v hv
    cases v <;> exact hv
  case home => exact fun p _ => home_congr (g.replant_outline trees) _ p

theorem roots_congr {g g' : World κ} (h : g'.trees.map (·.root) = g.trees.map (·.root)) : g'.roots = g.roots := by
  have hlist : ∀ g : World κ, g.roots = (g.trees.map (·.root)).toList.filterMap id := by
    intro g
    simp [roots, List.filterMap_map]
  rw [hlist, hlist, h]

/-- A new tree hangs on nothing. -/
theorem Grown.newTree {g : World κ} {tops : List WatcherId} (hg : g.Grown tops) (plan : WatchPlan κ) :
    Retold g { g with trees := g.trees.push { plan } } := by
  refine hg.replanted ?_ fun hrooted t x r hx hr => ?_
  · simp [World.roots]
  · rw [Array.getElem?_push] at hx
    split at hx
    · obtain rfl := Option.some.inj hx
      cases hr
    · exact hrooted t x r hx hr

/-- A tree that is given up is still there. -/
theorem Grown.giveUp {g : World κ} {tops : List WatcherId} (hg : g.Grown tops) (t : TreeId) :
    Retold g (g.modifyTree t fun x => { x with dropped := true }) := by
  refine hg.replanted (World.roots_congr ?_) fun hrooted u x r hx hr => ?_
  · exact World.map_modify_eq g.trees t (fun x => { x with dropped := true }) (·.root) fun x => rfl
  · rw [Array.getElem?_modify] at hx
    split at hx
    · obtain ⟨y, hy, rfl⟩ := Option.map_eq_some_iff.mp hx
      exact hrooted u y r hy hr
    · exact hrooted u x r hx hr

end World

section

variable {g : World κ} {agenda : List (Task κ)} {missed : SubscriptionId → List ObjectId} (h : Stable g agenda missed)

include h

theorem Stable.replanted {trees : Array (Tree κ)} (hr : World.Retold g { g with trees }) :
    Stable { g with trees } agenda missed :=
  h.retold hr (fun s p _ => World.memberValue_congr (g.replant_outline trees) s p)
    fun c _ => World.listOf_congr (g.replant_outline trees) c

theorem Stable.newTree (plan : WatchPlan κ) : Stable { g with trees := g.trees.push { plan } } agenda missed :=
  h.replanted (h.grown.newTree plan)

theorem Stable.giveUp (t : TreeId) : Stable (g.modifyTree t fun x => { x with dropped := true }) agenda missed :=
  h.replanted (h.grown.giveUp t)

/-- **Disposing** of a tree. -/
theorem Stable.dispose (t : TreeId) : Stable (g.dispose t) agenda missed := by
  cases hroot : g.treeRoot t with
  | none =>
    have hsame : g.dispose t = g := by simp only [World.dispose, hroot]
    rwa [hsame]
  | some r =>
    set g₁ := g.modifyTree t fun x => { x with root := none } with hg₁
    have hdispose : g.dispose t = g₁.unbind r := by simp only [World.dispose, hroot, hg₁]
    rw [hdispose]
    obtain ⟨x, hx, hr⟩ : ∃ x, g.trees[t]? = some x ∧ x.root = some r := Option.bind_eq_some_iff.mp hroot
    have hmem : r ∈ g.roots := World.mem_roots.mpr ⟨t, x, hx, hr⟩
    have hlt := h.rooted.lt_size hmem
    have hgrown₁ : g₁.Grown g.roots := h.grown.replant _
    obtain ⟨hgrown, hrel⟩ := hgrown₁.unbind (w := r) hlt
    have hself : r ∈ g₁.nodes r := (hgrown₁.mem_nodes hlt).mpr .refl
    have hunder : ∀ {v}, v ∈ g₁.nodes r ↔ g₁.Under r v := hgrown₁.mem_nodes hlt
    -- the other trees have tops of their own, which hang on nothing
    have hother : ∀ {u : Nat} {y : Tree κ} {q : Nat}, g₁.trees[u]? = some y → y.root = some q →
        g.trees[u]? = some y ∧ q ∉ g₁.nodes r := by
      intro u y q hy hq
      have hu : t ≠ u := by
        rintro rfl
        rw [hg₁, World.modifyTree, Array.getElem?_modify, if_pos rfl, hx] at hy
        obtain rfl := Option.some.inj hy
        cases hq
      rw [hg₁, World.modifyTree, Array.getElem?_modify, if_neg hu] at hy
      refine ⟨hy, fun hmem' => ?_⟩
      obtain rfl : q = r := h.grown.eq_of_under_top (World.mem_roots.mpr ⟨u, y, hy, hq⟩) (hunder.mp hmem')
      exact hu (h.rooted.inj hroot (Option.bind_eq_some_iff.mpr ⟨y, hy, hq⟩))
    refine h.redone ?_
    constructor
    case grown =>
      refine hgrown.retop (fun q hq hbound => ?_) fun q hq v hv => ?_
      · obtain ⟨y, hy, ht⟩ := hbound
        obtain ⟨u, z, hz, hzq⟩ := World.mem_roots.mp hq
        have hqr : q ≠ r := by
          rintro rfl
          rw [hrel.watchers, if_pos hself] at hy
          obtain ⟨w, -, rfl⟩ := Option.map_eq_some_iff.mp hy
          simp at ht
        refine World.mem_roots.mpr ⟨u, z, ?_, hzq⟩
        rw [hrel.trees]
        have hu : t ≠ u := by
          rintro rfl
          rw [hx] at hz
          cases hz
          rw [hr] at hzq
          cases hzq
          exact hqr rfl
        exact (Array.getElem?_modify.trans (if_neg hu)).trans hz
      · obtain ⟨u, z, hz, hzq⟩ := World.mem_roots.mp hq
        rw [hrel.trees] at hz
        obtain ⟨hz, -⟩ := hother hz hzq
        exact hgrown.topmost (World.mem_roots.mpr ⟨u, z, hz, hzq⟩) hv
    case rooted =>
      intro u y q hy hq
      rw [hrel.trees] at hy
      obtain ⟨hy, hnot⟩ := hother hy hq
      obtain ⟨context, b, hw, hb⟩ := h.rooted u y q hy hq
      refine ⟨context, b, ?_, hb⟩
      rw [hrel.watchers, if_neg hnot]
      exact hw
    case outline => exact hrel.outline
    case next => exact hrel.next.ge
    case old =>
      intro s p e he
      rw [hrel.listeners] at he
      exact Or.inl (List.mem_of_mem_filter he)
    case oldChanges =>
      intro c e he
      rw [hrel.changes] at he
      exact Or.inl (List.mem_of_mem_filter he)
    case kept =>
      intro v y hy ht
      rw [hrel.watchers] at hy
      split at hy
      · obtain ⟨z, -, rfl⟩ := Option.map_eq_some_iff.mp hy
        simp at ht
      · rename_i hv
        refine Or.inr ⟨hy, fun d hd => ?_⟩
        have hdnot : d ∉ g₁.nodes r := by
          intro hdmem
          rcases h.grown.under_lister hd (hunder.mp hdmem) with heq | hrv
          · exact h.grown.topmost hmem (heq ▸ hd)
          · exact hv (hunder.mpr hrv)
        rw [hrel.watchers, if_neg hdnot]
        rfl

/-- A watcher of its plan is put at the top of the tree `t`, bound to `context`. -/
def World.plantTree (g : World κ) (t : TreeId) (plan : WatchPlan κ) (context : ObjectId) : World κ :=
  ((g.addWatcher (.object plan { tree := t, top := g.watchers.size, context } none)).rebind g.watchers.size
    (.object context)).modifyTree t fun x => { x with root := some g.watchers.size }

/-- A new watcher is bound to an object, as a top beside the others. -/
theorem Stable.rebound_top {x : Watcher κ} (hx : x.target = none) {context : ObjectId}
    (hcontext : g.hasObject context = true) :
    (g.addWatcher x).Grown (g.watchers.size :: g.roots) ∧
      World.Rebound (g.watchers.size :: g.roots) g.watchers.size (.object context) (g.addWatcher x)
        ((g.addWatcher x).rebind g.watchers.size (.object context)) := by
  have hlt : g.watchers.size < (g.addWatcher x).watchers.size := by simp [World.addWatcher]
  have hgrown : (g.addWatcher x).Grown (g.watchers.size :: g.roots) := by
    refine (h.grown.addWatcher hx).retop (fun r hr _ => List.mem_cons_of_mem _ hr) fun r hr v hv => ?_
    rw [World.listed_addWatcher hx] at hv
    rcases List.mem_cons.mp hr with rfl | hr
    · exact lt_irrefl _ (h.grown.lt_of_mem_listed hv)
    · exact h.grown.topmost hr hv
  refine ⟨hgrown, hgrown.rebind (fun r hr => ?_) hlt (Or.inl List.mem_cons_self) hcontext⟩
  rcases List.mem_cons.mp hr with rfl | hr
  · exact hlt
  · exact lt_trans (h.rooted.lt_size hr) hlt

/-- **Attaching** a tree that hangs on nothing. -/
theorem Stable.attached {t : TreeId} {tree : Tree κ} (ht : g.trees[t]? = some tree) (hnone : tree.root = none)
    {context : ObjectId} (hcontext : g.hasObject context = true) :
    Stable (((g.addWatcher (.object tree.plan { tree := t, top := g.watchers.size, context } none)).rebind
      g.watchers.size (.object context)).modifyTree t fun x => { x with root := some g.watchers.size })
      agenda missed := by
  set w := g.watchers.size with hw
  set x : Watcher κ := .object tree.plan { tree := t, top := w, context } none with hx
  set g₂ := g.addWatcher x with hg₂
  have hlt : w < g₂.watchers.size := by simp [hg₂, World.addWatcher, hw]
  have hget₂ : g₂.watchers[w]? = some x := (g.getElem?_addWatcher x w).trans (if_pos rfl)
  obtain ⟨hgrown₂, hreb⟩ : g₂.Grown (w :: g.roots) ∧
      World.Rebound (w :: g.roots) w (.object context) g₂ (g₂.rebind w (.object context)) := h.rebound_top rfl hcontext
  set g₃ := g₂.rebind w (.object context) with hg₃
  have hself : w ∈ g₂.nodes w := (hgrown₂.mem_nodes hlt).mpr .refl
  have htrees : g₃.trees = g.trees := hreb.trees
  set g₄ := g₃.modifyTree t fun x => { x with root := some w } with hg₄
  have htree : ∀ u : Nat, g₄.trees[u]? = if t = u then some { tree with root := some w } else g.trees[u]? := by
    intro u
    have hget : g₄.trees[u]? = if t = u then g₃.trees[u]?.map _ else g₃.trees[u]? := Array.getElem?_modify
    rw [hget, htrees]
    split
    · rename_i heq
      rw [← heq, ht]
      rfl
    · rfl
  have hother : ∀ {u : Nat} {y : Tree κ} {r}, g.trees[u]? = some y → y.root = some r → t ≠ u := by
    rintro u y r hy hr rfl
    rw [ht] at hy
    cases hy
    rw [hnone] at hr
    cases hr
  refine h.redone ?_
  constructor
  case grown =>
    refine (hreb.grown.replant _).retop (fun r hr _ => ?_) fun r hr v hv => ?_
    · rcases List.mem_cons.mp hr with rfl | hr
      · exact World.mem_roots.mpr ⟨t, _, (htree t).trans (if_pos rfl), rfl⟩
      · obtain ⟨u, y, hy, hyr⟩ := World.mem_roots.mp hr
        exact World.mem_roots.mpr ⟨u, y, ((htree u).trans (if_neg (hother hy hyr))).trans hy, hyr⟩
    · obtain ⟨u, y, hy, hyr⟩ := World.mem_roots.mp hr
      rw [htree] at hy
      refine hreb.grown.topmost (w := r) ?_ hv
      split at hy
      · obtain rfl := Option.some.inj hy
        exact Option.some.inj hyr ▸ List.mem_cons_self
      · exact List.mem_cons_of_mem _ (World.mem_roots.mpr ⟨u, y, hy, hyr⟩)
  case rooted =>
    intro u y r hy hr
    rw [htree] at hy
    split at hy
    · rename_i heq
      obtain rfl := Option.some.inj hy
      obtain rfl : w = r := Option.some.inj hr
      obtain ⟨z, hz, hzd, hzt⟩ := hreb.self x hget₂
      cases z with
      | collection item batch site b => cases hzd
      | object plan site bound =>
        cases bound with
        | none => cases hzt
        | some b =>
          cases hzd
          refine ⟨context, b, heq ▸ hz, ?_⟩
          have hsubject : b.subject.value = .object context := Option.some.inj hzt
          cases hb : b.subject with
          | object o =>
            rw [hb] at hsubject
            cases hsubject
            rfl
          | command c =>
            rw [hb] at hsubject
            cases hsubject
    · obtain ⟨context', b, hr', hb⟩ := h.rooted u y r hy hr
      have hroot : r ∈ g.roots := World.mem_roots.mpr ⟨u, y, hy, hr⟩
      have hrlt := h.rooted.lt_size hroot
      refine ⟨context', b, ?_, hb⟩
      refine (hreb.top_kept hgrown₂ hlt (List.mem_cons_of_mem _ hroot) (ne_of_lt hrlt) (lt_trans hrlt hlt)).trans ?_
      rw [hg₂, World.getElem?_addWatcher, if_neg (ne_of_lt hrlt)]
      exact hr'
  case outline => exact hreb.outline
  case next => exact hreb.next
  case old => exact hreb.old
  case oldChanges => exact hreb.oldChanges
  case kept =>
    intro v y hy ht
    rcases hreb.kept hy ht with hnew | ⟨-, hnot, hold⟩
    · exact Or.inl ⟨(hreb.settled_new hy hnew).replant _, fun hm => hreb.next_le hgrown₂.toLedger hself hnew hm⟩
    · have hvw : v ≠ w := fun heq => hnot (heq ▸ hself)
      rw [hg₂, World.getElem?_addWatcher, if_neg hvw] at hold
      refine Or.inr ⟨hold, fun d hd => ?_⟩
      have hdw : d ≠ w := ne_of_lt (h.grown.lt_of_mem_listed hd)
      rw [← World.listed_addWatcher (x := x) rfl] at hd
      refine (hreb.listed_kept hgrown₂.toShaped hlt hnot hd hdw).trans ?_
      rw [hg₂, World.getElem?_addWatcher, if_neg hdw]

theorem Stable.root_dispose {t : TreeId} {tree : Tree κ} (ht : (g.dispose t).trees[t]? = some tree) :
    tree.root = none := by
  unfold World.dispose at ht
  cases hroot : g.treeRoot t with
  | none =>
    simp only [hroot] at ht
    simpa [World.treeRoot, ht] using hroot
  | some r =>
    obtain ⟨x, hx, hr⟩ : ∃ x, g.trees[t]? = some x ∧ x.root = some r := Option.bind_eq_some_iff.mp hroot
    have hlt := h.rooted.lt_size (World.mem_roots.mpr ⟨t, x, hx, hr⟩)
    have hgrown₁ : (g.modifyTree t fun x => { x with root := none }).Grown g.roots := h.grown.replant _
    simp only [hroot] at ht
    rw [(hgrown₁.unbind hlt).2.trees, World.modifyTree, Array.getElem?_modify, if_pos rfl, hx] at ht
    obtain rfl := Option.some.inj ht
    rfl

theorem Stable.bury (scene : Scene κ) (hscene : scene.world = g) (t : TreeId) :
    Stable (scene.bury t) agenda missed := by
  subst hscene
  unfold Scene.bury
  simp only
  split
  · exact h.dispose t
  · exact h

/-- A new watcher is bound, and then it is put at the top of its tree. -/
theorem Stable.works_plant {L : Language κ σ} (t : TreeId) (plan : WatchPlan κ) (context : ObjectId) (st : σ) :
    Works L (machine (g.addWatcher (.object plan { tree := t, top := g.watchers.size, context } none))
        ([.bind g.watchers.size (.object context), .plant t g.watchers.size, .release (.tree t)] ++ agenda) st)
      (machine (g.plantTree t plan context) ([.release (.tree t)] ++ agenda) st) := by
  set x : Watcher κ := .object plan { tree := t, top := g.watchers.size, context } none with hx
  have hget : (g.addWatcher x).watchers[g.watchers.size]? = some x := (g.getElem?_addWatcher x _).trans (if_pos rfl)
  have hunbind := World.unbind_dormant hget rfl
  have hsane : (g.addWatcher x).Sane := h.grown.sane.congr (g.addWatcher_outline x)
  refine (works_bind hsane ?_ (.object context) _ st).trans (.task rfl rfl (.done _))
  rw [hunbind]
  exact (Array.getElem?_eq_some_iff.mp hget).1

/-- **Attaching** a tree: its new top is bound before anybody has a word. -/
theorem Stable.attach {L : Language κ σ} (t : TreeId) {context : ObjectId} (hcontext : g.hasObject context = true)
    (st : σ) : Leads L (machine (g.attach t context).1 ((g.attach t context).2 ++ agenda) st) missed := by
  have hdisposed := h.dispose t
  unfold World.attach
  simp only
  cases ht : (g.dispose t).trees[t]? with
  | none => exact hdisposed.leads
  | some tree =>
    have hcontext' : (g.dispose t).hasObject context = true :=
      (World.hasValue_congr (g.dispose_outline t) (.object context)).trans hcontext
    refine ⟨_, hdisposed.works_plant t tree.plan context st, ?_⟩
    exact (hdisposed.attached ht (h.root_dispose ht) hcontext').prepend (by simp [Task.isDelivery, Task.isBinding])

end

end LiveRules
