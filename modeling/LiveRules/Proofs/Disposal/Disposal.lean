/-
# Subscriptions are accounted for

Whenever no watcher is being bound, the watchers that are on the lists of notifiers and
collections are those of the attached trees, each for the subscriptions that it keeps.
So the count a tree answers with is exact. A tree that is taken down, in whatever way,
takes its own subscriptions off the lists and leaves the others where they are, and
nothing fires any more for the attachment it had.

Key definitions: `World.Cleared`, `Machine.uproots`.
Key theorems: `Stable.cleared`, `Stable.uproots`, `subscriptions_accounted`.
-/
import LiveRules.Proofs.Disposal.Tops
import LiveRules.Proofs.Mirror.Mirror

namespace LiveRules

variable {κ σ : Type} {L : Language κ σ}

namespace World

/-- The listener is not a watcher of the tree `t`. -/
def spares (g : World κ) (t : TreeId) (w : Option WatcherId) : Bool :=
  w.all fun w => !g.isPart t w

/-- `g'` is `g` without the subscriptions of the tree `t`. -/
structure Cleared (g : World κ) (t : TreeId) (g' : World κ) : Prop where
  listeners : ∀ s p, g'.listeners s p = (g.listeners s p).filter fun e => g.spares t e.2.watcher?
  changes : ∀ c, g'.listenersOfCollection c = (g.listenersOfCollection c).filter fun e => g.spares t e.2.watcher?
  outline : g'.outline = g.outline
  next : g'.nextSubscription = g.nextSubscription
  off : g'.treeRoot t = none
  others : ∀ v, t ≠ v → g'.treeRoot v = g.treeRoot v

/-- On the lists of `g'` is what was on those of `g`, and new subscriptions behind it. -/
structure Extends (g g' : World κ) : Prop where
  listeners : ∀ s p, ∃ new, g'.listeners s p = g.listeners s p ++ new ∧ ∀ e ∈ new, g.nextSubscription ≤ e.1
  changes : ∀ c, ∃ new, g'.listenersOfCollection c = g.listenersOfCollection c ++ new ∧
    ∀ e ∈ new, g.nextSubscription ≤ e.1

theorem Extends.refl (g : World κ) : g.Extends g where
  listeners _ _ := ⟨[], (List.append_nil _).symm, by simp⟩
  changes _ := ⟨[], (List.append_nil _).symm, by simp⟩

end World

section

variable {g : World κ} {agenda : List (Task κ)} {missed : SubscriptionId → List ObjectId} (h : Stable g agenda missed)

include h

/-- A bound watcher is one of the tree exactly if it is below the tree's top. -/
theorem Stable.isPart_eq {t : TreeId} {r w : WatcherId} (hr : g.treeRoot t = some r) (hw : g.IsBound w) :
    g.isPart t w = decide (w ∈ g.nodes r) := by
  obtain ⟨tree, htree, hroot⟩ := Option.bind_eq_some_iff.mp hr
  rw [Bool.eq_iff_iff, decide_eq_true_eq]
  constructor
  · intro hpart
    obtain ⟨tree', r', htree', hroot', hmem⟩ := h.grown.root_of_part h.rooted hw hpart
    rw [htree] at htree'
    cases htree'
    rw [hroot] at hroot'
    cases hroot'
    exact hmem
  · exact h.grown.part_of_mem_nodes h.rooted htree hroot

/-- A watcher that is on a list is bound. -/
theorem Stable.bound_of_listener {s : Subject} {p : String} {e : SubscriptionId × Listener κ} (he : e ∈ g.listeners s p)
    {w : WatcherId} (hw : e.2.watcher? = some w) : g.IsBound w := by
  obtain ⟨plan, site, b, hx, -⟩ := h.grown.object_of_listener he hw
  exact ⟨_, hx, rfl⟩

theorem Stable.bound_of_changeListener {c : CollectionId} {e : SubscriptionId × ChangeListener κ}
    (he : e ∈ g.listenersOfCollection c) {w : WatcherId} (hw : e.2.watcher? = some w) : g.IsBound w := by
  obtain ⟨item, batch, site, b, hx, -⟩ := h.grown.collection_of_listener he hw
  exact ⟨_, hx, rfl⟩

/-- **Taking a tree down** takes its subscriptions off the lists, and no others. -/
theorem Stable.cleared (t : TreeId) : g.Cleared t (g.dispose t) := by
  have hoff := g.treeRoot_dispose t
  cases hroot : g.treeRoot t with
  | none =>
    have hsame := World.dispose_of_off hroot
    have hspares : ∀ {w}, (∀ v, w = some v → g.IsBound v) → g.spares t w = true := by
      intro w hw
      cases w with
      | none => rfl
      | some v =>
        cases hpart : g.isPart t v with
        | false => simp [World.spares, hpart]
        | true =>
          obtain ⟨tree, r, htree, hr, -⟩ := h.grown.root_of_part h.rooted (hw v rfl) hpart
          simp [World.treeRoot, htree, hr] at hroot
    constructor
    case listeners =>
      intro s p
      rw [hsame, List.filter_eq_self.mpr fun e he => hspares fun v hv => h.bound_of_listener he hv]
    case changes =>
      intro c
      rw [hsame, List.filter_eq_self.mpr fun e he => hspares fun v hv => h.bound_of_changeListener he hv]
    case outline => rw [hsame]
    case next => rw [hsame]
    case off => exact (hoff t).trans (if_pos rfl)
    case others => exact fun v hv => (hoff v).trans (if_neg hv)
  | some r =>
    have hrel := h.released_dispose hroot
    have hspares : ∀ {w}, (∀ v, w = some v → g.IsBound v) →
        w.all (decide <| · ∉ g.nodes r) = g.spares t w := by
      intro w hw
      cases w with
      | none => rfl
      | some v => simp [World.spares, h.isPart_eq hroot (hw v rfl)]
    constructor
    case listeners =>
      intro s p
      rw [hrel.listeners]
      exact List.filter_congr fun e he => hspares fun v hv => h.bound_of_listener he hv
    case changes =>
      intro c
      rw [hrel.changes]
      exact List.filter_congr fun e he => hspares fun v hv => h.bound_of_changeListener he hv
    case outline => exact hrel.outline
    case next => exact hrel.next
    case off => exact (hoff t).trans (if_pos rfl)
    case others => exact fun v hv => (hoff v).trans (if_neg hv)

/-- **Attaching a tree** puts its subscriptions behind all others. -/
theorem Stable.extends_plant (t : TreeId) (plan : WatchPlan κ) {context : ObjectId}
    (hcontext : g.hasObject context = true) : g.Extends (g.plantTree t plan context) := by
  set x : Watcher κ := .object plan { tree := t, top := g.watchers.size, context } none with hx
  obtain ⟨hgrown, hreb⟩ := h.rebound_top (x := x) rfl hcontext
  have hlt : g.watchers.size < (g.addWatcher x).watchers.size := by simp [World.addWatcher]
  -- whoever is on a list was there before the new top
  have hold : ∀ {w : Option WatcherId}, (∀ v, w = some v → g.IsBound v) →
      w.all (decide <| · ∉ (g.addWatcher x).nodes g.watchers.size) = true := by
    intro w hw
    cases w with
    | none => rfl
    | some v =>
      obtain ⟨y, hy, -⟩ := hw v rfl
      rw [Option.all_some, decide_eq_true_eq]
      intro hmem
      exact absurd (Array.getElem?_eq_some_iff.mp hy).1
        (not_lt.mpr (hgrown.le_of_under ((hgrown.mem_nodes hlt).mp hmem)))
  constructor
  · intro s p
    obtain ⟨new, hnew, hids⟩ := hreb.listeners s p
    have hsame : (g.addWatcher x).listeners s p = g.listeners s p := rfl
    rw [hsame, List.filter_eq_self.mpr fun e he => hold fun v hv => h.bound_of_listener he hv] at hnew
    exact ⟨new, hnew, hids⟩
  · intro c
    obtain ⟨new, hnew, hids⟩ := hreb.changes c
    have hsame : (g.addWatcher x).listenersOfCollection c = g.listenersOfCollection c := rfl
    rw [hsame, List.filter_eq_self.mpr fun e he => hold fun v hv => h.bound_of_changeListener he hv] at hnew
    exact ⟨new, hnew, hids⟩

end

/-! ### Every run -/

/-- The next step takes the tree `t` down: it is disposed of, given up while no call on it
is running or when the last such call ends, or attached anew. -/
def Machine.uproots (m : Machine κ σ) (t : TreeId) : Bool :=
  match m.agenda with
  | .request (.dispose v) :: _ => v = t
  | .request (.drop v) :: rest => v = t && !(rest.flatMap Task.held).contains (.tree t)
  | .release (.tree v) :: rest =>
    v = t && (m.world.trees[t]?.map (·.dropped)).getD false && !(rest.flatMap Task.held).contains (.tree t)
  | .request (.attach v context) :: _ => v = t && m.world.hasObject context
  | _ => false

theorem World.Cleared.congr {g g₁ g' : World κ} {t : TreeId} (h : g₁.Cleared t g')
    (hwatchers : g₁.watchers = g.watchers) (hlisteners : ∀ s p, g₁.listeners s p = g.listeners s p)
    (hchanges : ∀ c, g₁.listenersOfCollection c = g.listenersOfCollection c) (houtline : g₁.outline = g.outline)
    (hnext : g₁.nextSubscription = g.nextSubscription) (hroots : ∀ v, g₁.treeRoot v = g.treeRoot v) :
    g.Cleared t g' := by
  have hspares : ∀ w, g₁.spares t w = g.spares t w := by
    intro w
    unfold spares isPart
    rw [hwatchers]
  constructor
  case listeners =>
    intro s p
    rw [h.listeners, hlisteners]
    exact List.filter_congr fun e _ => hspares _
  case changes =>
    intro c
    rw [h.changes, hchanges]
    exact List.filter_congr fun e _ => hspares _
  case outline => exact h.outline.trans houtline
  case next => exact h.next.trans hnext
  case off => exact h.off
  case others => exact fun v hv => (h.others v hv).trans (hroots v)

theorem Machine.hooks_of_uproots {m : Machine κ σ} {t : TreeId} (h : m.uproots t = true) : m.hooks = false := by
  unfold Machine.uproots at h
  unfold Machine.hooks
  split at h <;> simp_all

theorem World.Cleared.addWatcher {g g' : World κ} {t : TreeId} (h : g.Cleared t g') (x : Watcher κ) :
    g.Cleared t (g'.addWatcher x) where
  listeners := h.listeners
  changes := h.changes
  outline := h.outline
  next := h.next
  off := h.off
  others := h.others

theorem Scene.bury_eq {scene : Scene κ} {t : TreeId} (hfree : scene.held.contains (.tree t) = false)
    (hdropped : ∀ x, scene.world.trees[t]? = some x → x.dropped = true) : scene.bury t = scene.world.dispose t := by
  unfold Scene.bury
  simp only [hfree, Bool.not_false, Bool.and_true]
  cases ht : scene.world.trees[t]? with
  | none => simp [World.dispose, World.treeRoot, ht]
  | some x => simp [hdropped x ht]

section

variable {g : World κ} {u : Task κ} {rest : List (Task κ)} {missed : SubscriptionId → List ObjectId}

/-- **A step that takes a tree down** takes its subscriptions off the lists. If it attaches
the tree anew, the new ones come behind all others. -/
theorem Stable.uproots (h : Stable g (u :: rest) missed) (st : σ) {t : TreeId}
    (ht : (machine g (u :: rest) st).uproots t = true) :
    g.Cleared t (L.step (machine g (u :: rest) st)).world ∧
      ∃ k, Works L (L.step (machine g (u :: rest) st)) k ∧ k.Calm ∧
        (L.step (machine g (u :: rest) st)).world.Extends k.world ∧
          ∀ r, k.world.treeRoot t = some r → r = g.watchers.size := by
  have hcalm : ∀ v ∈ rest, v.isBinding = false := fun v hv => h.calm v (List.mem_cons_of_mem _ hv)
  -- unless the tree is attached anew, one step is all
  have hdown : ∀ {g' : World κ}, g.Cleared t g' → g.Cleared t (machine g' rest st).world ∧
      ∃ k, Works L (machine g' rest st) k ∧ k.Calm ∧ (machine g' rest st).world.Extends k.world ∧
        ∀ r, k.world.treeRoot t = some r → r = g.watchers.size := by
    intro g' hcleared
    refine ⟨hcleared, _, .done _, hcalm, .refl _, fun r hr => ?_⟩
    have hoff : (machine g' rest st).world.treeRoot t = none := hcleared.off
    rw [hoff] at hr
    cases hr
  unfold Machine.uproots machine at ht
  split at ht
  case h_1 v rest' hm =>
    cases hm
    obtain rfl := of_decide_eq_true ht
    exact hdown (h.cleared v)
  case h_2 v rest' hm =>
    cases hm
    rw [Bool.and_eq_true, decide_eq_true_eq, Bool.not_eq_true'] at ht
    obtain ⟨rfl, hfree⟩ := ht
    set g₁ := g.modifyTree v fun x => { x with dropped := true } with hg₁
    have hbury : ({ world := g₁, agenda := rest } : Scene κ).bury v = g₁.dispose v := by
      refine Scene.bury_eq hfree fun x hx => ?_
      simp only [hg₁, World.modifyTree, Array.getElem?_modify, if_true, Option.map_eq_some_iff] at hx
      obtain ⟨y, -, rfl⟩ := hx
      rfl
    have hstep : L.step (machine g (.request (.drop v) :: rest) st) = machine (g₁.dispose v) rest st := hbury ▸ rfl
    rw [hstep]
    exact hdown (((h.giveUp v).cleared v).congr rfl (fun _ _ => rfl) (fun _ => rfl) rfl rfl (World.treeRoot_giveUp g v))
  case h_3 v rest' hm =>
    cases hm
    rw [Bool.and_eq_true, Bool.and_eq_true, decide_eq_true_eq, Bool.not_eq_true'] at ht
    obtain ⟨⟨rfl, hdropped⟩, hfree⟩ := ht
    have hbury : ({ world := g, agenda := rest } : Scene κ).bury v = g.dispose v := by
      refine Scene.bury_eq hfree fun x hx => ?_
      have hx : g.trees[v]? = some x := hx
      simpa [hx] using hdropped
    have hstep : L.step (machine g (.release (.tree v) :: rest) st) = machine (g.dispose v) rest st := hbury ▸ rfl
    rw [hstep]
    exact hdown (h.cleared v)
  case h_4 v context rest' hm =>
    cases hm
    rw [Bool.and_eq_true, decide_eq_true_eq] at ht
    obtain ⟨rfl, hcontext⟩ := ht
    have hcontext : g.hasObject context = true := hcontext
    have hdisposed := (h.tail rfl).dispose v
    cases htree : (g.dispose v).trees[v]? with
    | none =>
      have hstep : L.step (machine g (.request (.attach v context) :: rest) st) = machine (g.dispose v) rest st := by
        simp only [Language.step, machine, Language.carry, World.grant, hcontext, if_true, World.attach, htree,
          List.nil_append]
      rw [hstep]
      exact hdown (h.cleared v)
    | some tree =>
      have hcontext' : (g.dispose v).hasObject context = true :=
        (World.hasValue_congr (g.dispose_outline v) (.object context)).trans hcontext
      have hstep : L.step (machine g (.request (.attach v context) :: rest) st) =
          machine ((g.dispose v).addWatcher
              (.object tree.plan { tree := v, top := (g.dispose v).watchers.size, context } none))
            ([.bind (g.dispose v).watchers.size (.object context), .plant v (g.dispose v).watchers.size,
              .release (.tree v)] ++ rest) st := by
        simp only [Language.step, machine, Language.carry, World.grant, hcontext, if_true, World.attach, htree]
      rw [hstep]
      have hextends := hdisposed.extends_plant v tree.plan hcontext'
      have hidle : ∀ w ∈ [(.release (.tree v) : Task κ)], w.isDelivery = false ∧ w.isBinding = false := by
        simp [Task.isDelivery, Task.isBinding]
      refine ⟨(h.cleared v).addWatcher _, _, hdisposed.works_plant v tree.plan context st, ?_,
        ⟨hextends.listeners, hextends.changes⟩, fun r hr => ?_⟩
      · exact ((hdisposed.attached htree ((h.tail rfl).root_dispose htree) hcontext').prepend hidle).calm
      · have hroot := (hdisposed.treeRoot_plant tree.plan hcontext' (t := v)).2 v
        have hr : ((g.dispose v).plantTree v tree.plan context).treeRoot v = some r := hr
        rw [hroot, htree, if_pos ⟨rfl, rfl⟩, h.size_dispose] at hr
        exact (Option.some.inj hr).symm
  case h_5 => cases ht

end

/-- **Subscriptions are accounted for.** In every run in which no code is hooked on
subscriptions, and wherever no watcher is being bound: all that watchers are subscribed
to is what the watchers of the attached trees keep, each subscription once and at the
object or collection it was made on, and the count of each tree is exact. Taking a tree
down takes its subscriptions off the lists, leaves all others where they are, and does so
once; attached anew, a tree's subscriptions come behind all others. Whatever happens
then, nothing fires any more for the attachment that the tree had. -/
theorem subscriptions_accounted {past : List (Machine κ σ)} {m : Machine κ σ} (h : Run L past m)
    (hhooks : ∀ n ∈ past, n.hooks = false) (hcalm : m.Calm) :
    (m.world.watcherSubscriptions.Perm (m.world.planted.flatMap m.world.keptBy) ∧
        (m.world.planted.flatMap m.world.keptBy).Nodup) ∧
      (∀ t, m.world.subscriptionCount t = (m.world.subscriptionsOf t).length) ∧
      (∀ t, m.world.Cleared t (m.world.dispose t) ∧ (m.world.dispose t).dispose t = m.world.dispose t) ∧
      ∀ t, m.uproots t = true → m.world.Cleared t (L.step m).world ∧
        (∃ k, Works L (L.step m) k ∧ k.Calm ∧ (L.step m).world.Extends k.world) ∧
          ∀ r, m.world.treeRoot t = some r → ∀ later n, Resumes L (L.step m) later n →
            (∀ k ∈ later, k.hooks = false) → ∀ site batch, n.agenda.head? = some (.fire site batch) → site.top ≠ r := by
  obtain ⟨k, hworks, hsettles⟩ := h.settles hhooks
  obtain rfl : m = k := (Works.done m).unique hworks hcalm (hsettles.stable.elim fun _ hs => hs.calm)
  obtain ⟨missed, hstable⟩ := hsettles.stable
  have hgrown := hstable.grown
  have hnodup := hgrown.flatMap_keptBy_nodup (hgrown.planted_nodup hstable.rooted)
  refine ⟨⟨hgrown.watcherSubscriptions_perm hstable.rooted, hnodup⟩, fun t => ?_, fun t => ⟨hstable.cleared t, ?_⟩,
    fun t ht => ?_⟩
  · rw [hgrown.subscriptionCount_eq]
    cases hroot : m.world.treeRoot t with
    | none =>
      have hoff : m.world.isAttached t = false := by
        unfold World.isAttached
        rw [hroot]
        rfl
      rw [hgrown.subscriptionsOf_nil hstable.rooted hoff]
      rfl
    | some r =>
      obtain ⟨tree, htree, hr⟩ := Option.bind_eq_some_iff.mp hroot
      rw [(hgrown.subscriptionsOf_perm hstable.rooted htree hr).length_eq]
      simp
  · exact World.dispose_of_off (hstable.cleared t).off
  · obtain ⟨⟨g, agenda⟩, s⟩ := m
    cases agenda with
    | nil => cases ht
    | cons u rest =>
      obtain ⟨hcleared, k, hworks, hcalm', hextends, htop⟩ := hstable.uproots (L := L) s ht
      obtain ⟨g', tasks, s', hs, hworks', hsettles'⟩ := hsettles.stride (L := L) (Machine.hooks_of_uproots ht)
      obtain rfl := hworks.unique hworks' hcalm' (hsettles'.stable.elim fun _ hs => hs.calm)
      refine ⟨hcleared, ⟨_, hworks, hcalm', hextends⟩, fun r hr later n hlater hhooks site batch hfire => ?_⟩
      refine hlater.never_fires ⟨_, hworks, hsettles', ?_, fun v hv => ?_⟩ hhooks hfire
      · exact lt_of_lt_of_le (hstable.rooted.lt_size (World.mem_roots_of_treeRoot hr)) (hs.tops hstable).1
      · rcases (hs.tops hstable).2 hv with hold | heq
        · obtain rfl := hstable.rooted.inj hold hr
          exact absurd (hstable.rooted.lt_size (World.mem_roots_of_treeRoot hr)) (htop r hv ▸ lt_irrefl _)
        · exact absurd (hstable.rooted.lt_size (World.mem_roots_of_treeRoot hr)) (heq ▸ lt_irrefl _)

/-- The tree that watches the names in a list is disposed of: its four subscriptions are
off the lists, and whatever happens then, nothing fires for it. -/
theorem subscriptions_accounted_names :
    let m : Machine Unit Unit := machine watchingNames.2.world ([.dispose 0].map .request) ()
    (m.world.subscriptionsOf 0).length = 4 ∧ m.world.Cleared 0 (idle.step m).world ∧
      ∀ later n, Resumes idle (idle.step m) later n → (∀ k ∈ later, k.hooks = false) →
        ∀ site batch, n.agenda.head? = some (.fire site batch) → site.top ≠ 0 := by
  intro m
  have hcalm : m.Calm := fun t ht => by
    obtain rfl := List.mem_singleton.mp ht
    rfl
  obtain ⟨-, hcount, -, hdown⟩ :=
    subscriptions_accounted (watchingNames_run.ask [.dispose 0] ()) (fun n hn => (watchingNames_quiet n hn).1) hcalm
  have hfour : m.world.subscriptionCount 0 = 4 := rfl
  obtain ⟨hcleared, -, hfires⟩ := hdown 0 rfl
  exact ⟨(hcount 0).symm.trans hfour, hcleared, hfires 0 rfl⟩

end LiveRules
