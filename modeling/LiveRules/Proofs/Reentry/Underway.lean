/-
# What holds while watchers are being bound

Code may run while watchers are being bound, at every subscription, and may ask for
anything. As long as it does not meddle with what is being bound right then, the
subscriptions that watchers hold, in their books or in their drafts, hang on the tops of
trees, as they do when nothing is being bound. The tops are then also those that are still
to be planted, and members that are to join a watcher which is bound.

Key definitions: `World.topsOf`, `Scene.Undisturbed`, `World.Underway`, `World.Carries`.
Key theorems: `Scene.Undisturbed.drafts_nodup`, `World.Underway.drafted`,
`World.Underway.next`.
-/
import LiveRules.Proofs.Machine.Lasting
import LiveRules.Proofs.Reentry.Drafts

namespace LiveRules

variable {κ : Type}

/-! ### Tops and drafts -/

/-- Watchers that a task puts at the top of what is below them, for the time being. -/
def Task.tops : Task κ → List WatcherId
  | .plant _ w => [w]
  | .enrol e => if e.binds.isNone then e.done.map (·.2) else []
  | _ => []

/-- All that is not below another watcher. -/
def World.topsOf (g : World κ) (agenda : List (Task κ)) : List WatcherId :=
  g.roots ++ agenda.flatMap Task.tops

/-- The watcher that is being bound, or that new members are being watched for. -/
def Task.worksFor : Task κ → Option WatcherId
  | .bindMembers b => some b.watcher
  | .subscribe _ _ _ (.binding b) => some b.watcher
  | .register _ _ _ (.binding b) => some b.watcher
  | .enrol e => some e.watcher
  | _ => none

/-- If both tasks work for the same watcher, then new members are being watched for it, and
nothing else. -/
def Task.Apart (t u : Task κ) : Prop :=
  ∀ w, t.worksFor = some w → u.worksFor = some w → t.draft? = none ∧ u.draft? = none

instance : Std.Symm (Task.Apart (κ := κ)) :=
  ⟨fun _ _ h w hu ht => (h w ht hu).symm⟩

instance (t u : Task κ) : Decidable (t.Apart u) :=
  decidable_of_iff (∀ w ∈ t.worksFor, u.worksFor = some w → t.draft?.isNone = true ∧ u.draft?.isNone = true)
    (by simp [Task.Apart])

/-- Nobody has meddled with what is being bound. -/
structure Scene.Undisturbed (scene : Scene κ) : Prop where
  /-- No watcher is bound anew while it is being bound, or while new members are being
  watched for it. -/
  once : scene.agenda.Pairwise Task.Apart
  /-- A watcher that is being bound belongs still to where it is being bound. -/
  kept : ∀ d ∈ draftsOf scene.agenda, d.watcher ∈ scene.world.topsOf scene.agenda ∨
    ∃ v, d.watcher ∈ (scene.world.asIf (draftsOf scene.agenda)).listed v
  /-- A tree that is being attached has not been attached meanwhile. -/
  planted : ∀ t w, .plant t w ∈ scene.agenda → scene.world.treeRoot t = none

/-- The tree that the task is to plant. -/
def Task.plants? : Task κ → Option TreeId
  | .plant t _ => some t
  | _ => none

instance (scene : Scene κ) : Decidable scene.Undisturbed :=
  decidable_of_iff (scene.agenda.Pairwise Task.Apart ∧
      (∀ d ∈ draftsOf scene.agenda, d.watcher ∈ scene.world.topsOf scene.agenda ∨
        ∃ v ∈ List.range scene.world.watchers.size, d.watcher ∈ (scene.world.asIf (draftsOf scene.agenda)).listed v) ∧
      ∀ u ∈ scene.agenda, ∀ t ∈ u.plants?, (scene.world.treeRoot t).isNone = true) <| by
    constructor
    · rintro ⟨honce, hkept, hplanted⟩
      refine ⟨honce, fun d hd => (hkept d hd).imp_right fun ⟨v, _, hv⟩ => ⟨v, hv⟩, fun t w hmem => ?_⟩
      exact Option.isNone_iff_eq_none.mp (hplanted _ hmem t rfl)
    · rintro ⟨honce, hkept, hplanted⟩
      have hrange {v w : WatcherId} (hv : w ∈ (scene.world.asIf (draftsOf scene.agenda)).listed v) :
          v ∈ List.range scene.world.watchers.size := by
        obtain ⟨x, hx, -⟩ := World.exists_of_mem_listed hv
        rw [List.mem_range]
        exact (Array.getElem?_eq_some_iff.mp hx).1.trans_eq (World.size_asIf ..)
      refine ⟨honce, fun d hd => (hkept d hd).imp_right fun ⟨v, hv⟩ => ⟨v, hrange hv, hv⟩, fun u hmem t ht => ?_⟩
      cases u with
      | plant v w =>
        cases ht
        exact Option.isNone_iff_eq_none.mpr (hplanted _ w hmem)
      | _ => cases ht

theorem Task.worksFor_of_draft {t : Task κ} {d : Draft} (h : t.draft? = some d) : t.worksFor = some d.watcher := by
  cases t with
  | bindMembers b =>
    cases h
    rfl
  | subscribe s p l r =>
    cases r with
    | code k => cases h
    | binding b =>
      cases h
      rfl
  | register s p l r =>
    cases r with
    | code k => cases h
    | binding b =>
      cases h
      rfl
  | enrol e =>
    obtain ⟨c, -, rfl⟩ := Option.map_eq_some_iff.mp h
    rfl
  | _ => cases h

theorem mem_draftsOf {agenda : List (Task κ)} {d : Draft} : d ∈ draftsOf agenda ↔ ∃ t ∈ agenda, t.draft? = some d :=
  List.mem_filterMap

theorem draftsOf_append (agenda agenda' : List (Task κ)) :
    draftsOf (agenda ++ agenda') = draftsOf agenda ++ draftsOf agenda' :=
  List.filterMap_append

section

variable {scene : Scene κ} (h : scene.Undisturbed)

include h

theorem Scene.Undisturbed.drafts_nodup : ((draftsOf scene.agenda).map Draft.watcher).Nodup := by
  rw [draftsOf, List.Nodup, List.pairwise_map, List.pairwise_filterMap]
  refine h.once.imp fun {t u} honce d hd e he heq => ?_
  have hnone := (honce d.watcher (Task.worksFor_of_draft hd) (heq ▸ Task.worksFor_of_draft he)).1
  rw [hnone] at hd
  cases hd

/-- Members join watchers only that are not being bound themselves. -/
theorem Scene.Undisturbed.joins {e : Enrolment κ} (he : .enrol e ∈ scene.agenda) (hbinds : e.binds = none) :
    ∀ d ∈ draftsOf scene.agenda, d.watcher ≠ e.watcher := by
  intro d hd heq
  obtain ⟨t, ht, htd⟩ := mem_draftsOf.mp hd
  have hnone := Task.draft?_joining hbinds
  have hne : t ≠ .enrol e := by
    rintro rfl
    rw [hnone] at htd
    cases htd
  have hnone' := (h.once.forall ht he hne d.watcher (Task.worksFor_of_draft htd) (heq ▸ rfl)).1
  rw [htd] at hnone'
  cases hnone'

end

/-! ### What tasks rely on -/

/-- The draft fits the plan of a watcher that is bound to nothing. -/
def Binding.Fits (b : Binding κ) (g : World κ) : Prop :=
  ∃ plan, g.watchers[b.watcher]? = some (.object plan b.site none) ∧ plan.drop b.subscriptions.length = b.rest

/-- A subscription to `p` that is being made through `s`: a watcher makes it for the next
property of its plan, and it will be found where the watcher expects it. -/
def Receiver.Fits (r : Receiver κ) (g : World κ) (s : Subject) (p : String) (l : Listener κ) : Prop :=
  match r with
  | .code _ => ∃ k context, l = .code k context
  | .binding b =>
    b.Fits g ∧ l = .member b.watcher b.subscriptions.length ∧ (∃ batch, b.rest.place? 0 = some (p, batch)) ∧
      g.hasValue s.value = true ∧ g.home s p = g.home b.subject p

/-- Members that are being watched: by a watcher that is being bound itself, or to join
one that was bound before. Then they have been subscribed to later than its collection. -/
def Enrolment.Fits (e : Enrolment κ) (g h : World κ) : Prop :=
  (∀ o ∈ e.pending, g.hasObject o = true) ∧
    match e.binds with
    | some _ => ∃ membership, g.watchers[e.watcher]? = some (.collection e.item membership e.site none)
    | none => (∃ membership bound, g.watchers[e.watcher]? = some (.collection e.item membership e.site bound) ∧
        ∀ b, bound = some b → ∀ d ∈ e.done, ∀ k ∈ h.idsOf d.2, b.subscription < k) ∧
      ∀ d ∈ e.done, e.watcher < d.2 ∧ ∃ x, g.watchers[d.2]? = some x ∧ x.dormant = .object e.item e.site none

/-- `r` is a watcher for all of the tree `t`, on some context. -/
def World.Heads (g : World κ) (t : TreeId) (r : WatcherId) : Prop :=
  ∃ tree x, g.trees[t]? = some tree ∧ g.watchers[r]? = some x ∧
    ∃ context, x.dormant = .object tree.plan { tree := t, top := r, context } none

theorem World.Heads.site {g : World κ} {t : TreeId} {r : WatcherId} (h : g.Heads t r) :
    ∃ x, g.watchers[r]? = some x ∧ x.site.tree = t := by
  obtain ⟨tree, x, -, hx, context, hdormant⟩ := h
  refine ⟨x, hx, ?_⟩
  rw [← Watcher.site_dormant, hdormant]
  rfl

/-- What a task relies on, in the world `g` that is `h` with the drafts entered. -/
def Task.Fits (g h : World κ) : Task κ → Prop
  | .bind w v => w < g.watchers.size ∧ g.hasValue v = true
  | .bindMembers b => b.Fits g
  | .subscribe s p l r => r.Fits g s p l
  | .register s p l r => r.Fits g s p l
  | .enrol e => e.Fits g h
  | .plant t w => g.Heads t w
  | .deliverChange _ _ _ change => ∀ o ∈ change.added, g.hasObject o = true
  | _ => True

namespace World

/-- See the head of this file. -/
structure Underway (g : World κ) (agenda : List (Task κ)) : Prop where
  grown : (g.asIf (draftsOf agenda)).Grown (g.topsOf agenda)
  fits : ∀ t ∈ agenda, t.Fits g (g.asIf (draftsOf agenda))
  distinct : (agenda.flatMap Task.tops).Nodup
  unplanted : ∀ w ∈ agenda.flatMap Task.tops, w ∉ g.roots
  headed : ∀ t r, g.treeRoot t = some r → g.Heads t r
  whole : ∀ {w : Nat} {plan site b}, g.watchers[w]? = some (.object plan site (some b)) →
    b.subscriptions.length = plan.length

/-- What a step from `g` to `g'` leaves to the tasks behind it, whose drafts are `ds`. With
the drafts of all entered, it is one from `h` to `h'`; `busy` are the watchers that were
being bound before it. -/
structure Carries (g h g' h' : World κ) (ds : List Draft) (busy : WatcherId → Prop) : Prop where
  dormant : ∀ {w : Nat} {x : Watcher κ}, g.watchers[w]? = some x → ∃ y, g'.watchers[w]? = some y ∧ y.dormant = x.dormant
  drafts : ∀ d ∈ ds, g'.watchers[d.watcher]? = g.watchers[d.watcher]?
  known : ∀ {v}, g.hasValue v = true → g'.hasValue v = true
  home : ∀ {s} p, g.hasValue s.value = true → g'.home s p = g.home s p
  trees : Keeps (SameBy Tree.plan) g.trees g'.trees
  whole : ∀ {w : Nat} {plan site b}, g'.watchers[w]? = some (.object plan site (some b)) →
    g.watchers[w]? = some (.object plan site (some b)) ∨ b.subscriptions.length = plan.length
  bound : ∀ {w : Nat} {item membership site b'}, ¬ busy w →
    g'.watchers[w]? = some (.collection item membership site (some b')) →
      ∃ b, g.watchers[w]? = some (.collection item membership site (some b)) ∧ b.subscription = b'.subscription
  ids : ∀ {w k}, k ∈ h'.idsOf w → k ∈ h.idsOf w ∨ h.nextSubscription ≤ k

end World

section

variable {g h g' h' : World κ} {ds : List Draft} {busy : WatcherId → Prop} (hc : World.Carries g h g' h' ds busy)

include hc

theorem World.Carries.size_le : g.watchers.size ≤ g'.watchers.size := by
  by_contra hlt
  rw [not_le] at hlt
  obtain ⟨y, hy, -⟩ := hc.dormant (Array.getElem?_eq_getElem hlt)
  exact lt_irrefl _ (Array.getElem?_eq_some_iff.mp hy).1

theorem World.Heads.carried {t : TreeId} {r : WatcherId} (hr : g.Heads t r) : g'.Heads t r := by
  obtain ⟨tree, x, htree, hx, context, hdormant⟩ := hr
  obtain ⟨tree', htree', hplan⟩ := hc.trees t tree htree
  obtain ⟨y, hy, hyx⟩ := hc.dormant hx
  have hplan : tree'.plan = tree.plan := hplan
  exact ⟨tree', y, htree', hy, context, by rw [hyx, hdormant, hplan]⟩

theorem Binding.Fits.carried {b : Binding κ} (hb : b.Fits g) (hd : b.draft ∈ ds) : b.Fits g' := by
  obtain ⟨plan, hw, hrest⟩ := hb
  exact ⟨plan, (hc.drafts _ hd).trans hw, hrest⟩

theorem Receiver.Fits.carried {r : Receiver κ} {s : Subject} {p : String} {l : Listener κ} (hr : r.Fits g s p l)
    (hd : ∀ d, r.draft? = some d → d ∈ ds) (hknown : ∀ b, r = .binding b → g.hasValue b.subject.value = true) :
    r.Fits g' s p l := by
  cases r with
  | code k => exact hr
  | binding b =>
    obtain ⟨hb, hl, hplace, hs, hhome⟩ := hr
    exact ⟨hb.carried hc (hd _ rfl), hl, hplace, hc.known hs,
      (hc.home p hs).trans (hhome.trans (hc.home p (hknown b rfl)).symm)⟩

theorem Enrolment.Fits.carried {e : Enrolment κ} (he : e.Fits g h) (hd : ∀ d, e.draft? = some d → d ∈ ds)
    (hbusy : e.binds = none → ¬ busy e.watcher)
    (hold : e.binds = none → ∀ {item membership site b},
      g.watchers[e.watcher]? = some (.collection item membership site (some b)) → b.subscription < h.nextSubscription) :
    e.Fits g' h' := by
  obtain ⟨hpending, he⟩ := he
  refine ⟨fun o ho => hc.known (v := .object o) (hpending o ho), ?_⟩
  cases hbinds : e.binds with
  | some c =>
    rw [hbinds] at he
    obtain ⟨membership, hw⟩ := he
    have hdraft := hd (.collection e.watcher { collection := c.1, subscription := c.2, items := e.done })
      (by simp [Enrolment.draft?, hbinds])
    exact ⟨membership, (hc.drafts _ hdraft).trans hw⟩
  | none =>
    rw [hbinds] at he
    obtain ⟨⟨membership, bound, hw, hyoung⟩, hdone⟩ := he
    refine ⟨?_, fun d hd => ?_⟩
    · obtain ⟨y, hy, hdormant⟩ := hc.dormant hw
      cases y with
      | object => cases hdormant
      | collection item membership' site bound' =>
        cases hdormant
        refine ⟨membership, bound', hy, fun b' hb' d hd k hk => ?_⟩
        subst hb'
        obtain ⟨b, hb, hsame⟩ := hc.bound (hbusy hbinds) hy
        rw [← hsame]
        rcases hc.ids hk with hk | hk
        · rw [hb] at hw
          cases hw
          exact hyoung b rfl d hd k hk
        · exact lt_of_lt_of_le (hold hbinds hb) hk
    · obtain ⟨hlt, x, hx, hdormant⟩ := hdone d hd
      obtain ⟨y, hy, hyx⟩ := hc.dormant hx
      exact ⟨hlt, y, hy, hyx.trans hdormant⟩

end

namespace World

variable {g : World κ} {agenda : List (Task κ)}

/-- Only the members of the tops matter. -/
theorem Grown.tops_congr {tops tops' : List WatcherId} (hg : g.Grown tops) (h : ∀ w, w ∈ tops' ↔ w ∈ tops) :
    g.Grown tops' :=
  hg.retop (fun w hw _ => (h w).mpr hw) fun w hw _ hv => hg.topmost ((h w).mp hw) hv

section

variable (hu : g.Underway agenda)

include hu

/-- What is being bound is bound to nothing yet, and its draft is of its kind. -/
theorem Underway.drafted : g.Drafted (draftsOf agenda) := by
  intro d hd
  obtain ⟨t, ht, htd⟩ := mem_draftsOf.mp hd
  have hfits := hu.fits t ht
  have hbinding : ∀ b : Binding κ, b.Fits g → some b.draft = some d →
      ∃ x, g.watchers[d.watcher]? = some x ∧ x.target = none ∧ d.suits x = true := by
    rintro b ⟨plan, hw, -⟩ hbd
    cases hbd
    exact ⟨_, hw, rfl, rfl⟩
  cases t with
  | bindMembers b => exact hbinding b hfits htd
  | subscribe s p l r =>
    cases r with
    | code k => cases htd
    | binding b => exact hbinding b hfits.1 htd
  | register s p l r =>
    cases r with
    | code k => cases htd
    | binding b => exact hbinding b hfits.1 htd
  | enrol e =>
    obtain ⟨c, hbinds, rfl⟩ := Option.map_eq_some_iff.mp htd
    obtain ⟨-, hfits⟩ := hfits
    rw [hbinds] at hfits
    obtain ⟨membership, hw⟩ := hfits
    exact ⟨_, hw, rfl, rfl⟩
  | _ => cases htd

/-- A top belongs to its tree. -/
theorem Underway.sited {t : TreeId} {r : WatcherId} (hr : g.treeRoot t = some r) :
    ∃ x, g.watchers[r]? = some x ∧ x.site.tree = t :=
  (hu.headed t r hr).site

theorem Underway.tops_lt {w : WatcherId} (hw : w ∈ agenda.flatMap Task.tops) : w < g.watchers.size := by
  obtain ⟨t, ht, hw⟩ := List.mem_flatMap.mp hw
  have hfits := hu.fits t ht
  cases t with
  | plant v r =>
    obtain ⟨x, hx, -⟩ := World.Heads.site hfits
    obtain rfl := List.mem_singleton.mp hw
    exact (Array.getElem?_eq_some_iff.mp hx).1
  | enrol e =>
    rw [Task.tops] at hw
    split at hw
    · rename_i hbinds
      obtain ⟨-, hfits⟩ := hfits
      rw [Option.isNone_iff_eq_none.mp hbinds] at hfits
      obtain ⟨d, hd, rfl⟩ := List.mem_map.mp hw
      obtain ⟨-, x, hx, -⟩ := hfits.2 d hd
      exact (Array.getElem?_eq_some_iff.mp hx).1
    · cases hw
  | _ => cases hw

theorem Underway.root_lt {r : WatcherId} (hr : r ∈ g.roots) : r < g.watchers.size := by
  obtain ⟨t, x, hx, hroot⟩ := mem_roots.mp hr
  obtain ⟨y, hy, -⟩ := hu.sited (t := t) (r := r) (by simp [treeRoot, hx, hroot])
  exact (Array.getElem?_eq_some_iff.mp hy).1

/-- What a watcher is being bound to exists. -/
theorem Underway.known_subject {b : Binding κ} (hnodup : ((draftsOf agenda).map Draft.watcher).Nodup)
    (hd : b.draft ∈ draftsOf agenda) : g.hasValue b.subject.value = true := by
  obtain ⟨x, hx, -, hsuits⟩ := hu.drafted _ hd
  have hget := getElem?_asIf_of_mem (g := g) hnodup hd
  rw [hx, Option.map_some] at hget
  cases x with
  | collection => cases hsuits
  | object plan site bound =>
    have hknown := hu.grown.known hget rfl
    rwa [asIf, hasValue_dressed] at hknown

/-- The tasks behind the one that is carried out fit still. -/
theorem Underway.fits_behind {t : Task κ} {rest : List (Task κ)} (hagenda : agenda = t :: rest)
    (hcalm : Scene.Undisturbed { world := g, agenda }) {g' h' : World κ}
    (hc : Carries g (g.asIf (draftsOf agenda)) g' h' (draftsOf rest) fun w => ∃ d ∈ draftsOf agenda, d.watcher = w) :
    ∀ u ∈ rest, u.Fits g' h' := by
  intro u hu'
  have hmem : u ∈ agenda := hagenda ▸ List.mem_cons_of_mem _ hu'
  have hfits := hu.fits u hmem
  have hdraft : ∀ d, u.draft? = some d → d ∈ draftsOf rest := fun d hd => mem_draftsOf.mpr ⟨u, hu', hd⟩
  have hall : ∀ d, u.draft? = some d → d ∈ draftsOf agenda := fun d hd => mem_draftsOf.mpr ⟨u, hmem, hd⟩
  cases u with
  | bind w v => exact ⟨lt_of_lt_of_le hfits.1 hc.size_le, hc.known hfits.2⟩
  | bindMembers b => exact hfits.carried hc (hdraft _ rfl)
  | subscribe s p l r =>
    exact hfits.carried hc hdraft fun b hb => hu.known_subject hcalm.drafts_nodup (hall b.draft (by rw [hb]; rfl))
  | register s p l r =>
    exact hfits.carried hc hdraft fun b hb => hu.known_subject hcalm.drafts_nodup (hall b.draft (by rw [hb]; rfl))
  | enrol e =>
    refine hfits.carried hc hdraft (fun hbinds => ?_) fun hbinds {item membership site b} hw => ?_
    · rintro ⟨d, hd, heq⟩
      exact hcalm.joins hmem hbinds d hd heq
    · have hget := (getElem?_asIf_of_not_mem (hcalm.joins hmem hbinds)).trans hw
      exact hu.grown.ids_lt (w := e.watcher) (by rw [idsOf_of_get hget]; exact List.mem_singleton_self _)
  | plant t w => exact World.Heads.carried hc hfits
  | deliverChange c id l change => exact fun o ho => hc.known (v := .object o) (hfits o ho)
  | _ => trivial

end

/-- **A step** that carries out `t` and puts `new` in its place. The watchers that `new` puts
at the top are those that `t` did or new; a tree is planted on one that `t` did. -/
theorem Underway.next {t : Task κ} {rest new : List (Task κ)} (hu : g.Underway (t :: rest))
    (hcalm : Scene.Undisturbed { world := g, agenda := t :: rest }) {g' : World κ}
    (hc : Carries g (g.asIf (draftsOf (t :: rest))) g' (g'.asIf (draftsOf (new ++ rest))) (draftsOf rest)
      fun w => ∃ d ∈ draftsOf (t :: rest), d.watcher = w)
    (hgrown : (g'.asIf (draftsOf (new ++ rest))).Grown (g'.topsOf (new ++ rest)))
    (hfits : ∀ u ∈ new, u.Fits g' (g'.asIf (draftsOf (new ++ rest)))) (hdistinct : (new.flatMap Task.tops).Nodup)
    (htops : ∀ w ∈ new.flatMap Task.tops, w ∈ t.tops ∨ g.watchers.size ≤ w)
    (hroots : ∀ v r, g'.treeRoot v = some r → g.treeRoot v = some r ∨
      r ∈ t.tops ∧ r ∉ new.flatMap Task.tops ∧ g'.Heads v r) :
    g'.Underway (new ++ rest) := by
  have hnodup := hu.distinct
  rw [List.flatMap_cons, List.nodup_append] at hnodup
  obtain ⟨-, hrest, hapart⟩ := hnodup
  have hlt : ∀ {w}, w ∈ rest.flatMap Task.tops → w < g.watchers.size := fun hw =>
    hu.tops_lt (List.mem_append_right t.tops hw)
  constructor
  case grown => exact hgrown
  case fits =>
    intro u hmem
    rcases List.mem_append.mp hmem with hmem | hmem
    · exact hfits u hmem
    · exact hu.fits_behind rfl hcalm hc u hmem
  case distinct =>
    rw [List.flatMap_append, List.nodup_append]
    refine ⟨hdistinct, hrest, fun v hv w hw heq => ?_⟩
    rcases htops v hv with hv | hv
    · exact hapart v hv w hw heq
    · exact absurd (hlt hw) (not_lt.mpr (heq ▸ hv))
  case unplanted =>
    intro w hw hroot
    rw [List.flatMap_append] at hw
    obtain ⟨v, x, hx, hwroot⟩ := mem_roots.mp hroot
    rcases hroots v w (by simp [treeRoot, hx, hwroot]) with hold | ⟨ht, hnot, -⟩
    · obtain ⟨y, hy, hyroot⟩ := Option.bind_eq_some_iff.mp hold
      have hold := mem_roots.mpr ⟨v, y, hy, hyroot⟩
      rcases List.mem_append.mp hw with hw | hw
      · rcases htops w hw with hw | hw
        · exact hu.unplanted w (List.mem_append_left _ hw) hold
        · exact absurd (hu.root_lt hold) (not_lt.mpr hw)
      · exact hu.unplanted w (List.mem_append_right t.tops hw) hold
    · rcases List.mem_append.mp hw with hw | hw
      · exact hnot hw
      · exact hapart w ht w hw rfl
  case headed =>
    intro v r hr
    rcases hroots v r hr with hold | ⟨-, -, hheads⟩
    · exact (hu.headed v r hold).carried hc
    · exact hheads
  case whole => exact fun hw => (hc.whole hw).elim hu.whole id

end World

end LiveRules
