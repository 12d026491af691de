/-
# Entries in a draft

A watcher that is being bound subscribes to one property after the other, or watches one
member after the other, and enters that in its draft. As if the draft was entered, this is
what a watcher does in its books. When it is done the draft becomes its books, and nothing
changes.

Key definitions: `Enrolment.join`.
Key theorems: `World.Underway.finish`, `World.Underway.bindChild`, `World.Underway.enlist`,
`World.Underway.gather`.
-/
import LiveRules.Proofs.Machine.Tells
import LiveRules.Proofs.Reentry.Underway

namespace LiveRules

variable {κ : Type}

theorem draftsOf_cons_none {t : Task κ} {rest : List (Task κ)} (h : t.draft? = none) :
    draftsOf (t :: rest) = draftsOf rest :=
  List.filterMap_cons_none h

theorem draftsOf_cons_some {t : Task κ} {rest : List (Task κ)} {d : Draft} (h : t.draft? = some d) :
    draftsOf (t :: rest) = d :: draftsOf rest :=
  List.filterMap_cons_some h

/-- The other drafts are of other watchers. -/
theorem Scene.Undisturbed.ne_draft {g : World κ} {t : Task κ} {rest : List (Task κ)}
    (hcalm : Scene.Undisturbed { world := g, agenda := t :: rest }) {d : Draft} (h : t.draft? = some d) :
    ∀ d' ∈ draftsOf rest, d'.watcher ≠ d.watcher := by
  have hnodup := hcalm.drafts_nodup
  simp only [draftsOf_cons_some h, List.map_cons, List.nodup_cons] at hnodup
  exact fun d' hd' heq => hnodup.1 (heq ▸ List.mem_map_of_mem hd')

/-! ### One more entry -/

/-- The enrolment after one more member. -/
def Enrolment.join (e : Enrolment κ) (o : ObjectId) (w : WatcherId) (pending : List ObjectId) : Enrolment κ :=
  { e with done := e.done ++ [(o, w)], pending }

/-- Members that are to join are in no draft, however many have been watched. -/
theorem draftsOf_join {e : Enrolment κ} (hbinds : e.binds = none) (o : ObjectId) (w : WatcherId)
    (pending : List ObjectId) (rest : List (Task κ)) :
    draftsOf ([.bind w (.object o), .enrol (e.join o w pending)] ++ rest) = draftsOf (.enrol e :: rest) := by
  rw [draftsOf_cons_none (Task.draft?_joining hbinds)]
  exact (draftsOf_cons_none rfl).trans (draftsOf_cons_none (Task.draft?_joining hbinds))

theorem draftsOf_gather {e : Enrolment κ} (hbinds : e.binds = none) (site : Attachment) (membership : Batch κ)
    (rest : List (Task κ)) : draftsOf ([.fire site membership] ++ rest) = draftsOf (.enrol e :: rest) := by
  rw [draftsOf_cons_none (Task.draft?_joining hbinds)]
  exact draftsOf_cons_none rfl

namespace World

variable {g : World κ}

theorem getElem?_enter (g : World κ) (d : Draft) (y : Nat) :
    (g.enter d).watchers[y]? = if y = d.watcher then g.watchers[y]?.map d.fill else g.watchers[y]? := by
  simp only [enter, Array.getElem?_modify]
  by_cases hy : y = d.watcher
  · rw [if_pos hy, if_pos hy.symm]
  · rw [if_neg hy, if_neg (Ne.symm hy)]

theorem addWatcher_enterListener (g : World κ) (x : Watcher κ) (s : Subject) (p : String) (l : Listener κ) :
    (g.addWatcher x).enterListener s p l = (g.enterListener s p l).addWatcher x := by
  cases s <;> rfl

/-- As if its draft was entered, a watcher that is being bound subscribes as one does that
has been bound. -/
theorem asIf_subscribeMember {b : Binding κ} {plan : WatchPlan κ} {site : Attachment} {s : Subject} {p : String}
    (hw : g.watchers[b.watcher]? = some (.object plan site none)) (hself : g.home b.subject p = s)
    (c : Option WatcherId) (ds : List Draft) :
    (g.enterListener s p (.member b.watcher b.subscriptions.length)).asIf ((b.join g.nextSubscription c).draft :: ds) =
      (g.asIf (b.draft :: ds)).subscribeMember b.watcher ⟨b.subject, b.subscriptions, b.children⟩ p c := by
  have hw' : (g.enterListener s p (.member b.watcher b.subscriptions.length)).watchers[b.watcher]? =
      some (.object plan site none) := by
    rw [enterListener_watchers, hw]
  rw [← enter_redraft (d := (b.join g.nextSubscription c).draft) hw' rfl ds b.draft rfl, asIf_enterListener]
  unfold subscribeMember
  rw [bindObject_eq_enter, asIf, home_dressed, hself]
  rfl

/-- As if its draft was entered, a watcher that is being bound enters a new member in its
books. -/
theorem asIf_enlist {w : Nat} {item : WatchPlan κ} {membership : Batch κ} {site : Attachment} {ds : List Draft}
    (hw : g.watchers[w]? = some (.collection item membership site none)) (b : BoundCollection)
    (hds : ∀ d ∈ Draft.collection w b :: ds, d.watcher < g.watchers.size) (x : Watcher κ) (e : ObjectId × WatcherId) :
    (g.addWatcher x).asIf (.collection w { b with items := b.items ++ [e] } :: ds) =
      ((g.asIf (.collection w b :: ds)).addWatcher x).bindCollection w { b with items := b.items ++ [e] } := by
  have hw' : (g.addWatcher x).watchers[w]? = some (.collection item membership site none) := by
    rw [getElem?_addWatcher, if_neg (ne_of_lt (Array.getElem?_eq_some_iff.mp hw).1), hw]
  rw [bindCollection_eq_enter, ← asIf_addWatcher hds x]
  exact (enter_redraft (d := .collection w { b with items := b.items ++ [e] }) hw' rfl ds (.collection w b) rfl).symm

/-- A subscription that a watcher enters is new. -/
theorem ids_subscribeMember {w : Nat} {plan site b} (hw : g.watchers[w]? = some (.object plan site (some b)))
    (name : String) (child : Option WatcherId) {v : WatcherId} {k : SubscriptionId}
    (hk : k ∈ (g.subscribeMember w b name child).idsOf v) : k ∈ g.idsOf v ∨ g.nextSubscription ≤ k := by
  by_cases hv : v = w
  · subst hv
    rw [idsOf_of_get hw]
    have hw' := (congrArg (·[v]?) (g.enterListener_watchers (g.home b.subject name) name
      (.member v b.subscriptions.length))).trans hw
    rw [subscribeMember, idsOf, getElem?_bindObject hw', if_pos rfl] at hk
    rcases List.mem_append.mp hk with hk | hk
    · exact Or.inl hk
    · exact Or.inr (List.mem_singleton.mp hk).ge
  · unfold idsOf at hk ⊢
    rw [subscribeMember_get g hv] at hk
    exact Or.inl hk

/-- Where watchers are only added, bound to nothing, or come to be so, all others carry on. -/
theorem Carries.of_faded {g' h h' : World κ} {ds : List Draft} {busy : WatcherId → Prop}
    (hold : ∀ {y : Nat} {x : Watcher κ}, g.watchers[y]? = some x →
      g'.watchers[y]? = some x ∨ g'.watchers[y]? = some x.dormant)
    (hnew : ∀ {y : Nat} {x : Watcher κ}, g'.watchers[y]? = some x → g.watchers[y]? = some x ∨ x.target = none)
    (hds : g.Drafted ds) (houtline : g'.outline = g.outline) (htrees : Keeps (SameBy Tree.plan) g.trees g'.trees)
    (hids : ∀ {w k}, k ∈ h'.idsOf w → k ∈ h.idsOf w ∨ h.nextSubscription ≤ k) : Carries g h g' h' ds busy where
  dormant {y x} hx := (hold hx).elim (fun hx' => ⟨x, hx', rfl⟩) fun hx' => ⟨x.dormant, hx', x.dormant_dormant⟩
  drafts d hd := by
    obtain ⟨x, hx, hnone, -⟩ := hds d hd
    rw [hx]
    rcases hold hx with hx' | hx'
    · exact hx'
    · rw [hx', (holds_nothing hnone).2.2]
  known hv := (hasValue_congr houtline _).trans hv
  home p _ := home_congr houtline _ p
  trees := htrees
  whole hb := Or.inl ((hnew hb).resolve_right nofun)
  bound _ hb := (hnew hb).elim (fun hb => ⟨_, hb, rfl⟩) nofun
  ids := hids

/-- Where a watcher that is not being bound has other members in its books, all others carry on. -/
theorem Carries.of_items {h : World κ} {ds : List Draft} {busy : WatcherId → Prop} {w : Nat} {item membership site b}
    (hw : g.watchers[w]? = some (.collection item membership site (some b)))
    (hh : h.watchers[w]? = some (.collection item membership site (some b))) (hds : ∀ d ∈ ds, d.watcher ≠ w)
    (items : List (ObjectId × WatcherId)) :
    Carries g h (g.bindCollection w { b with items }) (h.bindCollection w { b with items }) ds busy where
  dormant {y x} hx := by
    rw [getElem?_bindCollection hw]
    split
    · rename_i hy
      subst hy
      rw [hw] at hx
      cases hx
      exact ⟨_, rfl, rfl⟩
    · exact ⟨x, hx, rfl⟩
  drafts d hd := by rw [getElem?_bindCollection hw, if_neg (hds d hd)]
  known hv := hv
  home p _ := by
    have houtline : (g.bindCollection w { b with items }).outline = g.outline := rfl
    exact home_congr houtline _ p
  trees := .refl (SameBy.refl _) _
  whole hb := by
    rw [getElem?_bindCollection hw] at hb
    split at hb
    · cases hb
    · exact Or.inl hb
  bound {y item' membership' site' b'} _ hb := by
    rw [getElem?_bindCollection hw] at hb
    split at hb
    · rename_i hy
      subst hy
      cases hb
      exact ⟨b, hw, rfl⟩
    · exact ⟨b', hb, rfl⟩
  ids {v k} hk := by
    rw [idsOf, getElem?_bindCollection hh] at hk
    split at hk
    · rename_i hv
      rw [hv, idsOf_of_get hh]
      exact Or.inl hk
    · exact Or.inl hk

/-- One change after another. -/
theorem Carries.trans {g₁ g₂ h h₁ h₂ : World κ} {ds : List Draft} {busy : WatcherId → Prop}
    (hc : Carries g h g₁ h₁ ds busy) (hc' : Carries g₁ h₁ g₂ h₂ ds busy)
    (hnext : h.nextSubscription ≤ h₁.nextSubscription) : Carries g h g₂ h₂ ds busy where
  dormant hx := by
    obtain ⟨y, hy, hyx⟩ := hc.dormant hx
    obtain ⟨z, hz, hzy⟩ := hc'.dormant hy
    exact ⟨z, hz, hzy.trans hyx⟩
  drafts d hd := (hc'.drafts d hd).trans (hc.drafts d hd)
  known hv := hc'.known (hc.known hv)
  home p hs := (hc'.home p (hc.known hs)).trans (hc.home p hs)
  trees := hc.trees.trans SameBy.trans hc'.trees
  whole hb := (hc'.whole hb).elim hc.whole Or.inr
  bound hw hb := by
    obtain ⟨b, hb, hsame⟩ := hc'.bound hw hb
    obtain ⟨b', hb', hsame'⟩ := hc.bound hw hb
    exact ⟨b', hb', hsame'.trans hsame⟩
  ids hk := (hc'.ids hk).elim hc.ids fun hk => Or.inr (hnext.trans hk)

theorem addWatcher_old {x z : Watcher κ} {y : Nat} (hz : g.watchers[y]? = some z) :
    (g.addWatcher x).watchers[y]? = some z := by
  rw [getElem?_addWatcher, if_neg (ne_of_lt (Array.getElem?_eq_some_iff.mp hz).1), hz]

theorem addWatcher_new {x z : Watcher κ} {y : Nat} (hx : x.target = none)
    (hz : (g.addWatcher x).watchers[y]? = some z) : g.watchers[y]? = some z ∨ z.target = none := by
  rw [getElem?_addWatcher] at hz
  split at hz
  · exact Or.inr (Option.some.inj hz ▸ hx)
  · exact Or.inl hz

theorem getElem?_addWatcher_size (g : World κ) (x : Watcher κ) :
    (g.addWatcher x).watchers[g.watchers.size]? = some x := by
  rw [getElem?_addWatcher, if_pos rfl]

variable {t : Task κ} {rest : List (Task κ)}

theorem Underway.drafted_behind (hu : g.Underway (t :: rest)) : g.Drafted (draftsOf rest) := by
  intro d hd
  obtain ⟨u, hmem, hud⟩ := mem_draftsOf.mp hd
  exact hu.drafted d (mem_draftsOf.mpr ⟨u, List.mem_cons_of_mem _ hmem, hud⟩)

/-- A new watcher is no top. -/
theorem Underway.size_not_top (hu : g.Underway (t :: rest)) : g.watchers.size ∉ g.topsOf (t :: rest) := by
  intro hmem
  rcases List.mem_append.mp hmem with hmem | hmem
  · exact lt_irrefl _ (hu.root_lt hmem)
  · exact lt_irrefl _ (hu.tops_lt hmem)

/-- A new watcher is listed nowhere. -/
theorem Underway.size_not_listed (hu : g.Underway (t :: rest)) (v : WatcherId) :
    g.watchers.size ∉ (g.asIf (draftsOf (t :: rest))).listed v := fun hv =>
  lt_irrefl _ ((hu.grown.lt_of_mem_listed hv).trans_eq (size_asIf g _))

/-! ### Done -/

/-- When a watcher is done it has for books what was its draft. -/
theorem Underway.asIf_finish (hu : g.Underway (t :: rest))
    (hcalm : Scene.Undisturbed { world := g, agenda := t :: rest })
    {d : Draft} (hdraft : t.draft? = some d) : (g.enter d).asIf (draftsOf rest) = g.asIf (draftsOf (t :: rest)) := by
  obtain ⟨x, hx, -, -⟩ := hu.drafted d (mem_draftsOf.mpr ⟨t, List.mem_cons_self, hdraft⟩)
  rw [asIf_enter hx (hcalm.ne_draft hdraft), draftsOf_cons_some hdraft]

/-- **A watcher that is done** is bound. -/
theorem Underway.finish (hu : g.Underway (t :: rest)) (hcalm : Scene.Undisturbed { world := g, agenda := t :: rest })
    {d : Draft} (hdraft : t.draft? = some d) (htops : t.tops = [])
    (hwhole : ∀ {w b plan site}, d = .object w b → g.watchers[w]? = some (.object plan site none) →
      b.subscriptions.length = plan.length) : (g.enter d).Underway rest := by
  have hmem : d ∈ draftsOf (t :: rest) := mem_draftsOf.mpr ⟨t, List.mem_cons_self, hdraft⟩
  obtain ⟨x, hx, hnone, hsuits⟩ := hu.drafted d hmem
  have hne := hcalm.ne_draft hdraft
  have hasIf := hu.asIf_finish hcalm hdraft
  show (g.enter d).Underway ([] ++ rest)
  refine hu.next hcalm ?_ ?_ (by simp) List.nodup_nil (by simp) fun v r hr => Or.inl hr
  · rw [List.nil_append, hasIf]
    constructor
    case dormant =>
      intro y z hz
      rw [getElem?_enter, hz]
      split
      · exact ⟨_, rfl, d.dormant_fill z⟩
      · exact ⟨z, rfl, rfl⟩
    case drafts =>
      intro d' hd'
      rw [getElem?_enter, if_neg (hne d' hd')]
    case known => exact fun hv => hv
    case home =>
      intro s p _
      have houtline : (g.enter d).outline = g.outline := rfl
      exact home_congr houtline s p
    case trees => exact .refl (SameBy.refl _) _
    case whole =>
      intro y plan site b' hb'
      rw [getElem?_enter] at hb'
      split at hb'
      · rename_i hy
        subst hy
        rw [hx] at hb'
        cases d <;> cases x <;> cases hsuits <;> cases hb'
        rename_i bound
        cases bound <;> cases hnone
        exact Or.inr (hwhole rfl hx)
      · exact Or.inl hb'
    case bound =>
      intro y item membership site b' hy hb'
      rw [getElem?_enter, if_neg fun heq => hy ⟨d, hmem, heq.symm⟩] at hb'
      exact ⟨b', hb', rfl⟩
    case ids => exact fun hk => Or.inl hk
  · have hgrown := hu.grown
    rw [topsOf, List.flatMap_cons, htops, List.nil_append] at hgrown
    rw [List.nil_append, hasIf]
    exact hgrown

/-! ### The next property -/

section

variable {s : Subject} {p : String} {l : Listener κ} {b : Binding κ}
  (hu : g.Underway (.register s p l (.binding b) :: rest))
  (hcalm : Scene.Undisturbed { world := g, agenda := .register s p l (.binding b) :: rest })

include hu hcalm

/-- The books of a watcher that is subscribing, and what its plan asks for next. -/
theorem Underway.next_place : ∃ plan batch, g.watchers[b.watcher]? = some (.object plan b.site none) ∧
    plan.drop b.subscriptions.length = b.rest ∧ b.rest.place? 0 = some (p, batch) ∧
    (g.asIf (b.draft :: draftsOf rest)).watchers[b.watcher]? =
      some (.object plan b.site (some ⟨b.subject, b.subscriptions, b.children⟩)) ∧
    plan.place? b.subscriptions.length = some (p, batch) ∧
    plan.post? b.site b.subscriptions.length = b.rest.post? b.site 0 := by
  obtain ⟨⟨plan, hw, hrest⟩, -, ⟨batch, hplace⟩, -⟩ := hu.fits _ List.mem_cons_self
  have hget := getElem?_asIf_of_mem (g := g) (d := b.draft) hcalm.drafts_nodup List.mem_cons_self
  refine ⟨plan, batch, hw, hrest, hplace, ?_, ?_, ?_⟩
  · have hdraft : b.draft.watcher = b.watcher := rfl
    rw [hdraft, hw] at hget
    exact hget
  · rw [← hrest, Plan.place?_drop] at hplace
    exact hplace
  · rw [← hrest, Plan.post?_drop, Nat.add_zero]

/-- Where a watcher `c` has been posted, if the plan asks for one, the subscription is
entered, and `front` comes next. -/
theorem Underway.entered (hhere : g.home s p = s) {g₁ : World κ} {c : Option WatcherId} (front : List (Task κ))
    (hold : ∀ {y : Nat} {x : Watcher κ}, g.watchers[y]? = some x → g₁.watchers[y]? = some x)
    (hnew : ∀ {y : Nat} {x : Watcher κ}, g₁.watchers[y]? = some x → g.watchers[y]? = some x ∨ x.target = none)
    (houtline : g₁.outline = g.outline) (htrees : g₁.trees = g.trees) (hnext : g₁.nextSubscription = g.nextSubscription)
    (hgrown : (g₁.asIf (b.draft :: draftsOf rest)).Grown (g.roots ++ rest.flatMap Task.tops))
    (hids : ∀ v, (g₁.asIf (b.draft :: draftsOf rest)).idsOf v = (g.asIf (b.draft :: draftsOf rest)).idsOf v)
    (hlisted : ∀ v, (g₁.asIf (b.draft :: draftsOf rest)).listed v = (g.asIf (b.draft :: draftsOf rest)).listed v)
    (hposted : (g₁.asIf (b.draft :: draftsOf rest)).Posted c (b.rest.post? b.site 0))
    (hfresh : ∀ d, c = some d → d = g.watchers.size)
    (hfront : ∀ u ∈ front, u.draft? = none ∧ u.tops = [] ∧ ∀ h, u.Fits (g₁.enterListener s p l) h) :
    (g₁.enterListener s p l).Underway (front ++ [Task.bindMembers (b.join g.nextSubscription c)] ++ rest) := by
  obtain ⟨plan, batch, hw, hrest, hplace, hbooks, hentry, hpost⟩ := hu.next_place hcalm
  obtain ⟨-, rfl, -, hs, hhome⟩ := hu.fits _ List.mem_cons_self
  have hlt : b.watcher < g.watchers.size := (Array.getElem?_eq_some_iff.mp hw).1
  have hself : g₁.home b.subject p = s := (home_congr houtline _ _).trans (hhome.symm.trans hhere)
  have hdrafts : draftsOf (front ++ [Task.bindMembers (b.join g.nextSubscription c)] ++ rest) =
      (b.join g.nextSubscription c).draft :: draftsOf rest := by
    have hnone : draftsOf front = [] := List.filterMap_eq_nil_iff.mpr fun u hu' => (hfront u hu').1
    rw [draftsOf_append, draftsOf_append, hnone]
    rfl
  have htops : (front ++ [Task.bindMembers (b.join g.nextSubscription c)]).flatMap Task.tops = [] := by
    rw [List.flatMap_append, List.flatMap_eq_nil_iff.mpr fun u hu' => (hfront u hu').2.1]
    rfl
  have hasIf : (g₁.enterListener s p (.member b.watcher b.subscriptions.length)).asIf
      ((b.join g.nextSubscription c).draft :: draftsOf rest) =
        (g₁.asIf (b.draft :: draftsOf rest)).subscribeMember b.watcher
          ⟨b.subject, b.subscriptions, b.children⟩ p c := by
    rw [← hnext]
    exact asIf_subscribeMember (hold hw) hself c (draftsOf rest)
  have hwatchers := g₁.enterListener_watchers s p (.member b.watcher b.subscriptions.length)
  have hbooks₁ : (g₁.asIf (b.draft :: draftsOf rest)).watchers[b.watcher]? =
      some (.object plan b.site (some ⟨b.subject, b.subscriptions, b.children⟩)) := by
    rw [getElem?_asIf, hw] at hbooks
    rw [getElem?_asIf, hold hw]
    exact hbooks
  have htrees' : (g₁.enterListener s p (.member b.watcher b.subscriptions.length)).trees = g.trees :=
    (g₁.enterListener_trees ..).trans htrees
  refine hu.next hcalm ?_ ?_ ?_ ?_ (fun v hv => ?_) fun v r hr => Or.inl ?_
  · rw [hdrafts, hasIf]
    refine Carries.of_faded (fun hx => Or.inl ?_) (fun hx => ?_) hu.drafted_behind ?_ ?_ fun hk => ?_
    · rw [hwatchers]
      exact hold hx
    · rw [hwatchers] at hx
      exact hnew hx
    · exact (g₁.enterListener_outline ..).trans houtline
    · rw [htrees']
      exact .refl (SameBy.refl _) _
    · refine (ids_subscribeMember hbooks₁ p c hk).imp (fun hk => ?_) fun hk => ?_
      · rw [hids] at hk
        exact hk
      · exact hnext ▸ hk
  · have hroots : (g₁.enterListener s p (.member b.watcher b.subscriptions.length)).roots = g.roots := by
      unfold roots
      rw [htrees']
    rw [hdrafts, hasIf, topsOf, List.flatMap_append, htops, List.nil_append, hroots]
    refine hgrown.subscribeMember hbooks₁ hentry (hpost ▸ hposted) fun d hd => ?_
    obtain rfl := hfresh d hd
    refine ⟨hlt, hu.size_not_top, fun v hv => ?_, ?_⟩
    · rw [hlisted] at hv
      exact hu.size_not_listed v hv
    · rw [hids, idsOf, Array.getElem?_eq_none (size_asIf g _).le]
      rfl
  · intro u hmem
    rcases List.mem_append.mp hmem with hmem | hmem
    · exact (hfront u hmem).2.2 _
    · obtain rfl := List.mem_singleton.mp hmem
      refine ⟨plan, ?_, ?_⟩
      · rw [hwatchers]
        exact hold hw
      · simp only [Binding.join, List.length_append, List.length_singleton, Plan.drop_succ, hrest]
  · rw [htops]
    exact List.nodup_nil
  · rw [htops] at hv
    cases hv
  · rw [← hr]
    exact (treeRoot_congr htrees' v).symm

/-- **A subscription** has been made for a watcher that is being bound. -/
theorem Underway.bindChild (hhere : g.home s p = s) :
    ((g.enterListener s p l).bindChild b g.nextSubscription).1.Underway
      (((g.enterListener s p l).bindChild b g.nextSubscription).2 ++ rest) := by
  obtain ⟨plan, batch, -, -, hplace, -, -, -⟩ := hu.next_place hcalm
  have hgrown : (g.asIf (b.draft :: draftsOf rest)).Grown (g.roots ++ rest.flatMap Task.tops) := hu.grown
  rcases bindChild_cases (g.enterListener s p l) hplace g.nextSubscription with
    ⟨hnone, hbind⟩ | ⟨x, hsome, hx, hbind⟩
  · rw [hbind]
    exact hu.entered hcalm hhere [] (c := none) (fun hx => hx) Or.inl rfl rfl rfl hgrown (fun _ => rfl)
      (fun _ => rfl) hnone nofun (by simp)
  · have hasIf : (g.addWatcher x).asIf (b.draft :: draftsOf rest) = (g.asIf (b.draft :: draftsOf rest)).addWatcher x :=
      asIf_addWatcher (fun d hd => hu.drafted.lt hd) x
    have hdormant := (holds_nothing hx).2.2
    rw [hbind, ← addWatcher_enterListener, enterListener_watchers]
    refine hu.entered hcalm hhere [.bind g.watchers.size _] (c := some g.watchers.size) addWatcher_old
      (addWatcher_new hx) rfl rfl rfl ?_ (fun v => ?_) (fun v => ?_) ⟨x, ?_, ?_⟩ (fun d hd => (Option.some.inj hd).symm)
      fun u hmem => ?_
    · rw [hasIf]
      exact hgrown.addWatcher hx
    · rw [hasIf, idsOf_addWatcher hx]
    · rw [hasIf, listed_addWatcher hx]
    · rw [hasIf, getElem?_addWatcher, if_pos (size_asIf g _).symm]
    · rw [hsome, hdormant]
    · obtain rfl := List.mem_singleton.mp hmem
      refine ⟨rfl, rfl, fun _ => ⟨?_, ?_⟩⟩
      · rw [enterListener_watchers]
        simp [addWatcher]
      · have hvalue := hgrown.sane.hasValue_memberValue b.subject p
        rw [asIf, hasValue_dressed, memberValue_dressed] at hvalue
        rw [memberValue_congr (g.enterListener_outline s p l)]
        exact (hasValue_congr ((g.addWatcher x).enterListener_outline s p l) _).trans hvalue

end

/-! ### The next member -/

section

variable {e : Enrolment κ} (hu : g.Underway (.enrol e :: rest))
  (hcalm : Scene.Undisturbed { world := g, agenda := .enrol e :: rest })

include hu hcalm

omit hcalm in
/-- The tasks that watch one member after another rely on what exists. -/
theorem Underway.fits_member {o : ObjectId} {pending : List ObjectId} (hpending : e.pending = o :: pending)
    (x : Watcher κ) : (∀ h, Task.Fits (g.addWatcher x) h (.bind g.watchers.size (.object o))) ∧
      ∀ q ∈ pending, (g.addWatcher x).hasObject q = true := by
  obtain ⟨hexist, -⟩ := hu.fits _ List.mem_cons_self
  have hexist' : ∀ q ∈ e.pending, (g.addWatcher x).hasObject q = true := fun q hq =>
    (hasValue_congr (g.addWatcher_outline x) (.object q)).trans (hexist q hq)
  exact ⟨fun _ => ⟨(Array.getElem?_eq_some_iff.mp (getElem?_addWatcher_size g x)).1,
    hexist' o (hpending ▸ List.mem_cons_self)⟩, fun q hq => hexist' q (hpending ▸ List.mem_cons_of_mem _ hq)⟩

/-- The books of a watcher that is watching its members, and what they are with the next one. -/
theorem Underway.next_member {c : CollectionId × SubscriptionId} (hbinds : e.binds = some c) (o : ObjectId)
    (pending : List ObjectId) : ∃ membership b,
      g.watchers[e.watcher]? = some (.collection e.item membership e.site none) ∧ b.items = e.done ∧
      (Task.enrol e).draft? = some (.collection e.watcher b) ∧
      draftsOf ([.bind g.watchers.size (.object o), .enrol (e.join o g.watchers.size pending)] ++ rest) =
        .collection e.watcher { b with items := b.items ++ [(o, g.watchers.size)] } :: draftsOf rest ∧
      (g.asIf (.collection e.watcher b :: draftsOf rest)).watchers[e.watcher]? =
        some (.collection e.item membership e.site (some b)) ∧
      (g.addWatcher (.object e.item e.site none)).asIf
          (.collection e.watcher { b with items := b.items ++ [(o, g.watchers.size)] } :: draftsOf rest) =
        ((g.asIf (.collection e.watcher b :: draftsOf rest)).addWatcher (.object e.item e.site none)).bindCollection
          e.watcher { b with items := b.items ++ [(o, g.watchers.size)] } := by
  obtain ⟨-, hfits⟩ := hu.fits _ List.mem_cons_self
  rw [hbinds] at hfits
  obtain ⟨membership, hw⟩ := hfits
  have hdraft := Task.draft?_binding hbinds
  have hbooks := getElem?_asIf_of_mem (g := g) hcalm.drafts_nodup (mem_draftsOf.mpr ⟨_, List.mem_cons_self, hdraft⟩)
  simp only [draftsOf_cons_some hdraft] at hbooks
  refine ⟨membership, ⟨c.1, c.2, e.done⟩, hw, rfl, hdraft, ?_, hbooks.trans (congrArg (Option.map _) hw),
    asIf_enlist hw _ (fun d hd => hu.drafted.lt (draftsOf_cons_some hdraft ▸ hd)) _ _⟩
  refine (draftsOf_cons_none rfl).trans (draftsOf_cons_some ?_)
  simp [Task.draft?, Enrolment.draft?, Enrolment.join, hbinds]

/-- A watcher that is being bound **watches the next member**. -/
theorem Underway.enlist {c : CollectionId × SubscriptionId} (hbinds : e.binds = some c) {o : ObjectId}
    {pending : List ObjectId} (hpending : e.pending = o :: pending) :
    (g.addWatcher (.object e.item e.site none)).Underway
      ([.bind g.watchers.size (.object o), .enrol (e.join o g.watchers.size pending)] ++ rest) := by
  obtain ⟨membership, b, hw, -, hdraft, hdrafts', hbooks, hasIf⟩ := hu.next_member hcalm hbinds o pending
  set x : Watcher κ := .object e.item e.site none with hx
  have htops : (Task.enrol e).tops = [] := by simp [Task.tops, hbinds]
  have htops' : [Task.bind g.watchers.size (.object o), .enrol (e.join o g.watchers.size pending)].flatMap Task.tops =
      [] := by simp [Task.tops, Enrolment.join, hbinds]
  have hgrown := hu.grown
  have hnotTop := hu.size_not_top
  have hnotListed := hu.size_not_listed
  simp only [draftsOf_cons_some hdraft] at hgrown hnotListed
  set h := g.asIf (.collection e.watcher b :: draftsOf rest) with hh
  have hbooks₁ : (h.addWatcher x).watchers[e.watcher]? = some (.collection e.item membership e.site (some b)) :=
    addWatcher_old hbooks
  have hgrown₁ : (h.addWatcher x).Grown (g.topsOf (.enrol e :: rest)) := hgrown.addWatcher rfl
  have hmade : (h.addWatcher x).watchers[g.watchers.size]? = some x := by
    rw [getElem?_addWatcher, if_pos (size_asIf g _).symm]
  obtain ⟨hbind, hexist⟩ := hu.fits_member hpending x
  refine hu.next hcalm ?_ ?_ (fun u hmem => ?_) ?_ (fun v hv => ?_) fun v r hr => Or.inl hr
  · rw [hdrafts', draftsOf_cons_some hdraft, hasIf]
    refine Carries.of_faded (fun hz => Or.inl (addWatcher_old hz)) (addWatcher_new rfl) hu.drafted_behind rfl
      (.refl (SameBy.refl _) _) fun {v k} hk => Or.inl ?_
    rw [idsOf, getElem?_bindCollection hbooks₁] at hk
    split at hk
    · rename_i hv
      rw [hv, idsOf_of_get hbooks]
      exact hk
    · rwa [← idsOf_addWatcher (x := x) rfl]
  · rw [hdrafts', hasIf, topsOf, List.flatMap_append, htops', List.nil_append]
    have htopsOf : g.topsOf (.enrol e :: rest) = g.roots ++ rest.flatMap Task.tops := by
      rw [topsOf, List.flatMap_cons, htops, List.nil_append]
    rw [htopsOf] at hgrown₁ hnotTop
    have hnodup := hgrown₁.nodup e.watcher
    rw [listed_of_get hbooks₁] at hnodup
    refine hgrown₁.rebookItems hbooks₁ ?_ (fun d hd => ?_) (fun d hd => Or.inl ?_) (fun v hv => Or.inl hv)
      fun v hv => Or.inl hv
    · rw [List.map_append]
      refine List.nodup_append.mpr ⟨hnodup, List.nodup_singleton _, fun v hv y hy heq => ?_⟩
      have hsize : v = g.watchers.size := heq.trans (List.mem_singleton.mp hy)
      refine hnotListed e.watcher ?_
      rw [listed_of_get hbooks, ← hsize]
      exact hv
    · rcases List.mem_append.mp hd with hd | hd
      · exact Or.inl hd
      · obtain rfl := List.mem_singleton.mp hd
        refine Or.inr ⟨(Array.getElem?_eq_some_iff.mp hw).1, hnotTop, fun v hv => ?_, fun k hk => ?_, x, hmade, rfl⟩
        · rw [listed_addWatcher rfl] at hv
          exact hnotListed v hv
        · rw [idsOf_of_get hmade] at hk
          cases hk
    · rw [List.map_append]
      exact List.mem_append_left _ (List.mem_map_of_mem hd)
  · rcases List.mem_cons.mp hmem with rfl | hmem
    · exact hbind _
    · obtain rfl := List.mem_singleton.mp hmem
      refine ⟨hexist, ?_⟩
      simp only [Enrolment.join, hbinds]
      exact ⟨membership, addWatcher_old hw⟩
  · rw [htops']
    exact List.nodup_nil
  · rw [htops'] at hv
    cases hv

/-- **The next member** that is to join is watched. -/
theorem Underway.enlist_joining (hbinds : e.binds = none) {o : ObjectId} {pending : List ObjectId}
    (hpending : e.pending = o :: pending) : (g.addWatcher (.object e.item e.site none)).Underway
      ([.bind g.watchers.size (.object o), .enrol (e.join o g.watchers.size pending)] ++ rest) := by
  obtain ⟨-, hfits⟩ := hu.fits _ List.mem_cons_self
  rw [hbinds] at hfits
  obtain ⟨⟨membership, bound, hw, hyoung⟩, hdone⟩ := hfits
  set x : Watcher κ := .object e.item e.site none with hx
  have htops : (Task.enrol e).tops = e.done.map (·.2) := by simp [Task.tops, hbinds]
  have htops' : [Task.bind g.watchers.size (.object o), .enrol (e.join o g.watchers.size pending)].flatMap Task.tops =
      e.done.map (·.2) ++ [g.watchers.size] := by simp [Task.tops, Enrolment.join, hbinds]
  have hdrafts' := draftsOf_join hbinds o g.watchers.size pending rest
  have hasIf : (g.addWatcher x).asIf (draftsOf (.enrol e :: rest)) =
      (g.asIf (draftsOf (.enrol e :: rest))).addWatcher x :=
    asIf_addWatcher (fun d hd => hu.drafted.lt hd) x
  have hidsNew : (g.asIf (draftsOf (.enrol e :: rest))).idsOf g.watchers.size = [] := by
    rw [idsOf, Array.getElem?_eq_none (size_asIf g _).le]
    rfl
  obtain ⟨hbind, hexist⟩ := hu.fits_member hpending x
  refine hu.next hcalm ?_ ?_ (fun u hmem => ?_) ?_ (fun v hv => ?_) fun v r hr => Or.inl hr
  · rw [hdrafts', hasIf]
    refine Carries.of_faded (fun hz => Or.inl (addWatcher_old hz)) (addWatcher_new rfl) hu.drafted_behind rfl
      (.refl (SameBy.refl _) _) fun hk => Or.inl ?_
    rwa [idsOf_addWatcher rfl] at hk
  · rw [hdrafts', hasIf]
    have hmem : ∀ v, v ∈ (g.addWatcher x).topsOf ([.bind g.watchers.size (.object o),
        .enrol (e.join o g.watchers.size pending)] ++ rest) ↔ v = g.watchers.size ∨
          v ∈ g.topsOf (.enrol e :: rest) := by
      intro v
      rw [topsOf, topsOf, List.flatMap_append, htops', List.flatMap_cons, htops]
      simp only [List.mem_append, List.mem_singleton]
      exact ⟨by tauto, by tauto⟩
    refine (hu.grown.addWatcher rfl).retop (fun v hv _ => (hmem v).mpr (Or.inr hv)) fun v hv u hvu => ?_
    rw [listed_addWatcher rfl] at hvu
    rcases (hmem v).mp hv with rfl | hv
    · exact hu.size_not_listed u hvu
    · exact hu.grown.topmost hv hvu
  · rcases List.mem_cons.mp hmem with rfl | hmem
    · exact hbind _
    · obtain rfl := List.mem_singleton.mp hmem
      rw [hdrafts', hasIf]
      refine ⟨hexist, ?_⟩
      simp only [Enrolment.join, hbinds]
      refine ⟨⟨membership, bound, addWatcher_old hw, fun b hb d hd k hk => ?_⟩, fun d hd => ?_⟩
      · rw [idsOf_addWatcher rfl] at hk
        rcases List.mem_append.mp hd with hd | hd
        · exact hyoung b hb d hd k hk
        · rw [List.mem_singleton.mp hd, hidsNew] at hk
          cases hk
      · rcases List.mem_append.mp hd with hd | hd
        · obtain ⟨hlt, z, hz, hzd⟩ := hdone d hd
          exact ⟨hlt, z, addWatcher_old hz, hzd⟩
        · obtain rfl := List.mem_singleton.mp hd
          exact ⟨(Array.getElem?_eq_some_iff.mp hw).1, x, getElem?_addWatcher_size g x, rfl⟩
  · rw [htops']
    have hnodup := (List.nodup_append.mp hu.distinct).1
    rw [htops] at hnodup
    refine List.nodup_append.mpr ⟨hnodup, List.nodup_singleton _, fun v hv y hy heq => ?_⟩
    have hlt := hu.tops_lt (List.mem_append_left _ (htops ▸ hv))
    exact lt_irrefl _ (hlt.trans_eq (heq.trans (List.mem_singleton.mp hy)).symm)
  · rw [htops'] at hv
    rcases List.mem_append.mp hv with hv | hv
    · exact Or.inl (htops ▸ hv)
    · exact Or.inr (List.mem_singleton.mp hv).ge

/-! ### Members join -/

/-- **Members that have been watched join** the others. -/
theorem Underway.gather (hbinds : e.binds = none) {item membership site b}
    (hget : g.watchers[e.watcher]? = some (.collection item membership site (some b))) :
    (g.bindCollection e.watcher { b with items := b.items ++ e.done }).Underway ([.fire site membership] ++ rest) := by
  obtain ⟨-, hfits⟩ := hu.fits _ List.mem_cons_self
  rw [hbinds] at hfits
  obtain ⟨⟨membership', bound, hw, hyoung⟩, hdone⟩ := hfits
  rw [hget] at hw
  obtain ⟨rfl, rfl, rfl, rfl⟩ : item = e.item ∧ membership = membership' ∧ site = e.site ∧ some b = bound := by
    simpa using hw
  have hne := hcalm.joins List.mem_cons_self hbinds
  have hdraft := Task.draft?_joining hbinds
  have htops : (Task.enrol e).tops = e.done.map (·.2) := by simp [Task.tops, hbinds]
  have hdrafts' := draftsOf_gather hbinds e.site membership rest
  have hgrown := hu.grown
  have hbooks := (getElem?_asIf_of_not_mem (g := g) hne).trans hget
  have hdistinct := hu.distinct
  have hunplanted := hu.unplanted
  simp only [List.flatMap_cons, htops] at hdistinct hunplanted
  obtain ⟨hnodup, -, hapart⟩ := List.nodup_append.mp hdistinct
  have hmember : ∀ d ∈ e.done, d.2 ∈ g.topsOf (.enrol e :: rest) ∧ d.2 ∉ g.roots ++ rest.flatMap Task.tops := by
    intro d hd
    have hmap : d.2 ∈ e.done.map (·.2) := List.mem_map_of_mem hd
    refine ⟨?_, fun hmem => ?_⟩
    · rw [topsOf, List.flatMap_cons, htops]
      exact List.mem_append_right _ (List.mem_append_left _ hmap)
    · rcases List.mem_append.mp hmem with hmem | hmem
      · exact hunplanted d.2 (List.mem_append_left _ hmap) hmem
      · exact hapart d.2 hmap d.2 hmem rfl
  refine hu.next hcalm ?_ ?_ (fun u hmem => ?_) List.nodup_nil (by simp [Task.tops]) fun v r hr => Or.inl hr
  · rw [hdrafts', asIf_bindCollection hget hne]
    refine Carries.of_items hget hbooks (fun d hd => hne d ?_) _
    rw [draftsOf_cons_none hdraft]
    exact hd
  · rw [hdrafts', asIf_bindCollection hget hne]
    show ((g.asIf (draftsOf (.enrol e :: rest))).bindCollection e.watcher { b with items := b.items ++ e.done }).Grown
      (g.roots ++ rest.flatMap Task.tops)
    refine hgrown.rebookItems hbooks ?_ (fun d hd => ?_) (fun d hd => Or.inl ?_) (fun v hv => ?_) fun v hv => Or.inl ?_
    · rw [List.map_append]
      have hlisted := hgrown.nodup e.watcher
      rw [listed_of_get hbooks] at hlisted
      refine List.nodup_append.mpr ⟨hlisted, hnodup, fun v hv y hy heq => ?_⟩
      obtain ⟨d, hd, rfl⟩ := List.mem_map.mp hy
      refine hgrown.topmost (hmember d hd).1 (v := e.watcher) ?_
      rw [listed_of_get hbooks, ← heq]
      exact hv
    · rcases List.mem_append.mp hd with hd | hd
      · exact Or.inl hd
      · obtain ⟨hlt, x, hx, hdormant⟩ := hdone d hd
        obtain ⟨y, hy, hyx⟩ := exists_asIf (draftsOf (.enrol e :: rest)) hx
        exact Or.inr ⟨hlt, (hmember d hd).2, fun v hv => hgrown.topmost (hmember d hd).1 hv, hyoung b rfl d hd, y, hy,
          hyx.trans hdormant⟩
    · rw [List.map_append]
      exact List.mem_append_left _ (List.mem_map_of_mem hd)
    · rw [topsOf, List.flatMap_cons, htops] at hv
      rw [List.map_append, List.mem_append, List.mem_append]
      simp only [List.mem_append] at hv
      tauto
    · rw [topsOf, List.flatMap_cons, htops]
      simp only [List.mem_append] at hv ⊢
      tauto
  · obtain rfl := List.mem_singleton.mp hmem
    trivial

end

end World

end LiveRules
