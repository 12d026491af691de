/-
# Departures are heeded

Where watchers are released, those that are still there follow what they followed. Whoever is
at the top of a tree that has been attached is about to be bound to the context, and a watcher
that is bound anew follows the value that it is bound to.

Key theorems: `World.Follows.shed`, `World.Underway.attends_dispose`, `World.Underway.attends_attach`,
`World.Underway.attends_bind`.
-/
import LiveRules.Proofs.Reentry.Following

namespace LiveRules

variable {κ : Type}

namespace World

variable {h h' : World κ} {t : Task κ} {rest new : List (Task κ)} {missed : SubscriptionId → Prop}

/-! ### Watchers are released -/

/-- Who is to follow something hangs on something, or is a top. -/
theorem Follows.hangs {agenda : List (Task κ)} {c : WatcherId} {e : Sight} (hf : h.Follows agenda c e) :
    c ∈ h.topsOf agenda ∨ ∃ v, c ∈ h.listed v := by
  cases hf with
  | @entered w _ _ _ hw hx =>
    refine Or.inr ⟨w, ?_⟩
    rw [listed_of_get hw]
    exact hx.mem_listed
  | joining he hbinds hd => exact Or.inl (mem_topsOf_task he (mem_tops_of_done hbinds hd))
  | top hc hx => exact Or.inl (mem_topsOf_of_top hc)

/-- Who is bound when watchers have been released was bound before. -/
theorem Fades.bound (hfades : h.Fades h') {w : Nat} {x : Watcher κ} (hw : h'.watchers[w]? = some x)
    (hx : x.target.isSome = true) : h.watchers[w]? = some x := by
  refine (hfades.new hw).resolve_right fun hnone => ?_
  rw [hnone] at hx
  cases hx

theorem Fades.listed (hfades : h.Fades h') {v c : WatcherId} (hc : c ∈ h'.listed v) : c ∈ h.listed v := by
  obtain ⟨x, hx, hmem⟩ := exists_of_mem_listed hc
  rw [listed_of_get (hfades.bound hx (Watcher.target_of_mem_listed hmem))]
  exact hmem

/-- **Where watchers are released**, who is still to follow something was to follow it. -/
theorem Follows.of_fades {c : WatcherId} {e : Sight} (hf : h'.Follows rest c e) (hfades : h.Fades h')
    (hroots : ∀ v r, h'.treeRoot v = some r → h.treeRoot v = some r) : h.Follows rest c e := by
  have hsite (x : Watcher κ) (hx : h'.watchers[c]? = some x) : ∃ y, h.watchers[c]? = some y ∧ y.site = x.site := by
    rcases hfades c with hsame | hsame <;> rw [hsame] at hx
    · exact ⟨x, hx, rfl⟩
    · obtain ⟨y, hy, rfl⟩ := Option.map_eq_some_iff.mp hx
      exact ⟨y, hy, y.site_dormant.symm⟩
  rcases hf.behind hroots fun _ => hsite with ⟨w, x, hw, hx⟩ | ⟨hf, -⟩
  · exact .entered (hfades.bound hw hx.isSome_target) hx
  · exact hf

/-- It is as it was, unless it has been released itself. -/
theorem Follows.shed {ws tops : List WatcherId} {c : WatcherId} {e : Sight} (hf : h'.Follows rest c e)
    (hg : h.Grown tops)
    (hsheds : Sheds ws h h') (hsub : ∀ r ∈ h'.topsOf rest, r ∈ tops) (hcw : c ∉ ws) : h'.aim c = h.aim c := by
  refine aim_eq (hsheds.kept hcw fun v hv => ?_)
  rcases hf.hangs with htop | ⟨u, hu⟩
  · exact absurd hv (hg.topmost (hsub c htop))
  · obtain rfl := hg.single (hsheds.fades.listed hu) hv
    exact hu

/-- The same where those that are released were tops, and are none any more. -/
theorem Follows.shed_tops {ws tops : List WatcherId} {c : WatcherId} {e : Sight} (hf : h'.Follows rest c e)
    (hroots : ∀ v r, h'.treeRoot v = some r → h.treeRoot v = some r) (hg : h.Grown tops) (hsheds : Sheds ws h h')
    (hsub : ∀ r ∈ h'.topsOf rest, r ∈ tops ∧ r ∉ ws) (hws : ∀ w ∈ ws, w ∈ tops) :
    h.Follows rest c e ∧ h'.aim c = h.aim c := by
  refine ⟨hf.of_fades hsheds.fades hroots, hf.shed hg hsheds (fun r hr => (hsub r hr).1) fun hmem => ?_⟩
  rcases hf.hangs with htop | ⟨v, hv⟩
  · exact (hsub c htop).2 hmem
  · exact hg.topmost (hws c hmem) (hsheds.fades.listed hv)

section

variable {g : World κ}

/-- **Members that do not join** after all are released. -/
theorem Underway.attends_disband {e : Enrolment κ} (hu : g.Underway (.enrol e :: rest))
    (hcalm : Scene.Undisturbed { world := g, agenda := .enrol e :: rest }) (hrest : ∀ w v, .bind w v ∉ rest)
    (hbinds : e.binds = none)
    (hnone : ∀ item membership site b, g.watchers[e.watcher]? ≠ some (.collection item membership site (some b)))
    (hcalm' : Scene.Undisturbed { world := (e.done.map (·.2)).foldl World.unbind g, agenda := rest }) :
    g.AttendsTo (.enrol e) rest ((e.done.map (·.2)).foldl World.unbind g, []) missed := by
  show Attends _ _ rest (((e.done.map (·.2)).foldl World.unbind g).asIf (draftsOf rest)) [] missed
  have hdrafts : draftsOf (.enrol e :: rest) = draftsOf rest :=
    draftsOf_cons_none (Task.draft?_joining hbinds)
  have hne : ∀ d ∈ draftsOf (.enrol e :: rest), d.watcher ≠ e.watcher := hcalm.joins List.mem_cons_self hbinds
  have htops : (Task.enrol e).tops = e.done.map (·.2) := by simp [Task.tops, hbinds]
  obtain ⟨hsheds, -, -⟩ := hu.disbanded hbinds hcalm'
  have htrees := g.foldl_unbind_trees (e.done.map (·.2))
  have hroots : ((e.done.map (·.2)).foldl World.unbind g).roots = g.roots := by
    unfold roots
    rw [htrees]
  have hdistinct := hu.distinct
  have hunplanted := hu.unplanted
  simp only [List.flatMap_cons, htops] at hdistinct hunplanted
  have hgrown := hu.grown
  rw [hdrafts] at hgrown hne ⊢
  have hsub : ∀ r ∈ (((e.done.map (·.2)).foldl World.unbind g).asIf (draftsOf rest)).topsOf rest,
      r ∈ g.topsOf (.enrol e :: rest) ∧ r ∉ e.done.map (·.2) := by
    intro r hr
    have hr : r ∈ ((e.done.map (·.2)).foldl World.unbind g).roots ++ rest.flatMap Task.tops := hr
    rw [hroots] at hr
    rcases List.mem_append.mp hr with hr | hr
    · exact ⟨List.mem_append_left _ hr, fun hmem => hunplanted r (List.mem_append_left _ hmem) hr⟩
    · obtain ⟨u, hu, hru⟩ := List.mem_flatMap.mp hr
      exact ⟨mem_topsOf_task (List.mem_cons_of_mem _ hu) hru,
        fun hmem => (List.nodup_append.mp hdistinct).2.2 r hmem r hr rfl⟩
  refine attends_of_same hrest (Task.enrol_ne_bind e) rfl rfl (by simp) (fun hf => Or.inr ?_)
    fun {w item membership site b} hw _ => ?_
  · obtain ⟨hold, haim⟩ := Follows.shed_tops (h := g.asIf (draftsOf rest)) hf
      (fun v r hr => (treeRoot_congr htrees v).symm.trans hr) hgrown hsheds hsub
      fun w hw => mem_topsOf_task (u := .enrol e) List.mem_cons_self (htops.symm ▸ hw)
    exact ⟨hold.cons, haim, by simp⟩
  · have hold := hsheds.fades.bound hw rfl
    refine ⟨hold, ?_⟩
    rw [recruits_enrol_of_ne e fun heq => ?_]
    · exact .refl _
    · rw [heq, getElem?_asIf_of_not_mem hne] at hold
      exact hnone _ _ _ _ hold

/-! ### Trees -/

/-- Who is to follow something when a tree has been disposed of was to follow it before. -/
theorem Underway.follows_disposed {v : TreeId} (hu : g.Underway (t :: rest)) (hdraft : t.draft? = none)
    (htops : t.tops = [])
    (hkept : ∀ d ∈ draftsOf rest, d.watcher ∈ (g.dispose v).roots ++ rest.flatMap Task.tops ∨
      ∃ u, d.watcher ∈ ((g.dispose v).asIf (draftsOf rest)).listed u) {c : WatcherId} {e : Sight}
    (hf : ((g.dispose v).asIf (draftsOf rest)).Follows rest c e) :
    (g.asIf (draftsOf rest)).Follows rest c e ∧
      ((g.dispose v).asIf (draftsOf rest)).aim c = (g.asIf (draftsOf rest)).aim c := by
  obtain ⟨hsheds, -, -, -⟩ := hu.disposed hdraft htops hkept
  have hgrown := hu.grown
  rw [draftsOf_cons_none hdraft, topsOf, List.flatMap_cons, htops, List.nil_append] at hgrown
  have hroots (u : TreeId) (r : WatcherId) (hr : (g.dispose v).treeRoot u = some r) :
      g.treeRoot u = some r ∧ v ≠ u := by
    rw [treeRoot_dispose] at hr
    split at hr
    · cases hr
    · rename_i hne
      exact ⟨hr, hne⟩
  refine hf.shed_tops (fun u r hr => (hroots u r hr).1) hgrown hsheds (fun r hr => ?_) fun w hw => ?_
  · have hr : r ∈ (g.dispose v).roots ++ rest.flatMap Task.tops := hr
    rcases List.mem_append.mp hr with hr | hr
    · obtain ⟨u, hu'⟩ := mem_roots_iff.mp hr
      obtain ⟨hold, hvu⟩ := hroots u r hu'
      refine ⟨List.mem_append_left _ (mem_roots_of_treeRoot hold), fun hmem => hvu ?_⟩
      -- a watcher is at the top of one tree only
      obtain ⟨x, hx, hsite⟩ := hu.sited (Option.mem_toList.mp hmem)
      obtain ⟨y, hy, hsite'⟩ := hu.sited hold
      rw [hx] at hy
      cases hy
      exact hsite.symm.trans hsite'
    · exact ⟨List.mem_append_right _ hr, fun hmem => hu.unplanted r (List.mem_append_right t.tops hr)
        (mem_roots_of_treeRoot (Option.mem_toList.mp hmem))⟩
  · exact List.mem_append_left _ (mem_roots_of_treeRoot (Option.mem_toList.mp hw))

section

variable {v : TreeId} (hu : g.Underway (t :: rest)) (hdraft : t.draft? = none) (ht : t.minds = false)
  (hnotice : t.isNotice = false) (hchange : t.isChange = false) (hrest : ∀ w v, .bind w v ∉ rest)

include hu hdraft ht hnotice hchange hrest

/-- **A tree is disposed of.** -/
theorem Underway.attends_dispose (hcalm' : Scene.Undisturbed { world := g.dispose v, agenda := rest }) :
    g.AttendsTo t rest (g.dispose v, []) missed := by
  show Attends _ t rest ((g.dispose v).asIf (draftsOf rest)) [] missed
  have htops := Task.tops_of_not_minds ht
  obtain ⟨hsheds, -, -, -⟩ := hu.disposed hdraft htops hcalm'.kept
  rw [draftsOf_cons_none hdraft]
  refine attends_of_same hrest (Task.ne_bind_of_not_minds ht) hnotice hchange (by simp) (fun hf => Or.inr ?_)
    fun {w _ _ _ b} hw _ => ?_
  · obtain ⟨hold, haim⟩ := hu.follows_disposed hdraft htops hcalm'.kept hf
    exact ⟨hold.cons, haim, by simp⟩
  · refine ⟨hsheds.fades.bound hw rfl, ?_⟩
    rw [Task.recruits_of_not_minds ht]
    exact .refl _

/-- **A tree is attached**: its new top is about to be bound to the context. -/
theorem Underway.attends_attach {context : ObjectId} {x : Watcher κ} (hx : x.target = none)
    (hsite : x.site.context = context)
    (hcalm' : Scene.Undisturbed { world := (g.dispose v).addWatcher x
                                  agenda := [.bind (g.dispose v).watchers.size (.object context),
                                    .plant v (g.dispose v).watchers.size, .release (.tree v)] ++ rest }) :
    g.AttendsTo t rest ((g.dispose v).addWatcher x, [.bind (g.dispose v).watchers.size (.object context),
      .plant v (g.dispose v).watchers.size, .release (.tree v)]) missed := by
  have htops := Task.tops_of_not_minds ht
  obtain ⟨hsize, hlt, hkept⟩ := hu.attached_kept hx hcalm'
  obtain ⟨hsheds, hgrown, -, -⟩ := hu.disposed hdraft htops hkept
  have hasIf := asIf_addWatcher hlt x
  have hsizeIf := size_asIf (g.dispose v) (draftsOf rest)
  have htopsOf : ∀ r ∈ ((g.dispose v).asIf (draftsOf rest)).topsOf rest, r < (g.dispose v).watchers.size := by
    intro r hr
    have hr : r ∈ (g.dispose v).roots ++ rest.flatMap Task.tops := hr
    rw [hsize]
    rcases List.mem_append.mp hr with hr | hr
    · obtain ⟨u, hu'⟩ := mem_roots_iff.mp hr
      rw [treeRoot_dispose] at hu'
      split at hu'
      · cases hu'
      · exact hu.root_lt (mem_roots_of_treeRoot hu')
    · exact hu.tops_lt (List.mem_append_right t.tops hr)
  show Attends _ t rest (((g.dispose v).addWatcher x).asIf (draftsOf rest)) _ _
  rw [draftsOf_cons_none hdraft, hasIf]
  refine attends_of_same hrest (Task.ne_bind_of_not_minds ht) hnotice hchange (by simp) (fun {c e} hf => ?_)
    fun {w _ _ _ b} hw _ => ?_
  · by_cases hc : c = (g.dispose v).watchers.size
    · have hvalue : e.value (((g.dispose v).asIf (draftsOf rest)).addWatcher x) = .object context := by
        have hnot : ¬ c < ((g.dispose v).asIf (draftsOf rest)).watchers.size := hsizeIf ▸ hc ▸ lt_irrefl _
        cases hf with
        | entered hw he =>
          exact absurd (hgrown.lt_of_enters (addWatcher_bound hx hw he.isSome_target) he) hnot
        | joining he hbinds hd =>
          have he := List.mem_append.mp he
          simp only [List.mem_cons, List.not_mem_nil, or_false, reduceCtorEq, false_or] at he
          exact absurd ((htopsOf _ (mem_topsOf_task he (mem_tops_of_done hbinds hd))).trans_eq hsizeIf.symm) hnot
        | top _ hz =>
          rw [getElem?_addWatcher, if_pos (hc.trans hsizeIf.symm)] at hz
          cases hz
          exact congrArg Value.object hsite
      rw [hvalue, hc]
      exact Or.inl (heeds_soon rfl hlt)
    · have hf := (hf.of_append (by simpa [Task.tops] using hc)).of_addWatcher hx (hsizeIf ▸ hc)
      obtain ⟨hold, haim⟩ := hu.follows_disposed hdraft htops hkept hf
      refine Or.inr ⟨hold.cons, (aim_addWatcher _ x (hsizeIf ▸ hc)).trans haim, fun value later heq => ?_⟩
      cases (List.cons.inj heq).1
      exact hc rfl
  · refine ⟨hsheds.fades.bound (addWatcher_bound hx hw rfl) rfl, ?_⟩
    rw [Task.recruits_of_not_minds ht]
    exact .refl _

end

/-- **A tree is planted** on its top. -/
theorem Underway.attends_plant {v : TreeId} {w : WatcherId} (hrest : ∀ w v, .bind w v ∉ rest) :
    g.AttendsTo (.plant v w) rest (g.modifyTree v fun x => { x with root := some w }, []) missed := by
  have hdrafts : draftsOf (.plant v w :: rest) = draftsOf rest := draftsOf_cons_none rfl
  show Attends _ _ rest ((g.modifyTree v fun x => { x with root := some w }).asIf (draftsOf rest)) [] missed
  rw [hdrafts]
  refine attends_of_same hrest (by simp) rfl rfl (by simp) (fun hf => Or.inr ⟨?_, rfl, by simp⟩)
    fun hw _ => ⟨hw, .refl _⟩
  cases hf with
  | entered hw hx => exact .entered hw hx
  | joining he hbinds hd => exact .joining (List.mem_cons_of_mem _ he) hbinds hd
  | top hc hx =>
    refine .top ?_ hx
    rcases hc with ⟨u, hr⟩ | ⟨u, hplant⟩
    · have hreroot := (g.treeRoot_reroot v u (some w)).symm.trans hr
      split at hreroot
      · obtain rfl := Option.some.inj hreroot
        exact Or.inr ⟨v, List.mem_cons_self⟩
      · exact Or.inl ⟨u, hreroot⟩
    · exact Or.inr ⟨u, List.mem_cons_of_mem _ hplant⟩

/-! ### A watcher is bound anew -/

section

variable {w : Nat} {v : Value} (hrest : ∀ u v, .bind u v ∉ rest)

include hrest

/-- What a step has to leave that binds a watcher: it follows the value now. -/
theorem attends_of_bound (hnew : ∀ c v, .bind c v ∉ new) (hsees : (∀ d ∈ draftsOf rest, d.watcher ≠ w) → h'.Sees w v)
    (hfollows : ∀ {c e}, h'.Follows (new ++ rest) c e → h.Follows rest c e ∧ (c ≠ w → h'.aim c = h.aim c))
    (hmembers : ∀ {y : Nat} {item membership site b'},
      h'.watchers[y]? = some (.collection item membership site (some b')) →
      (h.watchers[y]? = some (.collection item membership site (some b')) ∧ new.flatMap (Task.recruits y) = []) ∨
      h.nextSubscription ≤ b'.subscription ∧ (item.isNil = false → ∀ o, (b'.items.map (·.1)).count o +
        ((new ++ rest).flatMap (Task.recruits y)).count o = (h'.itemsOf b'.collection).count o)) :
    h.Attends (.bind w v) rest h' new missed := by
  have hstays {c : WatcherId} : ∀ v' later, new ++ rest ≠ .bind c v' :: later := by
    intro v' later heq
    have hmem : Task.bind c v' ∈ new ++ rest := heq ▸ List.mem_cons_self
    exact (List.mem_append.mp hmem).elim (hnew c v') (hrest c v')
  constructor
  case prompt => exact fun c v' hmem => hnew c v' (List.mem_of_mem_tail hmem)
  case heeds =>
    intro c e hf
    obtain ⟨hold, haim⟩ := hfollows hf
    refine Or.inr (Or.inr ⟨hold.cons, Sight.not_awaits rfl e, fun v' hheeds => ?_⟩)
    cases hheeds with
    | soon heq hfree =>
      cases heq
      exact .already (hsees hfree) hstays
    | already hv hnot =>
      have hcw : c ≠ w := by
        rintro rfl
        exact hnot v rest rfl
      exact .already (hv.of_aim (haim hcw)) hstays
  case members =>
    intro y item membership site b' hy hitem _
    rcases hmembers hy with ⟨hold, hnone⟩ | ⟨hyoung, hcount⟩
    · refine Or.inr (Or.inl ⟨b', hold, rfl, rfl, fun o => ?_⟩)
      rw [hnone, owed_singleton_of_not_change rfl]
      rfl
    · exact Or.inr (Or.inr ⟨hyoung, hcount hitem⟩)

end

/-- Who has nothing below yet has nobody follow anything. -/
theorem Follows.of_blank {z z' : Watcher κ} {w : Nat} {c : WatcherId} {e : Sight} (hf : h'.Follows rest c e)
    (hroots : ∀ v r, h'.treeRoot v = some r → h.treeRoot v = some r) (hw : h.watchers[w]? = some z)
    (hget : ∀ y : Nat, h'.watchers[y]? = if y = w then some z' else h.watchers[y]?) (hsite : z'.site = z.site)
    (hblank : z'.listed = []) : h.Follows rest c e := by
  have hsites (x : Watcher κ) (hx : h'.watchers[c]? = some x) : ∃ y, h.watchers[c]? = some y ∧ y.site = x.site := by
    rw [hget] at hx
    split at hx
    · rename_i hcw
      cases hx
      exact ⟨z, hcw ▸ hw, hsite.symm⟩
    · exact ⟨x, hx, rfl⟩
  rcases hf.behind hroots fun _ => hsites with ⟨y, x, hy, hx⟩ | ⟨hf, -⟩
  · rw [hget] at hy
    split at hy
    · cases hy
      have hmem := hx.mem_listed
      rw [hblank] at hmem
      cases hmem
    · exact .entered hy hx
  · exact hf

section

variable {w : Nat} {v : Value} (hu : g.Underway (.bind w v :: rest)) (hrest : ∀ u v, .bind u v ∉ rest)

include hu

/-- Who is to follow something when what hung below a watcher has been released was to follow
it before. -/
theorem Underway.follows_unbound (hnot : ∀ d ∈ draftsOf rest, d.watcher ≠ w)
    (hkept : ∀ d ∈ draftsOf rest, d.watcher ∈ (g.unbind w).topsOf rest ∨
      ∃ u, d.watcher ∈ ((g.unbind w).asIf (draftsOf rest)).listed u) {c : WatcherId} {e : Sight}
    (hf : ((g.unbind w).asIf (draftsOf rest)).Follows rest c e) : (g.asIf (draftsOf rest)).Follows rest c e ∧
      (c ≠ w → ((g.unbind w).asIf (draftsOf rest)).aim c = (g.asIf (draftsOf rest)).aim c) := by
  obtain ⟨hsheds, -, -, -⟩ := hu.unbound hnot hkept
  have hroots : (g.unbind w).roots = g.roots := by
    unfold roots
    rw [unbind_trees]
  have hgrown : (g.asIf (draftsOf rest)).Grown (g.topsOf rest) := hu.grown
  refine ⟨hf.of_fades hsheds.fades fun u r hr => (treeRoot_congr (g.unbind_trees w) u).symm.trans hr, fun hcw => ?_⟩
  refine hf.shed hgrown hsheds (fun r hr => ?_) (by simpa using hcw)
  have hr : r ∈ (g.unbind w).roots ++ rest.flatMap Task.tops := hr
  rwa [hroots] at hr

include hrest

/-- **A watcher is bound anew**, and follows the value that it is bound to. -/
theorem Underway.attends_bind
    (hcalm' : Scene.Undisturbed { world := (g.bind w v).1, agenda := (g.bind w v).2 ++ rest }) :
    g.AttendsTo (.bind w v) rest (g.bind w v) missed := by
  unfold AttendsTo
  have hlt := (hu.fits _ List.mem_cons_self).1
  have hroots (u : TreeId) (r : WatcherId) (hr : (g.unbind w).treeRoot u = some r) : g.treeRoot u = some r :=
    (treeRoot_congr (g.unbind_trees w) u).symm.trans hr
  rw [draftsOf_cons_none rfl]
  rcases bind_cases hlt v with ⟨⟨x, hx, hnone, hseen⟩, hbind⟩ | ⟨plan, site, s, hw, rfl, hbind⟩ |
    ⟨item, membership, site, c, hw, rfl, hbind⟩ <;> rw [hbind] at hcalm' ⊢
  · show Attends _ _ rest ((g.unbind w).asIf (draftsOf rest)) [] missed
    by_cases hdraft : ∃ d ∈ draftsOf rest, d.watcher = w
    · obtain ⟨d, hd, rfl⟩ := hdraft
      obtain ⟨y, hy, hnone, -⟩ := hu.drafted_behind d hd
      rw [unbind_dormant hy hnone]
      exact attends_of_bound hrest (by simp) (fun hnot => absurd rfl (hnot d hd)) (fun hf => ⟨hf, fun _ => rfl⟩)
        fun hy => Or.inl ⟨hy, rfl⟩
    · push Not at hdraft
      have hkept := hcalm'.kept
      refine attends_of_bound hrest (by simp) (fun _ => ⟨x, ?_, hnone.trans hseen.symm⟩)
        (fun hf => hu.follows_unbound hdraft hkept hf) fun hy => Or.inl ⟨?_, rfl⟩
      · exact (getElem?_asIf_of_not_mem hdraft).trans hx
      · exact (hu.unbound hdraft hkept).1.fades.bound hy rfl
  · obtain ⟨hnot, hkept, hw', hasIf⟩ := opened_object hw hcalm'
    have hkept := fun d hd => hkept d (List.mem_cons_of_mem _ hd)
    have hget := getElem?_bindObject hw' (opened s)
    rw [hasIf]
    refine attends_of_bound hrest (by simp) (fun _ => ⟨_, (hget w).trans (if_pos rfl), ?_⟩) (fun {d e} hf => ?_)
      fun {y _ _ _ _} hy => Or.inl ⟨?_, rfl⟩
    · cases s <;> rfl
    · have hf := (hf.of_append (by simp [Task.tops])).of_blank (h := (g.unbind w).asIf (draftsOf rest))
        (fun _ _ hr => hr) hw' hget rfl rfl
      obtain ⟨hold, haim⟩ := hu.follows_unbound hnot hkept hf
      refine ⟨hold, fun hdw => Eq.trans (aim_eq ?_) (haim hdw)⟩
      rw [hget, if_neg hdw]
    · rw [hget] at hy
      split at hy
      · cases hy
      · exact (hu.unbound hnot hkept).1.fades.bound hy rfl
  · set g₂ := (g.unbind w).enterChangeListener c (.membership w) with hg₂
    set e : Enrolment κ := { watcher := w, site, item, binds := some (c, (g.unbind w).nextSubscription)
                             pending := g₂.itemsOf c } with he
    obtain ⟨hnot, hkept, hw', hasIf⟩ := opened_collection (e := e) hw rfl rfl hcalm'
    have hkept := fun d hd => hkept d (List.mem_cons_of_mem _ hd)
    have hget :=
      getElem?_bindCollection (g := ((g.unbind w).asIf (draftsOf rest)).enterChangeListener c (.membership w))
      hw' { collection := c, subscription := (g.unbind w).nextSubscription, items := [] }
    rw [hasIf]
    refine attends_of_bound hrest (by simp) (fun _ => ⟨_, (hget w).trans (if_pos rfl), rfl⟩) (fun {d q} hf => ?_)
      fun {y item' membership' site' b'} hy => ?_
    · have hf := (hf.of_append (by simp [Task.tops, he])).of_blank (h := (g.unbind w).asIf (draftsOf rest))
        (fun _ _ hr => hr) hw' hget rfl rfl
      obtain ⟨hold, haim⟩ := hu.follows_unbound hnot hkept hf
      exact ⟨hold, fun hdw => Eq.trans (aim_eq ((hget d).trans (if_neg hdw))) (haim hdw)⟩
    · obtain ⟨hsheds, -, hnext, -⟩ := hu.unbound hnot hkept
      have hget := (hget y).symm.trans hy
      by_cases hyw : y = w
      · subst hyw
        rw [if_pos rfl] at hget
        cases hget
        refine Or.inr ⟨hnext.ge, fun _ o => ?_⟩
        -- nobody else watches members for it
        have halone : rest.flatMap (Task.recruits y) = [] := by
          refine List.flatMap_eq_nil_iff.mpr fun u hmem => ?_
          have hapart := List.rel_of_pairwise_cons hcalm'.once hmem
          cases u with
          | enrol e' =>
            refine if_neg fun heq => ?_
            cases (hapart y rfl (congrArg some heq)).1
          | _ => rfl
        have hitems : (((g.unbind y).asIf (draftsOf rest)).openCollection y c).itemsOf c = g₂.itemsOf c := by
          rw [itemsOf_congr (openCollection_outline ..), asIf, itemsOf_dressed,
            itemsOf_congr ((g.unbind y).enterChangeListener_outline c _)]
        rw [hitems, List.flatMap_append, halone]
        simp [Task.recruits, he]
      · rw [if_neg hyw] at hget
        refine Or.inl ⟨hsheds.fades.bound hget rfl, ?_⟩
        rw [List.flatMap_singleton, recruits_enrol_of_ne e hyw]

end

end

end World

end LiveRules
