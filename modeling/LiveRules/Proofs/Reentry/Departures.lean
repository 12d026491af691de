/-
# Watchers come and go while others are being bound

Trees are disposed of and attached, members leave a collection, and a watcher is about to
be bound anew: what hangs below is released first. Whoever is being bound afterwards was not
concerned, or would not belong to anything any more.

Key theorems: `World.Underway.disband`, `World.Underway.dispose`, `World.Underway.attach`,
`World.Underway.plant`, `World.Underway.bind`, `World.Underway.membershipChanged`.
-/
import LiveRules.Proofs.Machine.Trees
import LiveRules.Proofs.Reentry.Bystanders
import LiveRules.Proofs.Reentry.Entries
import LiveRules.Proofs.Reentry.Parting

namespace LiveRules

variable {κ : Type}

namespace World

variable {g : World κ} {t : Task κ} {rest new : List (Task κ)}

/-! ### Members that do not join after all -/

/-- Releasing members that were to join, as if drafts were entered. -/
theorem Underway.disbanded {e : Enrolment κ} (hu : g.Underway (.enrol e :: rest)) (hbinds : e.binds = none)
    (hcalm' : Scene.Undisturbed { world := (e.done.map (·.2)).foldl World.unbind g, agenda := rest }) :
    Sheds (e.done.map (·.2)) (g.asIf (draftsOf rest)) (((e.done.map (·.2)).foldl World.unbind g).asIf (draftsOf rest)) ∧
      (((e.done.map (·.2)).foldl World.unbind g).asIf (draftsOf rest)).Grown (g.topsOf rest) ∧
      ∀ {w k}, k ∈ (((e.done.map (·.2)).foldl World.unbind g).asIf (draftsOf rest)).idsOf w →
        k ∈ (g.asIf (draftsOf rest)).idsOf w := by
  have hdraft := Task.draft?_joining hbinds
  have htops : (Task.enrol e).tops = e.done.map (·.2) := by simp [Task.tops, hbinds]
  have hroots : ((e.done.map (·.2)).foldl World.unbind g).roots = g.roots := by
    unfold roots
    rw [g.foldl_unbind_trees]
  set ws := e.done.map (·.2) with hws
  have hdistinct := hu.distinct
  have hunplanted := hu.unplanted
  simp only [List.flatMap_cons, htops] at hdistinct hunplanted
  have hmem : ∀ w, w ∈ g.topsOf (.enrol e :: rest) ↔ w ∈ g.topsOf rest ∨ w ∈ ws := by
    intro w
    rw [topsOf, topsOf, List.flatMap_cons, htops]
    simp only [List.mem_append]
    tauto
  have hapart : ∀ w ∈ g.topsOf rest, w ∉ ws := by
    intro w hw hmem
    rcases List.mem_append.mp hw with hw | hw
    · exact hunplanted w (List.mem_append_left _ hmem) hw
    · exact (List.nodup_append.mp hdistinct).2.2 w hmem w hw rfl
  have hgrown := hu.grown
  rw [draftsOf_cons_none hdraft] at hgrown
  obtain ⟨hsheds, hparted, -, hids⟩ := hgrown.part hu.drafted_behind
    (fun w hw => ⟨hu.tops_lt (List.mem_append_left _ (htops ▸ hw)), Or.inl ((hmem w).mpr (Or.inr hw))⟩)
    (fun w hw => (hmem w).mpr (Or.inl hw)) (fun w hw => (hmem w).mp hw) fun d hd => by
      refine (hcalm'.kept d hd).imp_left fun hkept => ?_
      have hkept : d.watcher ∈ g.topsOf rest := by
        unfold topsOf at hkept ⊢
        exact hroots ▸ hkept
      exact ⟨hkept, hapart _ hkept⟩
  exact ⟨hsheds, hparted, hids⟩

/-- **Members that were to join** are released when nobody is there for them any more. -/
theorem Underway.disband {e : Enrolment κ} (hu : g.Underway (.enrol e :: rest))
    (hcalm : Scene.Undisturbed { world := g, agenda := .enrol e :: rest }) (hbinds : e.binds = none)
    (hcalm' : Scene.Undisturbed { world := (e.done.map (·.2)).foldl World.unbind g, agenda := rest }) :
    ((e.done.map (·.2)).foldl World.unbind g).Underway rest := by
  have hdraft := Task.draft?_joining hbinds
  have htrees : ((e.done.map (·.2)).foldl World.unbind g).trees = g.trees := g.foldl_unbind_trees _
  have hroots : ((e.done.map (·.2)).foldl World.unbind g).roots = g.roots := by
    unfold roots
    rw [htrees]
  obtain ⟨-, hgrown, hids⟩ := hu.disbanded hbinds hcalm'
  show World.Underway _ ([] ++ rest)
  refine hu.next hcalm ?_ ?_ (by simp) List.nodup_nil (by simp) fun v r hr => Or.inl ?_
  · have hfades := fades_foldl_unbind (e.done.map (·.2)) g
    rw [draftsOf_cons_none hdraft]
    exact Carries.of_faded hfades.old hfades.new hu.drafted_behind (foldl_unbind_watches _ g).1
      (htrees ▸ .refl (SameBy.refl _) _) fun hk => Or.inl (hids hk)
  · rw [List.nil_append, topsOf, hroots]
    exact hgrown
  · rw [← hr]
    exact (treeRoot_congr htrees v).symm

/-! ### Trees -/

/-- **Disposing** of a tree, as if drafts were entered. -/
theorem Underway.disposed {v : TreeId} (hu : g.Underway (t :: rest)) (hdraft : t.draft? = none) (htops : t.tops = [])
    (hkept : ∀ d ∈ draftsOf rest, d.watcher ∈ (g.dispose v).roots ++ rest.flatMap Task.tops ∨
      ∃ u, d.watcher ∈ ((g.dispose v).asIf (draftsOf rest)).listed u) :
    Sheds (g.treeRoot v).toList (g.asIf (draftsOf rest)) ((g.dispose v).asIf (draftsOf rest)) ∧
      ((g.dispose v).asIf (draftsOf rest)).Grown ((g.dispose v).roots ++ rest.flatMap Task.tops) ∧
      g.Fades (g.dispose v) ∧
      ∀ {w k}, k ∈ ((g.dispose v).asIf (draftsOf rest)).idsOf w → k ∈ (g.asIf (draftsOf rest)).idsOf w := by
  have hgrown := hu.grown
  rw [draftsOf_cons_none hdraft, topsOf, List.flatMap_cons, htops, List.nil_append] at hgrown
  cases hroot : g.treeRoot v with
  | none =>
    rw [dispose_of_off hroot]
    exact ⟨.refl _, hgrown, fun _ => Or.inl rfl, fun hk => hk⟩
  | some r =>
    set g₁ := g.modifyTree v fun x => { x with root := none } with hg₁
    have hdispose : g.dispose v = [r].foldl World.unbind g₁ := by simp only [World.dispose, hroot, hg₁, List.foldl]
    have hmem : ∀ w, w ∈ (g.dispose v).roots ↔ w ∈ g.roots ∧ w ≠ r := by
      intro w
      rw [mem_roots_iff, mem_roots_iff]
      constructor
      · rintro ⟨u, hw⟩
        rw [treeRoot_dispose] at hw
        split at hw
        · cases hw
        · rename_i hvu
          refine ⟨⟨u, hw⟩, ?_⟩
          rintro rfl
          obtain ⟨x, hx, hsite⟩ := hu.sited hroot
          obtain ⟨y, hy, hsite'⟩ := hu.sited hw
          rw [hx] at hy
          cases hy
          exact hvu (hsite.symm.trans hsite')
      · rintro ⟨⟨u, hw⟩, hne⟩
        refine ⟨u, ?_⟩
        rw [treeRoot_dispose, if_neg, hw]
        rintro rfl
        exact hne (Option.some.inj (hw.symm.trans hroot))
    have hrestops : ∀ w ∈ rest.flatMap Task.tops, w ≠ r := by
      rintro w hw rfl
      exact hu.unplanted w (List.mem_append_right t.tops hw) (mem_roots_of_treeRoot hroot)
    have hgrown₁ : (g₁.asIf (draftsOf rest)).Grown (g.roots ++ rest.flatMap Task.tops) := hgrown.replant _
    have hkept' : ∀ d ∈ draftsOf rest, d.watcher ∈ (g.dispose v).roots ++ rest.flatMap Task.tops ∧ d.watcher ∉ [r] ∨
        ∃ u, d.watcher ∈ (([r].foldl World.unbind g₁).asIf (draftsOf rest)).listed u := by
      intro d hd
      rw [← hdispose]
      refine (hkept d hd).imp_left fun hd => ⟨hd, fun heq => ?_⟩
      rcases List.mem_append.mp hd with hd | hd
      · exact ((hmem _).mp hd).2 (List.mem_singleton.mp heq)
      · exact hrestops _ hd (List.mem_singleton.mp heq)
    have hroots := mem_roots_of_treeRoot hroot
    obtain ⟨hsheds, hparted, -, hids⟩ := hgrown₁.part hu.drafted_behind
      (fun w hw => by rw [List.mem_singleton.mp hw]; exact ⟨hu.root_lt hroots, Or.inl (List.mem_append_left _ hroots)⟩)
      (fun w hw => List.mem_append.mpr ((List.mem_append.mp hw).imp_left fun hw => ((hmem w).mp hw).1))
      (fun w hw => by
        rw [List.mem_singleton, List.mem_append, hmem]
        rcases List.mem_append.mp hw with hw | hw <;> tauto) hkept'
    rw [← hdispose] at hsheds hparted hids
    exact ⟨⟨hsheds.fades, hsheds.kept⟩, hparted, hdispose ▸ fades_foldl_unbind [r] g₁, hids⟩

section

variable {v : TreeId} (hu : g.Underway (t :: rest)) (hcalm : Scene.Undisturbed { world := g, agenda := t :: rest })
  (hdraft : t.draft? = none) (htops : t.tops = [])

include hu hcalm hdraft htops

/-- **A tree is disposed of**, and light tasks take the place of one that binds nothing. -/
theorem Underway.dispose (hnew : ∀ u ∈ new, u.Light g)
    (hcalm' : Scene.Undisturbed { world := g.dispose v, agenda := new ++ rest }) :
    (g.dispose v).Underway (new ++ rest) := by
  have hdrafts : draftsOf (new ++ rest) = draftsOf rest := by
    rw [draftsOf_append, draftsOf, List.filterMap_eq_nil_iff.mpr fun u hmem => (hnew u hmem).draft, List.nil_append]
  have hnewTops : new.flatMap Task.tops = [] := List.flatMap_eq_nil_iff.mpr fun u hmem => (hnew u hmem).tops
  have hkept := hcalm'.kept
  simp only [hdrafts, topsOf, List.flatMap_append, hnewTops, List.nil_append] at hkept
  obtain ⟨-, hgrown, hfades, hids⟩ := hu.disposed hdraft htops hkept
  have houtline := g.dispose_outline v
  refine hu.next hcalm ?_ ?_ (fun u hmem => ?_) ?_ (fun w hw => ?_) fun u r hr => Or.inl ?_
  · rw [hdrafts, draftsOf_cons_none hdraft]
    exact Carries.of_faded hfades.old hfades.new hu.drafted_behind houtline (.of_map (dispose_watches g v).2 fun h => h)
      fun hk => Or.inl (hids hk)
  · rw [hdrafts, topsOf, List.flatMap_append, hnewTops, List.nil_append]
    exact hgrown
  · exact ((hnew u hmem).mono fun v hv => (hasValue_congr houtline v).trans hv).fits _
  · rw [hnewTops]
    exact List.nodup_nil
  · rw [hnewTops] at hw
    cases hw
  · rw [treeRoot_dispose] at hr
    split at hr
    · cases hr
    · exact hr

omit hcalm hdraft htops in
/-- What is being bound when a tree has been attached belonged to something when it had been
disposed of. -/
theorem Underway.attached_kept {x : Watcher κ} (hx : x.target = none) {value : Value}
    (hcalm' : Scene.Undisturbed { world := (g.dispose v).addWatcher x
                                  agenda := [.bind (g.dispose v).watchers.size value,
                                    .plant v (g.dispose v).watchers.size, .release (.tree v)] ++ rest }) :
    (g.dispose v).watchers.size = g.watchers.size ∧ (∀ d ∈ draftsOf rest, d.watcher < (g.dispose v).watchers.size) ∧
      ∀ d ∈ draftsOf rest, d.watcher ∈ (g.dispose v).roots ++ rest.flatMap Task.tops ∨
        ∃ u, d.watcher ∈ ((g.dispose v).asIf (draftsOf rest)).listed u := by
  have hfades : g.Fades (g.dispose v) := by
    unfold World.dispose
    split
    · exact fades_unbind _ _
    · exact fun _ => Or.inl rfl
  have hlt : ∀ d ∈ draftsOf rest, d.watcher < (g.dispose v).watchers.size := fun d hd =>
    (hu.drafted_behind.lt hd).trans_eq hfades.size_eq.symm
  refine ⟨hfades.size_eq, hlt, fun d hd => ?_⟩
  rcases hcalm'.kept d hd with hkept | ⟨u, hkept⟩
  · have hkept : d.watcher ∈ (g.dispose v).roots ++ (g.dispose v).watchers.size :: rest.flatMap Task.tops := hkept
    have hne := ne_of_lt (hlt d hd)
    rw [List.mem_append, List.mem_cons] at hkept
    rw [List.mem_append]
    tauto
  · have hkept : d.watcher ∈ (((g.dispose v).addWatcher x).asIf (draftsOf rest)).listed u := hkept
    rw [asIf_addWatcher hlt x, listed_addWatcher hx] at hkept
    exact Or.inr ⟨u, hkept⟩

/-- **A tree is attached**: it is disposed of first, and gets a new top that is still to be
bound and planted. -/
theorem Underway.attach {context : ObjectId} (hcontext : g.hasObject context = true) {tree : Tree κ}
    (htree : (g.dispose v).trees[v]? = some tree) {x : Watcher κ}
    (hsite : x = .object tree.plan { tree := v, top := (g.dispose v).watchers.size, context } none)
    (hcalm' : Scene.Undisturbed { world := (g.dispose v).addWatcher x
                                  agenda := [.bind (g.dispose v).watchers.size (.object context),
                                    .plant v (g.dispose v).watchers.size, .release (.tree v)] ++ rest }) :
    ((g.dispose v).addWatcher x).Underway ([.bind (g.dispose v).watchers.size (.object context),
      .plant v (g.dispose v).watchers.size, .release (.tree v)] ++ rest) := by
  have hx : x.target = none := hsite ▸ rfl
  have houtline := g.dispose_outline v
  obtain ⟨hsize, hlt, hkept⟩ := hu.attached_kept hx hcalm'
  have hasIf := asIf_addWatcher hlt x
  obtain ⟨-, hgrown, hfades, hids⟩ := hu.disposed hdraft htops hkept
  have hmade := getElem?_addWatcher_size (g.dispose v) x
  refine hu.next hcalm ?_ ?_ (fun u hmem => ?_) (List.nodup_singleton (g.dispose v).watchers.size)
    (fun w hw => Or.inr ?_)
    fun u r hr => Or.inl ?_
  · show Carries _ _ _ (((g.dispose v).addWatcher x).asIf (draftsOf rest)) _ _
    rw [hasIf, draftsOf_cons_none hdraft]
    refine Carries.of_faded (fun hz => (hfades.old hz).imp addWatcher_old addWatcher_old)
      (fun hz => (addWatcher_new hx hz).elim hfades.new Or.inr) hu.drafted_behind houtline
      (.of_map (dispose_watches g v).2 fun h => h) fun hk => Or.inl (hids ?_)
    rwa [idsOf_addWatcher hx] at hk
  · show (((g.dispose v).addWatcher x).asIf (draftsOf rest)).Grown
      ((g.dispose v).roots ++ (g.dispose v).watchers.size :: rest.flatMap Task.tops)
    rw [hasIf]
    refine (hgrown.addWatcher hx).retop (fun w hw _ => ?_) fun w hw u hlisted => ?_
    · rw [List.mem_append, List.mem_cons]
      rcases List.mem_append.mp hw with hw | hw <;> tauto
    · rw [listed_addWatcher hx] at hlisted
      rw [List.mem_append, List.mem_cons] at hw
      by_cases hnew : w = (g.dispose v).watchers.size
      · exact lt_irrefl _ ((hnew ▸ hgrown.lt_of_mem_listed hlisted).trans_eq (size_asIf _ _))
      · exact hgrown.topmost (List.mem_append.mpr (by tauto)) hlisted
  · simp only [List.mem_cons, List.not_mem_nil, or_false] at hmem
    rcases hmem with rfl | rfl | rfl
    · exact ⟨(Array.getElem?_eq_some_iff.mp hmade).1, (hasValue_congr houtline (.object context)).trans hcontext⟩
    · exact ⟨tree, x, htree, hmade, context, (holds_nothing hx).2.2.trans hsite⟩
    · trivial
  · obtain rfl := List.mem_singleton.mp hw
    exact hsize.ge
  · have hr : (g.dispose v).treeRoot u = some r := hr
    rw [treeRoot_dispose] at hr
    split at hr
    · cases hr
    · exact hr

end

/-- **A tree is planted** on its top. -/
theorem Underway.plant {v : TreeId} {w : WatcherId} (hu : g.Underway (.plant v w :: rest))
    (hcalm : Scene.Undisturbed { world := g, agenda := .plant v w :: rest }) :
    (g.modifyTree v fun x => { x with root := some w }).Underway rest := by
  have hheads : g.Heads v w := hu.fits _ List.mem_cons_self
  obtain ⟨tree, x, htree, hx, context, hdormant⟩ := id hheads
  have hlt : v < g.trees.size := (Array.getElem?_eq_some_iff.mp htree).1
  have hoff := hcalm.planted v w List.mem_cons_self
  have hroots : ∀ u, u ∈ (g.modifyTree v fun x => { x with root := some w }).roots ↔ u ∈ g.roots ∨ u = w := by
    intro u
    rw [mem_roots_iff, mem_roots_iff]
    constructor
    · rintro ⟨t, hr⟩
      rw [treeRoot_reroot] at hr
      split at hr
      · exact Or.inr (Option.some.inj hr).symm
      · exact Or.inl ⟨t, hr⟩
    · rintro (⟨t, hr⟩ | rfl)
      · refine ⟨t, ?_⟩
        rw [treeRoot_reroot, if_neg, hr]
        rintro ⟨rfl, -⟩
        rw [hoff] at hr
        cases hr
      · exact ⟨v, by rw [treeRoot_reroot, if_pos ⟨rfl, hlt⟩]⟩
  show World.Underway _ ([] ++ rest)
  refine hu.next hcalm ?_ ?_ (by simp) List.nodup_nil (by simp) fun u r hr => ?_
  · have hsame : g.Watches (g.modifyTree v fun x => { x with root := some w }) := g.modifyTree_watches v fun _ => rfl
    exact Carries.of_faded Or.inl Or.inl hu.drafted_behind rfl (.of_map hsame.2 fun h => h) Or.inl
  · have hgrown : ((g.modifyTree v fun x => { x with root := some w }).asIf (draftsOf rest)).Grown
        (g.topsOf (.plant v w :: rest)) := hu.grown.replant _
    refine hgrown.tops_congr fun u => ?_
    rw [List.nil_append, topsOf, topsOf, List.mem_append, List.mem_append, hroots, List.flatMap_cons, List.mem_append]
    simp only [Task.tops, List.mem_singleton]
    tauto
  · rw [treeRoot_reroot] at hr
    split at hr
    · rename_i heq
      obtain rfl := Option.some.inj hr
      refine Or.inr ⟨List.mem_singleton_self _, by simp, ?_⟩
      rw [← heq.1]
      refine ⟨{ tree with root := some w }, x, ?_, hx, context, hdormant⟩
      simp [modifyTree, Array.getElem?_modify, htree]
    · exact Or.inl hr

/-! ### A watcher is bound anew -/

theorem mem_nodes_self {w : Nat} {x : Watcher κ} (hw : g.watchers[w]? = some x) : w ∈ g.nodes w := by
  unfold nodes
  rw [hw]
  cases x <;> exact List.mem_cons_self

/-- What a watcher that is to follow a value comes to: it is released, and may be on its way
to be bound then. -/
theorem bind_cases {w : Nat} (hw : w < g.watchers.size) (v : Value) :
    ((∃ x, (g.unbind w).watchers[w]? = some x ∧ x.target = none ∧ x.seen v = none) ∧ g.bind w v = (g.unbind w, [])) ∨
    (∃ plan site s, (g.unbind w).watchers[w]? = some (.object plan site none) ∧ v = s.value ∧
      g.bind w v = (g.unbind w, [.bindMembers { watcher := w, site, subject := s, rest := plan }])) ∨
    ∃ item membership site c, (g.unbind w).watchers[w]? = some (.collection item membership site none) ∧
      v = .collection c ∧ g.bind w v = ((g.unbind w).enterChangeListener c (.membership w),
        [.enrol { watcher := w, site, item, binds := some (c, (g.unbind w).nextSubscription),
                  pending := ((g.unbind w).enterChangeListener c (.membership w)).itemsOf c }]) := by
  have hget := Array.getElem?_eq_getElem hw
  have hdormant : (g.unbind w).watchers[w]? = some (g.watchers[w]).dormant := by
    unfold World.unbind
    rw [getElem?_foldl_release, if_pos (mem_nodes_self hget), hget]
    rfl
  unfold World.bind
  simp only [hdormant]
  cases hx : g.watchers[w] with
  | object plan site bound =>
    rw [hx] at hdormant
    cases v with
    | object o => exact Or.inr (Or.inl ⟨plan, site, .object o, rfl, rfl, rfl⟩)
    | command c => exact Or.inr (Or.inl ⟨plan, site, .command c, rfl, rfl, rfl⟩)
    | _ => exact Or.inl ⟨⟨_, rfl, rfl, rfl⟩, rfl⟩
  | collection item membership site bound =>
    cases v with
    | collection c => exact Or.inr (Or.inr ⟨item, membership, site, c, rfl, rfl, rfl⟩)
    | _ => exact Or.inl ⟨⟨_, rfl, rfl, rfl⟩, rfl⟩

/-- A draft with nothing below adds nothing to what is listed. -/
theorem listed_asIf_cons {d : Draft} {ds : List Draft} (hblank : ∀ x : Watcher κ, g.watchers[d.watcher]? = some x →
    d.suits x = true ∧ (d.fill x).listed = []) {v w : WatcherId} (hw : w ∈ (g.asIf (d :: ds)).listed v) :
    w ∈ (g.asIf ds).listed v := by
  obtain ⟨x, hx, hmem⟩ := exists_of_mem_listed hw
  rw [getElem?_asIf] at hx
  by_cases hv : d.watcher = v
  · subst hv
    rw [List.find?_cons_of_pos (by simp)] at hx
    obtain ⟨y, hy, rfl⟩ := Option.map_eq_some_iff.mp hx
    rw [Option.elim_some, (hblank y hy).2] at hmem
    cases hmem
  · rw [List.find?_cons_of_neg (by simp [hv]), ← getElem?_asIf] at hx
    rw [listed_of_get hx]
    exact hmem

/-- Who starts with a draft is not being bound already; all that is being bound belongs
still to something. -/
theorem Scene.Undisturbed.started {g₂ : World κ} {u : Task κ} {d : Draft}
    (hcalm : Scene.Undisturbed { world := g₂, agenda := u :: rest }) (hdraft : u.draft? = some d) (htops : u.tops = [])
    (hblank : ∀ x : Watcher κ, g₂.watchers[d.watcher]? = some x → d.suits x = true ∧ (d.fill x).listed = []) :
    (∀ d' ∈ draftsOf rest, d'.watcher ≠ d.watcher) ∧ ∀ d' ∈ d :: draftsOf rest,
      d'.watcher ∈ g₂.topsOf rest ∨ ∃ v, d'.watcher ∈ (g₂.asIf (draftsOf rest)).listed v := by
  have hkept := hcalm.kept
  simp only [draftsOf_cons_some hdraft, topsOf, List.flatMap_cons, htops, List.nil_append] at hkept
  refine ⟨hcalm.ne_draft hdraft, fun d' hd' => (hkept d' hd').imp_right ?_⟩
  rintro ⟨v, hv⟩
  exact ⟨v, listed_asIf_cons hblank hv⟩

/-- A watcher of an object that has been released starts with a draft. -/
theorem opened_object {w : Nat} {plan : WatchPlan κ} {site : Attachment} {s : Subject}
    (hw : (g.unbind w).watchers[w]? = some (.object plan site none))
    (hcalm' : Scene.Undisturbed
      { world := g.unbind w, agenda := [.bindMembers { watcher := w, site, subject := s, rest := plan }] ++ rest }) :
    (∀ d ∈ draftsOf rest, d.watcher ≠ w) ∧ (∀ d ∈ .object w (opened s) :: draftsOf rest,
      d.watcher ∈ (g.unbind w).topsOf rest ∨ ∃ v, d.watcher ∈ ((g.unbind w).asIf (draftsOf rest)).listed v) ∧
      ((g.unbind w).asIf (draftsOf rest)).watchers[w]? = some (.object plan site none) ∧
      (g.unbind w).asIf (draftsOf ([.bindMembers { watcher := w, site, subject := s, rest := plan }] ++ rest)) =
        ((g.unbind w).asIf (draftsOf rest)).bindObject w (opened s) := by
  obtain ⟨hnot, hkept⟩ := Scene.Undisturbed.started (d := .object w (opened s)) hcalm' rfl rfl fun x hx => by
    rw [show (Draft.object w (opened s)).watcher = w from rfl, hw] at hx
    cases hx
    exact ⟨rfl, rfl⟩
  refine ⟨hnot, hkept, (getElem?_asIf_of_not_mem hnot).trans hw, ?_⟩
  rw [bindObject_eq_enter]
  exact (enter_asIf (d := .object w (opened s)) hw rfl (draftsOf rest)).symm

/-- A watcher of a collection that has been released is subscribed, and starts with a draft. -/
theorem opened_collection {w : Nat} {item : WatchPlan κ} {membership : Batch κ} {site : Attachment} {c : CollectionId}
    {e : Enrolment κ} (hw : (g.unbind w).watchers[w]? = some (.collection item membership site none))
    (hdraft : (Task.enrol e).draft? = some (.collection w ⟨c, (g.unbind w).nextSubscription, []⟩))
    (htops : (Task.enrol e).tops = [])
    (hcalm' : Scene.Undisturbed { world := (g.unbind w).enterChangeListener c (.membership w)
                                  agenda := [.enrol e] ++ rest }) :
    (∀ d ∈ draftsOf rest, d.watcher ≠ w) ∧
      (∀ d ∈ .collection w ⟨c, (g.unbind w).nextSubscription, []⟩ :: draftsOf rest,
        d.watcher ∈ (g.unbind w).topsOf rest ∨ ∃ v, d.watcher ∈ ((g.unbind w).asIf (draftsOf rest)).listed v) ∧
      ((g.unbind w).asIf (draftsOf rest)).watchers[w]? = some (.collection item membership site none) ∧
      ((g.unbind w).enterChangeListener c (.membership w)).asIf (draftsOf ([.enrol e] ++ rest)) =
        ((g.unbind w).asIf (draftsOf rest)).openCollection w c := by
  obtain ⟨hnot, hkept⟩ := Scene.Undisturbed.started hcalm' hdraft htops fun x hx => by
    have hx : (g.unbind w).watchers[w]? = some x := hx
    rw [hw] at hx
    cases hx
    exact ⟨rfl, rfl⟩
  refine ⟨hnot, hkept, (getElem?_asIf_of_not_mem hnot).trans hw, ?_⟩
  rw [show draftsOf ([Task.enrol e] ++ rest) = _ from draftsOf_cons_some hdraft]
  unfold openCollection
  rw [bindCollection_eq_enter, ← asIf_enterChangeListener]
  exact (enter_asIf (g := (g.unbind w).enterChangeListener c (.membership w))
    (d := .collection w ⟨c, (g.unbind w).nextSubscription, []⟩) hw rfl (draftsOf rest)).symm

section

variable {w : Nat} {v : Value} (hu : g.Underway (.bind w v :: rest))

include hu

/-- Releasing what hung below a watcher, as if drafts were entered. -/
theorem Underway.unbound (hnot : ∀ d ∈ draftsOf rest, d.watcher ≠ w)
    (hkept : ∀ d ∈ draftsOf rest, d.watcher ∈ (g.unbind w).topsOf rest ∨
      ∃ u, d.watcher ∈ ((g.unbind w).asIf (draftsOf rest)).listed u) :
    Sheds [w] (g.asIf (draftsOf rest)) ((g.unbind w).asIf (draftsOf rest)) ∧
      ((g.unbind w).asIf (draftsOf rest)).Grown ((g.unbind w).topsOf rest) ∧
      (g.unbind w).nextSubscription = g.nextSubscription ∧ ∀ {u k}, k ∈ ((g.unbind w).asIf (draftsOf rest)).idsOf u →
        k ∈ (g.asIf (draftsOf rest)).idsOf u := by
  have htops : (g.unbind w).topsOf rest = g.topsOf rest := by
    unfold topsOf roots
    rw [unbind_trees]
  rw [htops] at hkept ⊢
  have hgrown : (g.asIf (draftsOf rest)).Grown (g.topsOf rest) := hu.grown
  have hws : ∀ u ∈ [w], u < g.watchers.size ∧ (u ∈ g.topsOf rest ∨ ∀ d ∈ draftsOf rest, d.watcher ≠ u) := by
    intro u hmem
    rw [List.mem_singleton.mp hmem]
    exact ⟨(hu.fits _ List.mem_cons_self).1, Or.inr hnot⟩
  obtain ⟨hsheds, hparted, hnext, hids⟩ := hgrown.part hu.drafted_behind hws
    (fun u hmem => hmem) (fun u hmem => Or.inl hmem) fun d hd =>
      (hkept d hd).imp_left fun hmem => ⟨hmem, fun heq => hnot d hd (List.mem_singleton.mp heq)⟩
  exact ⟨hsheds, hparted, hnext, hids⟩

variable (hcalm : Scene.Undisturbed { world := g, agenda := .bind w v :: rest })

include hcalm

/-- Where a watcher has been released, and is entered nowhere else, `new` comes next. -/
theorem Underway.rebound {g₂ : World κ} (hwatchers : g₂.watchers = (g.unbind w).watchers)
    (houtline : g₂.outline = (g.unbind w).outline) (htrees : g₂.trees = (g.unbind w).trees)
    (htops : new.flatMap Task.tops = [])
    (hgrown : (g₂.asIf (draftsOf (new ++ rest))).Grown ((g.unbind w).topsOf rest))
    (hfits : ∀ u ∈ new, ∀ h, u.Fits g₂ h)
    (hids : ∀ {u k}, k ∈ (g₂.asIf (draftsOf (new ++ rest))).idsOf u →
      k ∈ (g.asIf (draftsOf rest)).idsOf u ∨ g.nextSubscription ≤ k) : g₂.Underway (new ++ rest) := by
  have hfades : g.Fades g₂ := fun y => by
    rw [hwatchers]
    exact fades_unbind g w y
  have htrees' : g₂.trees = g.trees := htrees.trans (g.unbind_trees w)
  refine hu.next hcalm ?_ ?_ (fun u hmem => hfits u hmem _) ?_ (fun u hmem => ?_) fun u r hr => Or.inl ?_
  · exact Carries.of_faded hfades.old hfades.new hu.drafted_behind (houtline.trans (g.unbind_outline w))
      (htrees' ▸ .refl (SameBy.refl _) _) hids
  · rw [topsOf, List.flatMap_append, htops, List.nil_append]
    unfold topsOf roots at hgrown
    unfold roots
    rw [htrees]
    exact hgrown
  · rw [htops]
    exact List.nodup_nil
  · rw [htops] at hmem
    cases hmem
  · rw [← hr]
    exact (treeRoot_congr htrees' u).symm

/-- **A watcher is bound anew**: what hung below is released, and it starts with a draft. -/
theorem Underway.bind (hcalm' : Scene.Undisturbed { world := (g.bind w v).1, agenda := (g.bind w v).2 ++ rest }) :
    (g.bind w v).1.Underway ((g.bind w v).2 ++ rest) := by
  obtain ⟨hlt, hv⟩ := hu.fits _ List.mem_cons_self
  have houtline := g.unbind_outline w
  rcases bind_cases hlt v with ⟨-, hbind⟩ | ⟨plan, site, s, hw, rfl, hbind⟩ |
    ⟨item, membership, site, c, hw, rfl, hbind⟩ <;>
    rw [hbind] at hcalm' ⊢
  · by_cases hdraft : ∃ d ∈ draftsOf rest, d.watcher = w
    · obtain ⟨d, hd, rfl⟩ := hdraft
      obtain ⟨x, hx, hnone, -⟩ := hu.drafted_behind d hd
      rw [unbind_dormant hx hnone]
      exact hu.light hcalm rfl (fun _ => .refl) rfl rfl (by simp)
    · push Not at hdraft
      obtain ⟨-, hgrown, -, hids⟩ := hu.unbound hdraft hcalm'.kept
      show World.Underway _ ([] ++ rest)
      exact hu.rebound hcalm rfl rfl rfl rfl hgrown (by simp) fun hk => Or.inl (hids hk)
  · obtain ⟨hnot, hkept, hw', hasIf⟩ := opened_object hw hcalm'
    obtain ⟨-, hgrown, -, hids⟩ := hu.unbound hnot fun d hd => hkept d (List.mem_cons_of_mem _ hd)
    refine hu.rebound hcalm rfl rfl rfl rfl ?_ ?_ fun {u k} hk => Or.inl ?_
    · rw [hasIf]
      exact hgrown.openObject hw' ((hasValue_dressed ..).trans ((hasValue_congr houtline _).trans hv))
        (hkept _ List.mem_cons_self)
    · intro u hmem
      obtain rfl := List.mem_singleton.mp hmem
      exact fun _ => ⟨plan, hw, rfl⟩
    · rw [hasIf, idsOf, getElem?_bindObject hw'] at hk
      split at hk
      · cases hk
      · exact hids hk
  · set g₂ := (g.unbind w).enterChangeListener c (.membership w) with hg₂
    set e : Enrolment κ := { watcher := w, site, item, binds := some (c, (g.unbind w).nextSubscription)
                             pending := g₂.itemsOf c } with he
    obtain ⟨hnot, hkept, hw', hasIf⟩ := opened_collection (e := e) hw rfl rfl hcalm'
    obtain ⟨-, hgrown, hnext, hids⟩ := hu.unbound hnot fun d hd => hkept d (List.mem_cons_of_mem _ hd)
    have houtline₂ : g₂.outline = (g.unbind w).outline := (g.unbind w).enterChangeListener_outline c _
    refine hu.rebound hcalm rfl houtline₂ rfl rfl ?_ ?_ fun {u k} hk => ?_
    · rw [hasIf]
      exact hgrown.openCollection hw' ((hasValue_dressed ..).trans ((hasValue_congr houtline _).trans hv))
        (hkept _ List.mem_cons_self)
    · intro u hmem
      obtain rfl := List.mem_singleton.mp hmem
      refine fun _ => ⟨fun o ho => ?_, membership, hw⟩
      have hitems := hgrown.sane.items c o
      rw [asIf, hasObject_dressed, itemsOf_dressed] at hitems
      exact (hasValue_congr houtline₂ (.object o)).trans (hitems ((itemsOf_congr houtline₂ c) ▸ ho))
    · rw [hasIf, idsOf] at hk
      unfold openCollection at hk
      rw [getElem?_bindCollection
        (g := ((g.unbind w).asIf (draftsOf rest)).enterChangeListener c (.membership w)) hw'] at hk
      split at hk
      · exact Or.inr (hnext.symm.trans (List.mem_singleton.mp hk).symm).le
      · exact Or.inl (hids hk)

end

/-! ### Members that leave -/

section

variable {c : CollectionId} {id : SubscriptionId} {w : WatcherId} {change : Change}
  (hu : g.Underway (.deliverChange c id (.membership w) change :: rest)) {item : WatchPlan κ} {membership : Batch κ}
  {site : Attachment} {b : BoundCollection} (hw : g.watchers[w]? = some (.collection item membership site (some b)))
  (hcalm' : Scene.Undisturbed
    { world := g.taken w b change.removed
      agenda := [.enrol { watcher := w, site, item, binds := none, pending := change.added },
        .release (.watcher w)] ++ rest })

include hu hw hcalm'

/-- Releasing the watchers of members that left, as if drafts were entered. -/
theorem Underway.parted :
    Sheds (takeItems b.items change.removed).1
        ((g.asIf (draftsOf rest)).bindCollection w { b with items := (takeItems b.items change.removed).2 })
        ((g.taken w b change.removed).asIf (draftsOf rest)) ∧
      ((g.taken w b change.removed).asIf (draftsOf rest)).Grown (g.topsOf rest) ∧
      ∀ {v k}, k ∈ ((g.taken w b change.removed).asIf (draftsOf rest)).idsOf v →
        k ∈ ((g.asIf (draftsOf rest)).bindCollection w
          { b with items := (takeItems b.items change.removed).2 }).idsOf v := by
  have hgrown : (g.asIf (draftsOf rest)).Grown (g.topsOf rest) := hu.grown
  have hdrafted := hu.drafted_behind
  have hne := hdrafted.ne hw rfl
  set stay : BoundCollection := { b with items := (takeItems b.items change.removed).2 } with hstay
  set ws := (takeItems b.items change.removed).1 with hws
  obtain ⟨hstruck, hlisted, -⟩ := hgrown.struck (hdrafted.get_asIf hw rfl) change.removed
  rw [← asIf_bindCollection hw hne] at hstruck ⊢
  have hdrafted₁ : (g.bindCollection w stay).Drafted (draftsOf rest) := by
    intro d hd
    rw [getElem?_bindCollection hw, if_neg (hne d hd)]
    exact hdrafted d hd
  have hsize : (g.bindCollection w stay).watchers.size = g.watchers.size := by simp [bindCollection]
  have hroots : (g.taken w b change.removed).roots = g.roots := by
    have htrees : (g.taken w b change.removed).trees = g.trees := (g.bindCollection w stay).foldl_unbind_trees ws
    unfold roots
    rw [htrees]
  obtain ⟨hsheds, hparted, -, hids⟩ := hstruck.part hdrafted₁
    (fun v hv => ⟨((hgrown.lt_of_mem_listed (hlisted v hv)).trans_eq (size_asIf g _)).trans_eq hsize.symm,
      Or.inl (List.mem_append_right _ hv)⟩)
    (fun v hv => List.mem_append_left _ hv) (fun v hv => List.mem_append.mp hv) fun d hd => by
      refine (hcalm'.kept d hd).imp_left fun hkept => ?_
      have hkept : d.watcher ∈ g.topsOf rest := by
        have hkept : d.watcher ∈ (g.taken w b change.removed).roots ++ rest.flatMap Task.tops := hkept
        rwa [hroots] at hkept
      exact ⟨hkept, fun hmem => hgrown.topmost hkept (hlisted _ hmem)⟩
  exact ⟨hsheds, hparted, hids⟩

/-- **A watcher of a collection is told of a change**: watchers of members that left are
released, and those that joined are to be watched. -/
theorem Underway.membershipChanged
    (hcalm : Scene.Undisturbed { world := g, agenda := .deliverChange c id (.membership w) change :: rest }) :
    (g.taken w b change.removed).Underway ([.enrol { watcher := w, site, item, binds := none, pending := change.added },
      .release (.watcher w)] ++ rest) := by
  obtain ⟨-, hparted, hids⟩ := hu.parted hw hcalm'
  have hfits := hu.fits _ List.mem_cons_self
  have hdrafted := hu.drafted_behind
  have hne := hdrafted.ne hw rfl
  have hbooks := hdrafted.get_asIf hw rfl
  set stay : BoundCollection := { b with items := (takeItems b.items change.removed).2 } with hstay
  have hget₁ := getElem?_bindCollection hw stay
  have hdrafted₁ : (g.bindCollection w stay).Drafted (draftsOf rest) := by
    intro d hd
    rw [hget₁, if_neg (hne d hd)]
    exact hdrafted d hd
  have htrees : (g.taken w b change.removed).trees = g.trees :=
    (g.bindCollection w stay).foldl_unbind_trees (takeItems b.items change.removed).1
  have hroots : (g.taken w b change.removed).roots = g.roots := by
    unfold roots
    rw [htrees]
  have hfades : (g.bindCollection w stay).Fades (g.taken w b change.removed) := fades_foldl_unbind _ _
  have houtline : (g.taken w b change.removed).outline = (g.bindCollection w stay).outline :=
    (foldl_unbind_watches _ _).1
  refine hu.next hcalm ?_ ?_ (fun u hmem => ?_) List.nodup_nil (by simp [Task.tops]) fun v r hr => Or.inl ?_
  · refine (Carries.of_items (h := g.asIf (draftsOf rest)) hw hbooks hne stay.items).trans ?_ le_rfl
    exact Carries.of_faded hfades.old hfades.new hdrafted₁ houtline (htrees ▸ .refl (SameBy.refl _) _) fun hk =>
      Or.inl (hids hk)
  · show ((g.taken w b change.removed).asIf (draftsOf rest)).Grown
      ((g.taken w b change.removed).roots ++ rest.flatMap Task.tops)
    rw [hroots]
    exact hparted
  · simp only [List.mem_cons, List.not_mem_nil, or_false] at hmem
    rcases hmem with rfl | rfl
    · refine ⟨fun o ho => (hasValue_congr houtline (.object o)).trans (hfits o ho), ?_, by simp⟩
      rcases hfades.old ((hget₁ w).trans (if_pos rfl)) with hw' | hw'
      · exact ⟨membership, _, hw', by simp⟩
      · exact ⟨membership, _, hw', by simp⟩
    · trivial
  · rw [← hr]
    exact (treeRoot_congr htrees v).symm

end

end World

end LiveRules
