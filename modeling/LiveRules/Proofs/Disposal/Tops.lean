/-
# Tops that come and go

Each attachment of a tree has a top of its own, a watcher that is new when the tree is
attached. What fires, fires for an attachment whose top is in place, and at once: no
batch waits behind other tasks. Once a tree has been taken down, the top it had is in
place never again.

Key definitions: `Machine.Poised`, `World.Retired`, `Machine.Settles`.
Key theorems: `Strides.roots`, `Strides.poised`, `Resumes.retired`.
-/
import LiveRules.Proofs.Machine.Strides
import LiveRules.Proofs.Mirror.Census

namespace LiveRules

variable {κ σ : Type} {L : Language κ σ}

/-! ### Trees and their tops -/

namespace World

section

variable {g g' : World κ} (h : g'.watchers = g.watchers)

include h

theorem below_congr : ∀ (plan : WatchPlan κ) (cs : List (Option WatcherId)), g'.below plan cs = g.below plan cs := by
  have hchildren : ∀ w, g'.childrenOf w = g.childrenOf w := by
    intro w
    unfold childrenOf boundObject?
    rw [h]
  have hitems : ∀ w, g'.watchedItems w = g.watchedItems w := by
    intro w
    unfold watchedItems boundCollection?
    rw [h]
  intro plan
  induction plan with
  | nil => exact fun _ => rfl
  | value n f next ih =>
    intro cs
    cases cs with
    | nil => rfl
    | cons c cs => exact ih cs
  | object n f inside next ihInside ih =>
    intro cs
    cases cs with
    | nil => rfl
    | cons c cs => simp only [below, hchildren, ihInside, ih]
  | collection n f m item next ihItem ih =>
    intro cs
    cases cs with
    | nil => rfl
    | cons c cs => simp only [below, hchildren, hitems, ihItem, ih]

theorem nodes_congr (w : WatcherId) : g'.nodes w = g.nodes w := by
  have hitems : g'.watchedItems w = g.watchedItems w := by
    unfold watchedItems boundCollection?
    rw [h]
  have hchildren : ∀ w, g'.childrenOf w = g.childrenOf w := by
    intro w
    unfold childrenOf boundObject?
    rw [h]
  unfold nodes
  rw [h, hitems]
  simp only [below_congr h, hchildren]

end

end World

section

variable {g : World κ} {agenda : List (Task κ)} {missed : SubscriptionId → List ObjectId} (h : Stable g agenda missed)

include h

/-- That a tree is given up changes nothing else. -/
theorem Stable.marked {t : TreeId} {g₁ : World κ}
    (hg₁ : g₁ = g ∨ g₁ = g.modifyTree t fun x => { x with dropped := true }) :
    Stable g₁ agenda missed ∧ g₁.watchers = g.watchers ∧ (∀ v, g₁.treeRoot v = g.treeRoot v) ∧
      g₁.outline = g.outline := by
  rcases hg₁ with rfl | rfl
  · exact ⟨h, rfl, fun _ => rfl, rfl⟩
  · exact ⟨h.giveUp t, rfl, World.treeRoot_giveUp g t, rfl⟩

/-- A bound watcher works for an attachment that is in place. -/
theorem Stable.site_rooted {w : Nat} {x : Watcher κ} (hw : g.watchers[w]? = some x) (ht : x.target.isSome = true) :
    g.treeRoot x.site.tree = some x.site.top := by
  obtain ⟨r, hr, hunder⟩ := h.grown.hangs ⟨x, hw, ht⟩
  obtain ⟨t, tree, htree, hroot⟩ := World.mem_roots.mp hr
  obtain ⟨context, b, hx, -⟩ := h.rooted t tree r htree hroot
  obtain ⟨y, hy, hsite⟩ := h.grown.site_of_under hx hunder
  rw [hw] at hy
  cases hy
  rw [hsite]
  exact Option.bind_eq_some_iff.mpr ⟨tree, htree, hroot⟩

/-- What taking a tree down releases. -/
theorem Stable.released_dispose {t : TreeId} {r : WatcherId} (hr : g.treeRoot t = some r) :
    World.Released (g.modifyTree t fun x => { x with root := none }) (g.dispose t) (g.nodes r) := by
  have hlt := h.rooted.lt_size (World.mem_roots_of_treeRoot hr)
  have hgrown : (g.modifyTree t fun x => { x with root := none }).Grown g.roots := h.grown.replant _
  have hdispose : g.dispose t = (g.modifyTree t fun x => { x with root := none }).unbind r := by
    simp only [World.dispose, hr]
  have hwatchers : (g.modifyTree t fun x => { x with root := none }).watchers = g.watchers := rfl
  rw [hdispose, ← World.nodes_congr hwatchers r]
  exact (hgrown.unbind hlt).2

theorem Stable.size_dispose (t : TreeId) : (g.dispose t).watchers.size = g.watchers.size := by
  cases hroot : g.treeRoot t with
  | none => rw [World.dispose_of_off hroot]
  | some r => exact (h.released_dispose hroot).size

omit h in
/-- A collection's watcher takes a change in. -/
theorem Stable.regathered {c : CollectionId} {id : SubscriptionId} {l : ChangeListener κ} {change : Change}
    {rest : List (Task κ)} (h : Stable g (.deliverChange c id l change :: rest) missed) {w : Nat} {item batch site b}
    (hw : g.watchers[w]? = some (.collection item batch site (some b))) :
    World.Regathered g.roots w item batch site b change g (g.regather w item site b change) :=
  h.grown.regather (fun _ ht => h.rooted.lt_size ht) hw (h.complete w) (h.delivers_changes List.mem_cons_self).2.2

/-- A watcher that is to follow a new value is bound to it, and so is all below. -/
theorem Stable.refollow_cases {w i : Nat} {p : String} {plan site b}
    (hw : g.watchers[w]? = some (.object plan site (some b))) :
    b.child? i = none ∧ g.refollow b i p = g ∨
      ∃ c, b.child? i = some c ∧ c ∈ g.listed w ∧ g.refollow b i p = g.rebind c (g.memberValue b.subject p) ∧
        World.Rebound g.roots c (g.memberValue b.subject p) g (g.refollow b i p) := by
  unfold World.refollow
  cases hc : b.child? i with
  | none => exact Or.inl ⟨rfl, rfl⟩
  | some c =>
    have hcw : c ∈ g.listed w := by
      rw [World.listed_of_get hw]
      exact List.reduceOption_mem_iff.mpr (List.mem_of_getElem? (BoundObject.child?_eq_some.mp hc))
    exact Or.inr ⟨c, rfl, hcw, rfl, h.grown.rebind (fun t ht => h.rooted.lt_size ht) (h.grown.lt_of_mem_listed hcw)
      (Or.inr ⟨w, hcw⟩) (h.grown.sane.hasValue_memberValue b.subject p)⟩

/-- A tree is planted on a top that is new. -/
theorem Stable.treeRoot_plant {t : TreeId} (plan : WatchPlan κ) {context : ObjectId}
    (hcontext : g.hasObject context = true) :
    g.watchers.size < (g.plantTree t plan context).watchers.size ∧
      ∀ v, (g.plantTree t plan context).treeRoot v =
        if t = v ∧ g.trees[t]?.isSome = true then some g.watchers.size else g.treeRoot v := by
  obtain ⟨-, hreb⟩ := h.rebound_top (x := .object plan { tree := t, top := g.watchers.size, context } none) rfl hcontext
  constructor
  · have hsize := hreb.size
    simp only [World.addWatcher, Array.size_push] at hsize
    exact lt_of_lt_of_le (Nat.lt_succ_self _) hsize
  · intro v
    have htrees : (g.plantTree t plan context).trees =
        g.trees.modify t fun x => { x with root := some g.watchers.size } := by
      unfold World.plantTree World.modifyTree
      rw [hreb.trees]
      rfl
    simp only [World.treeRoot, htrees, Array.getElem?_modify]
    by_cases htv : t = v
    · subst htv
      cases g.trees[t]? <;> simp
    · simp [htv]

end

/-! ### Along a stride -/

section

variable {g g' : World κ} {u : Task κ} {rest tasks : List (Task κ)} {st s' : σ}
    {missed : SubscriptionId → List ObjectId}
  (h : Stable g (u :: rest) missed) (hs : Strides L g st u rest g' tasks s')

include h hs

theorem Strides.size_le : g.watchers.size ≤ g'.watchers.size := by
  cases hs with
  | pass hcarry htells hreach => exact htells.watchers ▸ le_refl _
  | @follow s id w i p plan site b batch hu hw =>
    rcases h.refollow_cases (i := i) (p := p) hw with ⟨-, hsame⟩ | ⟨c, -, -, -, hre⟩
    · rw [hsame]
    · exact hre.size
  | take hu hw hid =>
    subst hu
    exact (h.regathered hw).size
  | @uproot t g₁ hg₁ =>
    obtain ⟨hstable, hwatchers, -, -⟩ := h.marked hg₁
    exact (hwatchers ▸ hstable.size_dispose t).ge
  | @plant t tree context hu htree hcontext =>
    obtain ⟨hsize, -⟩ := (h.dispose t).treeRoot_plant tree.plan
      ((World.hasValue_congr (g.dispose_outline t) (.object context)).trans hcontext) (t := t)
    rw [h.size_dispose t] at hsize
    exact hsize.le

/-- **A tree** keeps its top, or the step that the stride begins with has taken it down;
then the top that it may have afterwards is new. -/
theorem Strides.roots (t : TreeId) : g'.treeRoot t = g.treeRoot t ∨
    (L.step (machine g (u :: rest) st)).world.treeRoot t = none ∧ ∀ r, g'.treeRoot t = some r →
      r = g.watchers.size := by
  cases hs with
  | pass hcarry htells => exact Or.inl (htells.roots t)
  | @follow s id w i p plan site b batch hu hw =>
    rcases h.refollow_cases (i := i) (p := p) hw with ⟨-, hsame⟩ | ⟨c, -, -, -, hre⟩
    · exact Or.inl (by rw [hsame])
    · exact Or.inl (World.treeRoot_congr hre.trees t)
  | take hu hw =>
    subst hu
    exact Or.inl (World.treeRoot_congr (h.regathered hw).trees t)
  | @uproot v g₁ hg₁ hcarry =>
    obtain ⟨hstable, -, hroots, -⟩ := h.marked hg₁
    have hdisposed := g₁.treeRoot_dispose v t
    by_cases hvt : v = t
    · rw [if_pos hvt] at hdisposed
      refine Or.inr ⟨?_, fun r hr => ?_⟩
      · simp only [Language.step, machine, hcarry]
        exact hdisposed
      · rw [hdisposed] at hr
        cases hr
    · rw [if_neg hvt, hroots] at hdisposed
      exact Or.inl hdisposed
  | @plant v tree context hu htree hcontext =>
    have hdisposed := g.treeRoot_dispose v t
    have hplanted := ((h.dispose v).treeRoot_plant tree.plan
      ((World.hasValue_congr (g.dispose_outline v) (.object context)).trans hcontext) (t := v)).2 t
    by_cases hvt : v = t
    · rw [if_pos hvt] at hdisposed
      rw [if_pos ⟨hvt, by rw [htree]; rfl⟩, h.size_dispose] at hplanted
      subst hu
      have hworld : (L.step (machine g (.request (.attach v context) :: rest) st)).world.treeRoot t =
          (g.dispose v).treeRoot t := by
        simp only [Language.step, machine, Language.carry, World.grant, hcontext, if_true, World.attach, htree]
        rfl
      exact Or.inr ⟨hworld.trans hdisposed, fun r hr => (Option.some.inj (hplanted.symm.trans hr)).symm⟩
    · rw [if_neg hvt] at hdisposed
      rw [if_neg fun heq => hvt heq.1] at hplanted
      exact Or.inl (hplanted.trans hdisposed)

/-- **A top** is new when a tree is attached. -/
theorem Strides.tops : g.watchers.size ≤ g'.watchers.size ∧
    ∀ {t r}, g'.treeRoot t = some r → g.treeRoot t = some r ∨ r = g.watchers.size := by
  refine ⟨hs.size_le h, fun {t r} hr => ?_⟩
  rcases hs.roots h t with hsame | ⟨-, hnew⟩
  · exact Or.inl (hsame ▸ hr)
  · exact Or.inr (hnew r hr)

/-- An attached tree keeps its top, if the step that the stride begins with leaves it attached. -/
theorem Strides.stays {t : TreeId} (hattached : (L.step (machine g (u :: rest) st)).world.isAttached t = true) :
    g'.treeRoot t = g.treeRoot t := by
  rcases hs.roots h t with hsame | ⟨hdown, -⟩
  · exact hsame
  · rw [World.isAttached, hdown] at hattached
    cases hattached

/-- **What fires** fires at once, for an attachment that is in place. -/
theorem Strides.poised (hrest : ∀ v ∈ rest, v.isFire = false) :
    (∀ v ∈ (tasks ++ rest).tail, v.isFire = false) ∧
      ∀ site batch, (tasks ++ rest).head? = some (.fire site batch) → g'.treeRoot site.tree = some site.top := by
  have hquiet : ∀ {tasks : List (Task κ)}, (∀ v ∈ tasks, v.isFire = false) →
      (∀ v ∈ (tasks ++ rest).tail, v.isFire = false) ∧
        ∀ site batch, (tasks ++ rest).head? = some (.fire site batch) → g'.treeRoot site.tree = some site.top := by
    intro tasks htasks
    have hall : ∀ v ∈ tasks ++ rest, v.isFire = false :=
      fun v hv => (List.mem_append.mp hv).elim (htasks v) (hrest v)
    refine ⟨fun v hv => hall v (List.mem_of_mem_tail hv), fun site batch hhead => ?_⟩
    cases hall _ (List.mem_of_head? hhead)
  cases hs with
  | pass hcarry htells hreach => exact hquiet htells.fires
  | @follow s id w i p plan site b batch hu hw hid hentry =>
    refine ⟨fun v hv => ?_, fun site' batch' hhead => ?_⟩
    · simp only [firing, List.cons_append, List.nil_append, List.tail_cons, List.mem_cons] at hv
      rcases hv with rfl | rfl | hv
      · rfl
      · rfl
      · exact hrest v hv
    · cases hhead
      have hroot := h.site_rooted hw rfl
      rcases h.refollow_cases (i := i) (p := p) hw with ⟨-, hsame⟩ | ⟨c, -, -, -, hre⟩
      · rwa [hsame]
      · rwa [World.treeRoot_congr hre.trees]
  | take hu hw hid =>
    subst hu
    have hre := Stable.regathered h hw
    refine ⟨fun v hv => ?_, fun site' batch' hhead => ?_⟩
    · simp only [List.cons_append, List.nil_append, List.tail_cons, List.mem_cons] at hv
      rcases hv with rfl | hv
      · rfl
      · exact hrest v hv
    · cases hhead
      rw [World.treeRoot_congr hre.trees]
      exact h.site_rooted hw rfl
  | uproot => exact hquiet (by simp)
  | plant hu htree hcontext => exact hquiet (by simp [Task.isFire])

end

/-! ### Along a run -/

/-- Only the most urgent task may fire, and then for an attachment that is in place. -/
def Machine.Poised (m : Machine κ σ) : Prop :=
  (∀ v ∈ m.agenda.tail, v.isFire = false) ∧
    ∀ site batch, m.agenda.head? = some (.fire site batch) → m.world.treeRoot site.tree = some site.top

/-- The watcher `r` was there, and is not at the top of any tree. -/
def World.Retired (g : World κ) (r : WatcherId) : Prop :=
  r < g.watchers.size ∧ ∀ t, g.treeRoot t ≠ some r

theorem Strides.retired {g g' : World κ} {u : Task κ} {rest tasks : List (Task κ)} {st s' : σ}
    {missed : SubscriptionId → List ObjectId} (h : Stable g (u :: rest) missed)
    (hs : Strides L g st u rest g' tasks s') {r : WatcherId} (hr : g.Retired r) : g'.Retired r := by
  obtain ⟨hsize, htops⟩ := hs.tops h
  refine ⟨lt_of_lt_of_le hr.1 hsize, fun t ht => ?_⟩
  rcases htops ht with hold | heq
  · exact hr.2 t hold
  · exact absurd hr.1 (heq ▸ lt_irrefl _)

/-- What holds where no watcher is being bound, if no code is hooked on subscriptions. -/
structure Machine.Settles (m : Machine κ σ) : Prop where
  stable : ∃ missed, Stable m.world m.agenda missed
  poised : m.Poised

theorem Machine.Settles.empty (s : σ) : (machine {} [] s : Machine κ σ).Settles :=
  ⟨⟨_, stable_empty⟩, ⟨fun _ hv => absurd hv List.not_mem_nil, fun _ _ hhead => nomatch hhead⟩⟩

theorem Machine.Settles.ask {g : World κ} {s : σ} (h : (machine g [] s).Settles) (requests : List (Request κ))
    (s' : σ) : (machine g (requests.map .request) s').Settles := by
  obtain ⟨missed, hstable⟩ := h.stable
  have hidle : ∀ v ∈ requests.map Task.request, v.isDelivery = false ∧ v.isBinding = false ∧ v.isFire = false := by
    intro v hv
    obtain ⟨r, -, rfl⟩ := List.mem_map.mp hv
    exact ⟨rfl, rfl, rfl⟩
  refine ⟨⟨missed, ?_⟩, fun v hv => (hidle v (List.mem_of_mem_tail hv)).2.2, fun site batch hhead => ?_⟩
  · have hasked : Stable g (requests.map .request ++ []) missed :=
      hstable.prepend fun v hv => ⟨(hidle v hv).1, (hidle v hv).2.1⟩
    rwa [List.append_nil] at hasked
  · cases (hidle _ (List.mem_of_head? hhead)).2.2

theorem Machine.Settles.stride {g : World κ} {u : Task κ} {rest : List (Task κ)} {s : σ}
    (h : (machine g (u :: rest) s).Settles) (hhook : (machine g (u :: rest) s).hooks = false) :
    ∃ g' tasks s', Strides L g s u rest g' tasks s' ∧
      Works L (L.step (machine g (u :: rest) s)) (machine g' (tasks ++ rest) s') ∧
        (machine g' (tasks ++ rest) s').Settles := by
  obtain ⟨missed, hstable⟩ := h.stable
  obtain ⟨g', tasks, s', hs, hworks, hstable'⟩ := hstable.strides (L := L) s hhook
  exact ⟨g', tasks, s', hs, hworks, ⟨_, hstable'⟩, hs.poised hstable h.poised.1⟩

theorem Run.settles {past : List (Machine κ σ)} {m : Machine κ σ} (h : Run L past m)
    (hhooks : ∀ n ∈ past, n.hooks = false) :
    ∃ k, Works L m k ∧ k.Settles := by
  obtain ⟨s, hresumes⟩ := h.resumes
  refine hresumes.keeps ⟨_, .done _, .empty s⟩ (fun hk => hk.ask) fun _ hsub hk => ?_
  obtain ⟨g', tasks, s', -, hworks, hsettles⟩ := hk.stride (L := L) (hhooks _ (hsub List.mem_cons_self))
  exact ⟨_, hworks, hsettles⟩

/-- **A top that is retired** stays so, and nothing fires for it. -/
theorem Resumes.retired {later : List (Machine κ σ)} {m₀ m : Machine κ σ} {r : WatcherId} (h : Resumes L m₀ later m)
    (h₀ : ∃ k, Works L m₀ k ∧ k.Settles ∧ k.world.Retired r) (hhooks : ∀ n ∈ later, n.hooks = false) :
    ∃ k, Works L m k ∧ k.Settles ∧ k.world.Retired r := by
  refine h.keeps h₀ (fun hk requests s' => ⟨hk.1.ask requests s', hk.2⟩) fun _ hsub hk => ?_
  obtain ⟨missed, hstable⟩ := hk.1.stable
  obtain ⟨g', tasks, s', hs, hworks, hsettles⟩ := hk.1.stride (L := L) (hhooks _ (hsub List.mem_cons_self))
  exact ⟨_, hworks, hsettles, hs.retired hstable hk.2⟩

theorem Resumes.never_fires {later : List (Machine κ σ)} {m₀ m : Machine κ σ} {r : WatcherId} (h : Resumes L m₀ later m)
    (h₀ : ∃ k, Works L m₀ k ∧ k.Settles ∧ k.world.Retired r) (hhooks : ∀ n ∈ later, n.hooks = false)
    {site : Attachment} {batch : Batch κ} (hfire : m.agenda.head? = some (.fire site batch)) : site.top ≠ r := by
  obtain ⟨k, hworks, hsettles, hretired⟩ := h.retired h₀ hhooks
  cases hworks with
  | done =>
    intro heq
    exact hretired.2 site.tree (heq ▸ hsettles.poised.2 site batch hfire)
  | step hm ht =>
    rw [hm] at hfire
    cases hfire
    cases ht

end LiveRules
