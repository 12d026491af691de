/-
# Property bindings stay consistent

A property binding sets a property of the context to the value of its source, and it
alone writes the property. Bindings may feed one another, also in a circle, and they are
carried out one after the other, on values that are about to change again. Still, what
was consistent at rest is so at every later rest: a change along its paths makes the
binding due, what is due stays due until its turn, and at its turn the property gets
the value that the source has then.

Key definitions: `Language.ValueReads`, `PropertyBinding.InForce`,
`PropertyBinding.Holds`.
Key theorems: `PropertyBinding.InForce.tracks_stride`, `bindings_stay_consistent`.
-/
import LiveRules.Proofs.Coherence.Due

namespace LiveRules

variable {κ σ : Type} {L : Language κ σ}

/-! ### What is written is read -/

namespace World

variable {g : World κ} (hg : g.Sane) {o : ObjectId} (p : String) {v : Value}

include hg

theorem Sane.read_write (ho : g.hasObject o = true) (hv : g.hasValue v = true) : (g.write o p v).1.read o p = v := by
  have hholder : (g.store o p v).holder o p = g.holder o p := (hg.store o p hv).holder hg p ho
  have hknown : g.hasObject (g.holder o p) = true := hg.hasValue_home (s := .object o) ho p
  obtain ⟨x, hx⟩ : ∃ x, g.objects[g.holder o p]? = some x :=
    ⟨_, Array.getElem?_eq_getElem (decide_eq_true_eq.mp hknown)⟩
  have hread : (g.write o p v).1.read o p = (g.store o p v).ownValue (g.holder o p) p := by
    rw [← hholder]
    rfl
  rw [hread]
  simp [ownValue, World.store, modifyObject, Array.getElem?_modify, hx, Table.get?_set]

theorem Sane.read_set (ho : g.hasObject o = true) (hv : g.hasValue v = true) : (g.set o p v).1.read o p = v := by
  unfold World.set
  split
  · assumption
  · exact hg.read_write p ho hv

end World

/-! ### Bindings -/

/-- The value of a source on the context is a matter of what can be read along the paths,
and of nothing else. -/
def Language.ValueReads (L : Language κ σ) (source : κ) (paths : List Path) (context : ObjectId) : Prop :=
  ∀ (scene scene' : Scene κ) (s s' : σ), (∀ p ∈ paths, scene.world.Agrees scene'.world p.word (.object context)) →
    L.value source context scene' s' = L.value source context scene s

namespace PropertyBinding

variable (b : PropertyBinding κ)

/-- The property has the value of the source. -/
def Holds (L : Language κ σ) (context : ObjectId) (m : Machine κ σ) : Prop :=
  m.world.read context b.property = L.value b.source context m.toScene m.state

/-- The binding is carried out on the context. -/
def turn (context : ObjectId) : Task κ :=
  .perform (.assign b.source b.property) context

/-- The binding is among the live rules, its source reads along its paths, and nobody else
changes the property in any of the steps `later`. -/
structure InForce (L : Language κ σ) (roster : Roster (Action κ)) (context : ObjectId) (later : List (Machine κ σ)) :
    Prop where
  live : ∃ e ∈ roster.live, e.rule = b.rule
  reads : ∀ paths, b.paths.resolve = .ok paths → L.ValueReads b.source paths context
  /-- What the source yields at its turn exists. -/
  yields : ∀ n ∈ later, n.agenda.head? = some (b.turn context) →
    n.world.hasValue (L.value b.source context n.toScene n.state) = true
  alone : ∀ n ∈ later, n.agenda.head? = some (b.turn context) ∨
    (L.step n).world.read context b.property = n.world.read context b.property

/-- The binding, which is the rule `id` of the attachment, is due or holds, unless the
attachment has ended. -/
def Tracks (L : Language κ σ) (id : ActionId) (site : Attachment) (plan : WatchPlan κ) (m : Machine κ σ) : Prop :=
  m.world.Retired site.top ∨ m.world.Stands site plan ∧
    (m.world.Due site (id, .assign b.source b.property) m.agenda ∨ b.Holds L site.context m)

variable {b} {roster : Roster (Action κ)} {context : ObjectId} {later : List (Machine κ σ)} {paths : List Path}

/-- A binding that holds still does when nothing along its paths has changed, and neither
has the property. -/
theorem Holds.congr {m m' : Machine κ σ} (h : b.Holds L context m) (hreads : L.ValueReads b.source paths context)
    (hagrees : ∀ p ∈ paths, m.world.Agrees m'.world p.word (.object context))
    (hread : m'.world.read context b.property = m.world.read context b.property) : b.Holds L context m' :=
  hread.trans (Eq.trans h (hreads _ _ _ _ hagrees).symm)

theorem Tracks.ask {id : ActionId} {site : Attachment} {plan : WatchPlan κ} {g : World κ} {s : σ}
    (h : b.Tracks L id site plan (machine g [] s)) (hreads : L.ValueReads b.source paths site.context)
    (requests : List (Request κ)) (s' : σ) : b.Tracks L id site plan (machine g (requests.map .request) s') := by
  rcases h with hretired | ⟨hstands, ⟨u, hu, -⟩ | hholds⟩
  · exact Or.inl hretired
  · cases hu
  · exact Or.inr ⟨hstands, Or.inr (hholds.congr hreads (fun p _ => World.agrees_of_outline rfl _ _) rfl)⟩

section

variable {g g' : World κ} {u : Task κ} {rest tasks : List (Task κ)} {s s' : σ} {site : Attachment} {plan : WatchPlan κ}
  (hforce : b.InForce L roster site.context later) (hmem : machine g (u :: rest) s ∈ later)
  (h : Stable g (u :: rest) fun _ => []) (hs : Strides L g s u rest g' tasks s')

include hforce hmem h hs

/-- **At its turn** a binding sets the property to the value of its source. -/
theorem InForce.read_turn (hstands : g.Stands site plan) (hturn : u = b.turn site.context) :
    g'.read site.context b.property = L.value b.source site.context (machine g (u :: rest) s).toScene s := by
  subst hturn
  have hv : g.hasValue (L.value b.source site.context (machine g (b.turn site.context :: rest) s).toScene s) = true :=
    hforce.yields _ hmem rfl
  have hworld := congrArg Effect.world hs.performed
  simp only [Language.perform] at hworld
  rw [← hworld]
  simp only [turn, machine] at hv ⊢
  simp only [hv, if_true]
  exact h.grown.sane.read_set _ (hstands.hasObject h) hv

/-- **After every stride** a binding is due or holds. -/
theorem InForce.tracks_stride {id : ActionId} (hpaths : b.paths.resolve = .ok paths)
    (hserves : ∀ p ∈ paths, (Watcher.object plan site none).Serves (id, .assign b.source b.property) p.word)
    (hplan : plan.Cumulative) (hfree : ∀ x ∈ g.collections, x.free = false)
    (h' : Stable g' (tasks ++ rest) fun _ => []) (htracks : b.Tracks L id site plan (machine g (u :: rest) s)) :
    b.Tracks L id site plan (machine g' (tasks ++ rest) s') := by
  rcases htracks with hretired | ⟨hstands, htracks⟩
  · exact Or.inl (hs.retired h hretired)
  rcases hs.stands_or_retired h h' hstands hplan with ⟨hroot, hstands'⟩ | hretired
  · refine Or.inr ⟨hstands', ?_⟩
    rcases hs.due_or_agrees h hfree hstands hplan hroot (id, .assign b.source b.property) with hdue | ⟨hdue, hagrees⟩
    · exact Or.inl hdue
    · have hreads := hforce.reads paths hpaths
      have hagrees' : ∀ p ∈ paths, g.Agrees g' p.word (.object site.context) := fun p hp => hagrees _ (hserves p hp)
      by_cases hturn : u = b.turn site.context
      · -- the value that was written is what the source yields still
        have hvalue := hreads (machine g (u :: rest) s).toScene (machine g' (tasks ++ rest) s').toScene s s' hagrees'
        exact Or.inr ((hforce.read_turn hmem h hs hstands hturn).trans hvalue.symm)
      · have hholds := htracks.resolve_left fun hbefore => hturn (hdue hbefore)
        exact Or.inr (hholds.congr hreads hagrees' (hs.read_alone h (hforce.alone _ hmem) hturn))
  · exact Or.inl hretired

end

end PropertyBinding

/-- **Property bindings stay consistent.** A tree of a binder with any number of bindings
among its rules is attached, each binding reads along its paths and alone writes its
property. If all bindings hold at one rest, then they hold at every later rest at which
the tree is attached still, whatever was asked for, written and attached meanwhile. No
code is hooked on subscriptions, every collection tells of what happens to its members, and
changes are told of one after the other. -/
theorem bindings_stay_consistent {past later : List (Machine κ σ)} {g₀ g : World κ} {s₀ s : σ}
    (h : Run L past (machine g₀ [] s₀)) (h' : Resumes L (machine g₀ [] s₀) later (machine g [] s))
    (hhooks : ∀ n ∈ later ++ past, n.hooks = false) (hnest : ∀ n ∈ later ++ past, ¬ n.Nests L)
    (hfree : ∀ x ∈ g.collections, x.free = false) (ops : List (Operation κ)) {t : TreeId} {tree : Tree κ}
    (htree : g₀.trees[t]? = some tree) (hplan : tree.plan = (history ops).1.plan) {context : ObjectId}
    (hcontext : g₀.contextOf t = some context) (hroot : g.treeRoot t = g₀.treeRoot t)
    (bindings : List (PropertyBinding κ)) (hforce : ∀ b ∈ bindings, b.InForce L (history ops).2 context later)
    (h₀ : ∀ b ∈ bindings, b.Holds L context (machine g₀ [] s₀)) :
    ∀ b ∈ bindings, b.Holds L context (machine g [] s) := by
  intro b hb
  have hstable : Stable g₀ [] fun _ => [] :=
    h.mirrored (fun n hn => hhooks n (List.mem_append_right _ hn)) fun n hn => hnest n (List.mem_append_right _ hn)
  obtain ⟨e, he, hrule⟩ := (hforce b hb).live
  obtain ⟨paths, htriggers⟩ := (history_kept ops).accepted e he
  have hpaths : b.paths.resolve = .ok paths := by
    rw [hrule] at htriggers
    exact htriggers
  -- the attachment is in place
  obtain ⟨r, hr, hsite⟩ : ∃ r, g₀.treeRoot t = some r ∧ g₀.watchers[r]?.map (·.site.context) = some context :=
    Option.bind_eq_some_iff.mp hcontext
  obtain ⟨tree', htree', hr'⟩ := Option.bind_eq_some_iff.mp hr
  obtain rfl : tree = tree' := Option.some.inj (htree.symm.trans htree')
  obtain ⟨context', bound, htop, hsubject⟩ := hstable.rooted t tree r htree hr'
  obtain rfl : context' = context := by
    rw [htop] at hsite
    exact Option.some.inj hsite
  have hserves : ∀ p ∈ paths, (Watcher.object tree.plan { tree := t, top := r, context := context' } none).Serves
      (e.id, .assign b.source b.property) p.word := by
    intro p hp
    have hserves := (history_kept ops).serves he htriggers hp { tree := t, top := r, context := context' } none
    rw [hrule] at hserves
    rw [hplan]
    exact hserves
  have hcumulative : tree.plan.Cumulative := hplan ▸ Forest.cumulative_compile _ _
  have htracks : b.Tracks L e.id { tree := t, top := r, context := context' } tree.plan (machine g [] s) := by
    refine h.keeps h' hhooks hnest (by simp [machine]) (Or.inr ⟨⟨hr, bound, htop, hsubject⟩, Or.inr (h₀ b hb)⟩)
      (fun htracks requests s' => htracks.ask ((hforce b hb).reads paths hpaths) requests s') ?_
    intro g₁ u rest s₁ g₂ tasks s₂ hmem hstable₁ hs hstable₂ htracks
    have hfree₁ : ∀ x ∈ g₁.collections, x.free = false := (h'.outlives.2 _ hmem).2.unfree hfree
    exact (hforce b hb).tracks_stride hmem hstable₁ hs hpaths hserves hcumulative hfree₁ hstable₂ htracks
  rcases htracks with hretired | ⟨-, ⟨u, hu, -⟩ | hholds⟩
  · exact absurd (hroot.trans hr) (hretired.2 t)
  · cases hu
  · exact hholds

/-! ### Two copies in a row -/

/-- Sources and conditions that name a property of the context and read it. -/
def fields : Language String Unit where
  run _ _ _ s := (s, [])
  value source o scene _ := scene.world.read o source
  test condition o _ scene s := ((scene.world.read o condition).isTrue, s)

def copy (source target : String) : PropertyBinding String :=
  { paths := .steps [.property source], source, target, property := target }

def copies : List (PropertyBinding String) :=
  [copy "first" "second", copy "second" "third"]

def copying : Binder String × Roster (Action String) :=
  history (copies.map .bind)

theorem copying_live : copying.2.live = [⟨0, (copy "first" "second").rule⟩, ⟨1, (copy "second" "third").rule⟩] := by
  rfl

/-- Both copies are attached to a context in which nothing is set. -/
def attachedCopies : List (Machine String Unit) × Machine String Unit :=
  fields.trail 15 []
    (machine {} ([.newObject "context" [] none [], .newTree copying.1.plan, .attach 0 0].map .request) ())

theorem attachedCopies_run : Run fields attachedCopies.1 (machine attachedCopies.2.world [] ()) :=
  ((Run.start ()).ask _ ()).trail 15

/-- Then the first property is written. -/
def copied : List (Machine String Unit) × Machine String Unit :=
  fields.trail 16 [] (machine attachedCopies.2.world ([.write 0 "first" (.int 7)].map .request) ())

theorem copied_resumes :
    Resumes fields (machine attachedCopies.2.world [] ()) copied.1 (machine copied.2.world [] ()) :=
  (Resumes.here.ask _ ()).trail 16

theorem copied_quiet : ∀ n ∈ copied.1 ++ attachedCopies.1, n.hooks = false ∧ ¬ n.Nests fields :=
  Machine.quiet_of_all (by decide +kernel)

/-- The source of a copy reads along its path, whatever else the code does. -/
theorem copy_reads {L : Language String Unit} (hvalue : L.value = fields.value) (source target : String) {path : Path}
    (hword : path.word = [.field source]) {paths : List Path} (hpath : path ∈ paths) (context : ObjectId) :
    L.ValueReads (copy source target).source paths context := by
  intro scene scene' s s' hagrees
  have hagree := hagrees path hpath
  rw [hword] at hagree
  rw [hvalue]
  exact (hagree (.object context) rfl).1

/-- It is the copy's turn on the first object. -/
def isTurn (source target : String) : List (Task String) → Bool
  | .perform (.assign k p) o :: _ => k = source && p = target && o = 0
  | _ => false

theorem head?_of_isTurn {source target : String} {agenda : List (Task String)}
    (h : isTurn source target agenda = true) : agenda.head? = some ((copy source target).turn 0) := by
  unfold isTurn at h
  split at h
  · simp only [Bool.and_eq_true, decide_eq_true_eq] at h
    obtain ⟨⟨rfl, rfl⟩, rfl⟩ := h
    rfl
  · cases h

/-- The copy reads what exists, and only its turn changes its target. -/
def spares (L : Language String Unit) (source target : String) (n : Machine String Unit) : Bool :=
  n.world.hasValue (n.world.read 0 source) &&
    (isTurn source target n.agenda || (L.step n).world.read 0 target = n.world.read 0 target)

theorem copy_inForce {L : Language String Unit} (hvalue : L.value = fields.value) {roster : Roster (Action String)}
    {source target : String} {path : Path} (hresolve : (copy source target).paths.resolve = .ok [path])
    (hword : path.word = [.field source]) (hlive : ∃ e ∈ roster.live, e.rule = (copy source target).rule)
    {later : List (Machine String Unit)} (hall : later.all (spares L source target) = true) :
    (copy source target).InForce L roster 0 later := by
  have hspares : ∀ n ∈ later, n.world.hasValue (n.world.read 0 source) = true ∧ (isTurn source target n.agenda = true ∨
      (L.step n).world.read 0 target = n.world.read 0 target) := by
    simpa only [spares, List.all_eq_true, Bool.and_eq_true, Bool.or_eq_true, decide_eq_true_eq] using hall
  refine ⟨hlive, fun paths hpaths => ?_, fun n hn _ => ?_, fun n hn => ?_⟩
  · obtain rfl : [path] = paths := Except.ok.inj (hresolve.symm.trans hpaths)
    exact copy_reads hvalue source target hword List.mem_cons_self 0
  · rw [hvalue]
    exact (hspares n hn).1
  · exact (hspares n hn).2.imp_left head?_of_isTurn

theorem copies_inForce {later : List (Machine String Unit)}
    (hsecond : later.all (spares fields "first" "second") = true)
    (hthird : later.all (spares fields "second" "third") = true) :
    ∀ b ∈ copies, b.InForce fields copying.2 0 later := by
  intro b hb
  simp only [copies, List.mem_cons, List.not_mem_nil, or_false] at hb
  rcases hb with rfl | rfl
  · exact copy_inForce rfl rfl rfl ⟨_, copying_live ▸ List.mem_cons_self, rfl⟩ hsecond
  · exact copy_inForce rfl rfl rfl ⟨_, copying_live ▸ List.mem_cons_of_mem _ List.mem_cons_self, rfl⟩ hthird

theorem attachedCopies_tree : attachedCopies.2.world.trees[0]? = some { plan := copying.1.plan, root := some 0 } := by
  rfl

theorem attachedCopies_holds : ∀ b ∈ copies, b.Holds fields 0 (machine attachedCopies.2.world [] ()) := by
  intro b hb
  simp only [copies, List.mem_cons, List.not_mem_nil, or_false] at hb
  rcases hb with rfl | rfl <;> rfl

/-- What was written to the first property has arrived in the third. -/
theorem bindings_stay_consistent_copies : copied.2.world.read 0 "third" = .int 7 ∧
    ∀ b ∈ copies, b.Holds fields 0 (machine copied.2.world [] ()) :=
  ⟨by decide +kernel, bindings_stay_consistent attachedCopies_run copied_resumes (fun n hn => (copied_quiet n hn).1)
    (fun n hn => (copied_quiet n hn).2) (by decide +kernel) (copies.map .bind) attachedCopies_tree rfl rfl rfl copies
    (copies_inForce (by decide +kernel) (by decide +kernel)) attachedCopies_holds⟩

end LiveRules
