/-
# A rule that is due

A rule of an attached tree is *due* while a task on the agenda brings it: the rule is
to be performed, its batch is to be fired, or a watcher whose batch has it is still to
be told. The rule stays due until it is its turn, whatever is watched anew meanwhile.
And if it is not due after a stride, then nothing that can be read along its paths has
changed in that stride.

Key definitions: `World.Agrees`, `World.Brings`, `World.Due`, `World.Stands`.
Key theorems: `Stable.agrees`, `Strides.due_or_agrees`.
-/
import LiveRules.Proofs.Coherence.Serving
import LiveRules.Proofs.Disposal.Tops
import LiveRules.Proofs.Firing.Idling
import LiveRules.Proofs.Machine.Lasting
import LiveRules.Proofs.Mirror.Mirror

namespace LiveRules

variable {κ σ : Type} {L : Language κ σ}

/-! ### What can be read along a word -/

theorem Subject.subject?_value (s : Subject) : s.value.subject? = some s := by
  cases s <;> rfl

namespace World

/-- What can be read along the word, from the value on, is in `g'` what it is in `g`. -/
def Agrees (g g' : World κ) : List Label → Value → Prop
  | [], _ => True
  | .field n :: w, v => ∀ s, v.subject? = some s →
      g'.memberValue s n = g.memberValue s n ∧ g.Agrees g' w (g.memberValue s n)
  | .member :: w, v => ∀ c, v.collection? = some c →
      g'.itemsOf c = g.itemsOf c ∧ ∀ o ∈ g.itemsOf c, g.Agrees g' w (.object o)

theorem agrees_of_same {g g' : World κ} (hvalue : ∀ s n, g'.memberValue s n = g.memberValue s n)
    (hitems : ∀ c, g'.itemsOf c = g.itemsOf c) (w : List Label) (v : Value) : g.Agrees g' w v := by
  induction w generalizing v with
  | nil => trivial
  | cons k w ih =>
    cases k with
    | field n => exact fun s _ => ⟨hvalue s n, ih _⟩
    | member => exact fun c _ => ⟨hitems c, fun o _ => ih _⟩

theorem agrees_of_outline {g g' : World κ} (h : g'.outline = g.outline) (w : List Label) (v : Value) :
    g.Agrees g' w v :=
  agrees_of_same (memberValue_congr h) (itemsOf_congr h) w v

/-- Only a value of the kind that the watcher looks into can be read into. -/
theorem Agrees.of_seen {g g' : World κ} {e : ActionId × Action κ} {w : List Label} {x : Watcher κ} {v : Value}
    (hx : x.Serves e w) (h : ∀ v', x.seen v = some v' → g.Agrees g' w v') : g.Agrees g' w v := by
  cases w with
  | nil => trivial
  | cons k w =>
    cases k with
    | field n =>
      obtain ⟨plan, site, bound, i, batch, rfl, -⟩ := hx
      intro s hs
      exact h s.value (by simp [Watcher.seen, hs]) s s.subject?_value
    | member =>
      obtain ⟨item, membership, site, bound, rfl, -⟩ := hx
      intro c hc
      exact h (.collection c) (by simp [Watcher.seen, hc]) c rfl

/-! ### What brings a rule -/

/-- Carrying the task out leads to `e` being performed for the attachment `site`. -/
inductive Brings (g : World κ) (site : Attachment) (e : ActionId × Action κ) : Task κ → Prop
  | perform : Brings g site e (.perform e.2 site.context)
  | fire {batch : Batch κ} (he : e ∈ batch) : Brings g site e (.fire site batch)
  | deliver {w i : Nat} {id : SubscriptionId} {p : String} {plan b} {batch : Batch κ} {s : Subject} {l : Listener κ}
      (hw : g.watchers[w]? = some (.object plan site (some b))) (hid : b.subscriptions[i]? = some id)
      (hplace : plan.place? i = some (p, batch)) (he : e ∈ batch) : Brings g site e (.deliver s id l)
  | deliverChange {w : Nat} {id : SubscriptionId} {item b} {batch : Batch κ} {c : CollectionId} {l : ChangeListener κ}
      {change : Change} (hw : g.watchers[w]? = some (.collection item batch site (some b)))
      (hid : b.subscription = id) (he : e ∈ batch) (hne : change.isEmpty = false) :
      Brings g site e (.deliverChange c id l change)

/-- `e` is still to be performed for the attachment `site`. -/
def Due (g : World κ) (site : Attachment) (e : ActionId × Action κ) (tasks : List (Task κ)) : Prop :=
  ∃ u ∈ tasks, g.Brings site e u

theorem Due.mono {g : World κ} {site : Attachment} {e : ActionId × Action κ} {tasks tasks' : List (Task κ)}
    (h : g.Due site e tasks) (hsub : ∀ u ∈ tasks, u ∈ tasks') : g.Due site e tasks' :=
  h.imp fun u hu => ⟨hsub u hu.1, hu.2⟩

theorem Brings.congr {g g' : World κ} {site : Attachment} {e : ActionId × Action κ} {u : Task κ}
    (h : g.Brings site e u) (hwatchers : g'.watchers = g.watchers) : g'.Brings site e u := by
  cases h with
  | perform => exact .perform
  | fire he => exact .fire he
  | deliver hw hid hplace he => exact .deliver (hwatchers ▸ hw) hid hplace he
  | deliverChange hw hid he hne => exact .deliverChange (hwatchers ▸ hw) hid he hne

end World

/-! ### Telling everybody along a word -/

section

variable {g g' : World κ} {agenda tasks : List (Task κ)} {site : Attachment} {e : ActionId × Action κ}
  (h : Stable g agenda fun _ => []) (hfree : ∀ x ∈ g.collections, x.free = false) (hnot : ¬ g.Due site e agenda)
  (htells : Tells g g' tasks) (htold : ¬ g.Due site e tasks)

include h htells htold

/-- A property that a watcher has `e` on the list of is what it was, unless the watcher is told. -/
theorem Stable.agrees_property {w i : Nat} {plan b} (hw : g.watchers[w]? = some (.object plan site (some b)))
    {n : String} {batch : Batch κ} (hplace : plan.place? i = some (n, batch)) (he : e ∈ batch) :
    g'.memberValue b.subject n = g.memberValue b.subject n := by
  have hlt : i < b.subscriptions.length := by
    rw [(h.complete w).plan hw, ← Plan.place?_isSome, hplace]
    rfl
  obtain ⟨id, hid⟩ : ∃ id, b.subscriptions[i]? = some id := ⟨_, List.getElem?_eq_getElem hlt⟩
  have hlistens : (id, Listener.member w i) ∈ g.listeners (g.home b.subject n) n :=
    h.grown.member.mpr ⟨b.subject, batch, ⟨plan, site, b, hw, hid, hplace, rfl⟩, rfl⟩
  refine (htells.value b.subject n (h.grown.known hw rfl)).resolve_right fun hround => htold ?_
  exact ⟨_, hround _ (World.mem_round.mpr ⟨_, hlistens, rfl⟩), .deliver hw hid hplace he⟩

include hfree hnot

/-- A collection that a watcher has `e` on the list of has the members it had, unless the
watcher is told, and each of them is watched. -/
theorem Stable.agrees_members {w : Nat} {item b} {batch : Batch κ}
    (hw : g.watchers[w]? = some (.collection item batch site (some b))) (he : e ∈ batch) :
    g'.itemsOf b.collection = g.itemsOf b.collection ∧ (item.isNil = false → ∀ o ∈ g.itemsOf b.collection,
      ∃ (d : Nat) (x : Watcher κ), g.watchers[d]? = some x ∧ x.dormant = .object item site none ∧
        x.target = some (.object o)) := by
  have hknown : g.hasValue (.collection b.collection) = true := h.grown.known hw rfl
  constructor
  · have hitems : g'.listOf b.collection = some (g.itemsOf b.collection) := by
      refine (htells.members _ _ (World.listOf_itemsOf hfree hknown)).resolve_right ?_
      rintro ⟨change, hne, hround⟩
      have hlistens : (b.subscription, ChangeListener.membership w) ∈ g.listenersOfCollection b.collection :=
        h.grown.membership.mpr ⟨item, batch, site, b, hw, rfl, rfl⟩
      exact htold ⟨_, hround _ (World.mem_changeRound.mpr (Or.inl ⟨_, hlistens, rfl⟩)), .deliverChange hw rfl he hne⟩
    exact World.itemsOf_of_listOf hitems
  · intro hitem o ho
    -- news that is pending for the watcher would bring `e`, so it tells of nobody
    have hempty : ∀ u ∈ agenda, u.joins b.subscription = [] ∧ u.leaves b.subscription = [] := by
      intro u hu
      cases u with
      | deliverChange c id l change =>
        by_cases hid : id = b.subscription
        · subst hid
          cases hchange : change.isEmpty with
          | false => exact absurd ⟨_, hu, .deliverChange hw rfl he hchange⟩ hnot
          | true =>
            simp only [Change.isEmpty, Bool.and_eq_true, List.isEmpty_iff] at hchange
            simp [Task.joins, Task.leaves, hchange]
        · simp [Task.joins, Task.leaves, hid]
      | _ => exact ⟨rfl, rfl⟩
    have hperm := h.watched_perm hw hitem hfree (List.flatMap_eq_nil_iff.mpr fun u hu => (hempty u hu).1)
      (List.flatMap_eq_nil_iff.mpr fun u hu => (hempty u hu).2)
    obtain ⟨d, hd, rfl⟩ := List.mem_map.mp (hperm.mem_iff.mpr ho)
    obtain ⟨x, hx, hdormant⟩ := h.grown.items hw d hd
    obtain ⟨y, hy, htarget⟩ := (h.complete w).items hw d hd
    rw [hx] at hy
    cases hy
    exact ⟨d.2, x, hx, hdormant, htarget⟩

/-- **Along a word** that a watcher has `e` on all lists of, everything is what it was. -/
theorem Stable.agrees (word : List Label) : ∀ {w : Nat} {x : Watcher κ}, g.watchers[w]? = some x → x.site = site →
    x.Serves e word → ∀ v, x.target = some v → g.Agrees g' word v := by
  induction word with
  | nil => exact fun _ _ _ _ _ => trivial
  | cons k word ih =>
    intro w x hw hsite hserves v htarget
    cases k with
    | field n =>
      obtain ⟨plan, site', bound, i, batch, rfl, hplace, he, hinside⟩ := hserves
      obtain rfl : site' = site := hsite
      cases bound with
      | none => cases htarget
      | some b =>
        cases htarget
        intro s hs
        obtain rfl : b.subject = s := Option.some.inj (b.subject.subject?_value.symm.trans hs)
        refine ⟨h.agrees_property htells htold hw hplace he, ?_⟩
        cases word with
        | nil => trivial
        | cons j word =>
          obtain ⟨y, hy, hserves⟩ := hinside (List.cons_ne_nil _ _)
          have hlt : i < b.subscriptions.length := by
            rw [(h.complete w).plan hw, ← Plan.place?_isSome, hplace]
            rfl
          have hchild : i < b.children.length := by rwa [h.grown.paired hw]
          obtain ⟨c, hc⟩ : ∃ c, b.children[i]? = some c := ⟨_, List.getElem?_eq_getElem hchild⟩
          have hposted := h.grown.posts hw i c hc
          rw [hy] at hposted
          cases c with
          | none => cases hposted
          | some c =>
            obtain ⟨z, hz, hdormant⟩ := hposted
            cases hdormant
            have hfresh := h.fresh hw i _ (List.getElem?_eq_getElem hlt) (fun ⟨s, l, hm⟩ =>
              hnot ⟨_, hm, .deliver hw (List.getElem?_eq_getElem hlt) hplace he⟩)
            obtain ⟨z', hz', hsees⟩ := hfresh c n batch hc hplace
            rw [hz] at hz'
            cases hz'
            have hz'' := Watcher.serves_dormant z.dormant_dormant hserves
            refine World.Agrees.of_seen hz'' fun v' hv' => ih hz ?_ hz'' v' (hsees.trans hv')
            rw [← z.site_dormant]
            exact Plan.site_post? hy
    | member =>
      obtain ⟨item, batch, site', bound, rfl, he, hserves⟩ := hserves
      obtain rfl : site' = site := hsite
      cases bound with
      | none => cases htarget
      | some b =>
        cases htarget
        intro c hc
        cases hc
        obtain ⟨hsame, hwatched⟩ := h.agrees_members hfree hnot htells htold hw he
        refine ⟨hsame, fun o ho => ?_⟩
        cases word with
        | nil => trivial
        | cons j word =>
          obtain ⟨d, x, hx, hdormant, hbound⟩ := hwatched hserves.isNil_eq_false o ho
          refine ih hx ?_ (Watcher.serves_dormant (x := .object item site' none) hdormant.symm hserves) _ hbound
          rw [← x.site_dormant, hdormant]
          rfl

end

/-! ### An attachment in place -/

/-- The attachment is in place: the top of its tree watches the context by `plan`. -/
structure World.Stands (g : World κ) (site : Attachment) (plan : WatchPlan κ) : Prop where
  root : g.treeRoot site.tree = some site.top
  top : ∃ b, g.watchers[site.top]? = some (.object plan site (some b)) ∧ b.subject = .object site.context

theorem World.Stands.hasObject {g : World κ} {site : Attachment} {plan : WatchPlan κ} (h : g.Stands site plan)
    {agenda : List (Task κ)} {missed : SubscriptionId → List ObjectId} (hstable : Stable g agenda missed) :
    g.hasObject site.context = true := by
  obtain ⟨b, htop, hsubject⟩ := h.top
  have hknown : g.hasValue b.subject.value = true := hstable.grown.known htop rfl
  rwa [hsubject] at hknown

/-- Going down from a top, everything is as it was, up to the watcher that takes a change in. -/
theorem World.Regathered.kept_or_below {tops : List WatcherId} {w : Nat} {item : WatchPlan κ} {batch : Batch κ}
    {site : Attachment} {b : BoundCollection} {change : Change} {g g' : World κ}
    (h : Regathered tops w item batch site b change g g') {r x : WatcherId} (hr : r ∈ tops) (hlt : r < g.watchers.size)
    (hunder : g.Under r x) : g.Under w x ∨ g'.watchers[x]? = g.watchers[x]? := by
  induction hunder with
  | refl =>
    by_cases hrw : r = w
    · exact Or.inl (hrw ▸ .refl)
    · exact Or.inr (h.top_kept r hr hlt hrw)
  | @tail v c _ hc ih =>
    rcases ih with hv | hv
    · exact Or.inl (hv.tail hc)
    · obtain ⟨y, hy, hbound⟩ := lister_bound hc
      by_cases hvw : v = w
      · exact Or.inl (hvw ▸ .tail .refl hc)
      · by_cases hcw : c = w
        · exact Or.inl (hcw ▸ .refl)
        · exact Or.inr ((h.kept (hv.trans hy) hbound hvw (Array.getElem?_eq_some_iff.mp hy).1).2 c hc hcw)

section

variable {g : World κ} {agenda : List (Task κ)} {missed : SubscriptionId → List ObjectId} (h : Stable g agenda missed)

include h

/-- A bound watcher hangs below the top of its attachment. -/
theorem Stable.under_top {w : Nat} {x : Watcher κ} (hw : g.watchers[w]? = some x) (hbound : x.target.isSome = true) :
    x.site.top ∈ g.roots ∧ g.Under x.site.top w := by
  obtain ⟨r, hr, hunder⟩ := h.grown.hangs ⟨x, hw, hbound⟩
  obtain ⟨t, tree, htree, hroot⟩ := World.mem_roots.mp hr
  obtain ⟨context, b, htop, -⟩ := h.rooted t tree r htree hroot
  obtain ⟨y, hy, hsite⟩ := h.grown.site_of_under htop hunder
  obtain rfl : x = y := Option.some.inj (hw.symm.trans hy)
  rw [hsite]
  exact ⟨hr, hunder⟩

/-- Whatever fires in the tree of an attachment fires above it. -/
theorem Stable.cumulative {site : Attachment} {plan : WatchPlan κ} (hstands : g.Stands site plan)
    (hplan : plan.Cumulative) {w : Nat} {x : Watcher κ} (hw : g.watchers[w]? = some x)
    (hbound : x.target.isSome = true) (hsite : x.site = site) : x.Cumulative := by
  subst hsite
  obtain ⟨b, htop, -⟩ := hstands.top
  obtain ⟨y, hy, hcumulative, -⟩ := h.grown.fires_under (h.under_top hw hbound).2 htop hplan
  obtain rfl : x = y := Option.some.inj (hw.symm.trans hy)
  exact hcumulative

/-- The context of an attachment in place is alive. -/
theorem Stable.alive_context {site : Attachment} {plan : WatchPlan κ} (hstands : g.Stands site plan)
    (tasks : List (Task κ)) : Scene.alive { world := g, agenda := tasks } site.context = true := by
  obtain ⟨b, htop, -⟩ := hstands.top
  exact h.alive tasks htop rfl

/-- Taking a tree down leaves the watchers of other trees. -/
theorem Stable.watchers_dispose {t : TreeId} {w : Nat} {x : Watcher κ} (hw : g.watchers[w]? = some x)
    (hsite : x.site.tree ≠ t) : (g.dispose t).watchers[w]? = some x := by
  cases hroot : g.treeRoot t with
  | none => rwa [World.dispose_of_off hroot]
  | some r =>
    have hnot : w ∉ g.nodes r := by
      intro hmem
      have hr := World.mem_roots_of_treeRoot hroot
      obtain ⟨tree, htree, hr'⟩ := Option.bind_eq_some_iff.mp hroot
      obtain ⟨context, b, htop, -⟩ := h.rooted t tree r htree hr'
      obtain ⟨y, hy, hsite'⟩ := h.grown.site_of_under htop ((h.grown.mem_nodes (h.rooted.lt_size hr)).mp hmem)
      obtain rfl : x = y := Option.some.inj (hw.symm.trans hy)
      exact hsite (by rw [hsite']; rfl)
    rw [(h.released_dispose hroot).watchers, if_neg hnot]
    exact hw

/-- Attaching a tree leaves the watchers that are there. -/
theorem Stable.watchers_plant (t : TreeId) (plan : WatchPlan κ) {context : ObjectId}
    (hcontext : g.hasObject context = true) {w : Nat} {x : Watcher κ} (hw : g.watchers[w]? = some x) :
    (g.plantTree t plan context).watchers[w]? = some x := by
  obtain ⟨hgrown, hreb⟩ :=
    h.rebound_top (x := .object plan { tree := t, top := g.watchers.size, context } none) rfl hcontext
  have hlt : w < g.watchers.size := (Array.getElem?_eq_some_iff.mp hw).1
  have hsize : g.watchers.size <
      (g.addWatcher (.object plan { tree := t, top := g.watchers.size, context } none)).watchers.size := by
    simp [World.addWatcher]
  have hnot : w ∉
      (g.addWatcher (.object plan { tree := t, top := g.watchers.size, context } none)).nodes g.watchers.size :=
    fun hmem => absurd (hgrown.le_of_under ((hgrown.mem_nodes hsize).mp hmem)) (not_le.mpr hlt)
  have hothers := hreb.others w (hlt.trans hsize) hlt.ne
  rw [if_neg hnot] at hothers
  refine hothers.trans ?_
  simp only [World.addWatcher, Array.getElem?_push, if_neg hlt.ne]
  exact hw

end

/-! ### Along a stride -/

section

variable {g g' : World κ} {u : Task κ} {rest tasks : List (Task κ)} {st s' : σ}
    {missed : SubscriptionId → List ObjectId}
  (h : Stable g (u :: rest) missed) (hs : Strides L g st u rest g' tasks s') {site : Attachment} {plan : WatchPlan κ}
  (hstands : g.Stands site plan) (hplan : plan.Cumulative) (hroot : g'.treeRoot site.tree = some site.top)

include h hs hstands hplan hroot

/-- **A watcher of the attachment** stays as it is and subscribed as it is, or a batch is to
be fired that has all that it fires. -/
theorem Strides.kept {w : Nat} {x : Watcher κ} (hw : g.watchers[w]? = some x) (hbound : x.target.isSome = true)
    (hsite : x.site = site) : (∃ x', g'.watchers[w]? = some x' ∧ x'.dormant = x.dormant ∧ x'.ids = x.ids) ∨
      w ≠ site.top ∧ ∃ batch, Task.fire site batch ∈ tasks ∧ ∀ e, x.Fires e → e ∈ batch := by
  have htop : site.top ∈ g.roots := World.mem_roots_of_treeRoot hstands.root
  have hlt := h.rooted.lt_size htop
  have hsame : ∀ {k : World κ}, k.watchers[w]? = some x →
      ∃ x', k.watchers[w]? = some x' ∧ x'.dormant = x.dormant ∧ x'.ids = x.ids := fun hx => ⟨x, hx, rfl, rfl⟩
  cases hs with
  | pass hcarry htells hreach => exact Or.inl (hsame (htells.watchers ▸ hw))
  | @follow s id v i p plan' site' b batch hu hv hid hentry =>
    rcases h.refollow_cases (i := i) (p := p) hv with ⟨-, hsame'⟩ | ⟨c, hc, hlisted, -, hre⟩
    · exact Or.inl (hsame (hsame'.symm ▸ hw))
    · have hcsize := h.grown.lt_of_mem_listed hlisted
      by_cases hmem : w ∈ g.nodes c
      · -- what is released fires above, at the property that is followed
        have hunder : g.Under c w := (h.grown.mem_nodes hcsize).mp hmem
        obtain ⟨x', hw', hsite'⟩ := h.grown.site_of_under hv (World.Under.head.mpr (Or.inr ⟨c, hlisted, hunder⟩))
        obtain rfl : x = x' := Option.some.inj (hw.symm.trans hw')
        obtain rfl : site = site' := hsite.symm.trans hsite'
        obtain ⟨y, hy, hcumulative, hfires⟩ := h.grown.fires_child hv (h.cumulative hstands hplan hv rfl rfl)
          (BoundObject.child?_eq_some.mp hc) hentry
        obtain ⟨x', hw', -, hbelow⟩ := h.grown.fires_under hunder hy hcumulative
        obtain rfl : x = x' := Option.some.inj (hw.symm.trans hw')
        refine Or.inr ⟨fun heq => ?_, batch, List.mem_cons_self, fun e he => hfires e (hbelow e he)⟩
        obtain rfl := h.grown.eq_of_under_top htop (heq ▸ hunder)
        exact h.grown.topmost htop hlisted
      · refine Or.inl (hsame ?_)
        rw [hre.others w (Array.getElem?_eq_some_iff.mp hw).1 (fun heq => hmem ?_), if_neg hmem]
        · exact hw
        · exact heq ▸ (h.grown.mem_nodes hcsize).mpr .refl
  | @take c id v change item batch site' b hu hv hid =>
    subst hu
    have hre := h.regathered hv
    obtain ⟨items, hbooks, -⟩ := hre.books
    have hunder := (h.under_top hw hbound).2
    rw [hsite] at hunder
    rcases hre.kept_or_below htop hlt hunder with hunder | hsame'
    · by_cases hwv : w = v
      · subst hwv
        obtain rfl := Option.some.inj (hw.symm.trans hv)
        exact Or.inl ⟨_, hbooks, rfl, rfl⟩
      · obtain ⟨x', hw', hsite'⟩ := h.grown.site_of_under hv hunder
        obtain rfl : x = x' := Option.some.inj (hw.symm.trans hw')
        obtain rfl : site = site' := hsite.symm.trans hsite'
        obtain ⟨x', hw', -, hfires⟩ := h.grown.fires_under hunder hv (h.cumulative hstands hplan hv rfl rfl)
        obtain rfl : x = x' := Option.some.inj (hw.symm.trans hw')
        refine Or.inr ⟨fun heq => hwv ?_, batch, List.mem_cons_self, hfires⟩
        rw [heq]
        exact h.grown.eq_of_under_top htop (heq ▸ hunder)
    · exact Or.inl (hsame (hsame'.trans hw))
  | @uproot t g₁ hg₁ hcarry hreach =>
    obtain ⟨hstable, hwatchers, hroots, -⟩ := h.marked hg₁
    rw [World.treeRoot_dispose] at hroot
    split at hroot
    · cases hroot
    · rename_i hne
      exact Or.inl (hsame (hstable.watchers_dispose (hwatchers ▸ hw) fun heq => hne (by rw [← heq, hsite])))
  | @plant t tree context hu htree hcontext =>
    have hdisposed := h.dispose t
    have hcontext' : (g.dispose t).hasObject context = true :=
      (World.hasValue_congr (g.dispose_outline t) (.object context)).trans hcontext
    rw [(hdisposed.treeRoot_plant tree.plan hcontext').2] at hroot
    have hne : t ≠ site.tree := by
      rintro rfl
      rw [if_pos ⟨rfl, by rw [htree]; rfl⟩, h.size_dispose] at hroot
      exact absurd hlt (Option.some.inj hroot ▸ lt_irrefl _)
    exact Or.inl (hsame (hdisposed.watchers_plant t tree.plan hcontext'
      (h.watchers_dispose hw fun heq => hne (by rw [← heq, hsite]))))

/-- **The attachment** stays in place while its tree keeps its top. -/
theorem Strides.stands {missed' : SubscriptionId → List ObjectId} (h' : Stable g' (tasks ++ rest) missed') :
    g'.Stands site plan := by
  obtain ⟨b, hw, -⟩ := hstands.top
  rcases hs.kept h hstands hplan hroot hw rfl rfl with ⟨x, hx, hdormant, -⟩ | ⟨hne, -⟩
  · obtain ⟨tree, htree, hr⟩ := Option.bind_eq_some_iff.mp hroot
    obtain ⟨context, b', htop, hsubject⟩ := h'.rooted _ tree _ htree hr
    obtain rfl := Option.some.inj (hx.symm.trans htop)
    simp only [Watcher.dormant, Watcher.object.injEq, and_true] at hdormant
    obtain ⟨rfl, hsite⟩ := hdormant
    refine ⟨hroot, b', ?_, ?_⟩
    · rw [htop, hsite]
    · rw [hsubject, ← hsite]
  · exact absurd rfl hne

/-- **What brings `e`** still does so, or `e` is on a batch that is to be fired. -/
theorem Strides.brings {e : ActionId × Action κ} {v : Task κ} (hv : g.Brings site e v) :
    g'.Brings site e v ∨ g'.Due site e tasks := by
  cases hv with
  | perform => exact Or.inl .perform
  | fire he => exact Or.inl (.fire he)
  | deliver hw hid hplace he =>
    rcases hs.kept h hstands hplan hroot hw rfl rfl with ⟨x, hx, hdormant, hids⟩ | ⟨-, batch, hfire, hall⟩
    · cases x with
      | collection => cases hdormant
      | object plan' site' bound =>
        cases hdormant
        cases bound with
        | none =>
          simp only [Watcher.ids] at hids
          rw [← hids] at hid
          cases hid
        | some b' =>
          simp only [Watcher.ids] at hids
          exact Or.inl (.deliver hx (hids ▸ hid) hplace he)
    · exact Or.inr ⟨_, hfire, .fire (hall e ⟨_, _, _, hplace, he⟩)⟩
  | deliverChange hw hid he hne =>
    rcases hs.kept h hstands hplan hroot hw rfl rfl with ⟨x, hx, hdormant, hids⟩ | ⟨-, batch, hfire, hall⟩
    · cases x with
      | object => cases hdormant
      | collection item batch site' bound =>
        cases hdormant
        cases bound with
        | none => cases hids
        | some b' =>
          simp only [Watcher.ids, List.cons.injEq, and_true] at hids
          exact Or.inl (.deliverChange hx (hids.trans hid) he hne)
    · exact Or.inr ⟨_, hfire, .fire (hall e he)⟩

theorem Strides.due_rest {e : ActionId × Action κ} (hdue : g.Due site e rest) : g'.Due site e (tasks ++ rest) := by
  obtain ⟨v, hv, hbrings⟩ := hdue
  rcases hs.brings h hstands hplan hroot hbrings with hv' | hdue
  · exact ⟨v, List.mem_append_right _ hv, hv'⟩
  · exact hdue.mono fun u hu => List.mem_append_left _ hu

omit h hstands hplan hroot in
/-- A task that neither delivers nor attaches is carried out, and that is all. -/
theorem Strides.carried (hdelivery : u.isDelivery = false) (hattach : ∀ t context, u ≠ .request (.attach t context)) :
    L.carry g st u rest = { world := g', state := s', tasks } := by
  cases hs with
  | pass hcarry => exact hcarry
  | uproot _ hcarry => exact hcarry
  | follow hu => rw [hu] at hdelivery; cases hdelivery
  | take hu => rw [hu] at hdelivery; cases hdelivery
  | plant hu => exact absurd hu (hattach _ _)

omit hplan hroot in
/-- **The turn of what brings `e`**: it is performed, or brought by what comes next. -/
theorem Strides.due_front {e : ActionId × Action κ} (hu : g.Brings site e u) (hne : u ≠ .perform e.2 site.context) :
    g'.Due site e tasks := by
  cases hu with
  | perform => exact absurd rfl hne
  | @fire batch he =>
    have hcarry := hs.carried rfl (by simp)
    simp only [Language.carry, Effect.mk.injEq] at hcarry
    obtain ⟨-, -, rfl⟩ := hcarry
    rw [if_pos (h.alive_context hstands _)]
    exact ⟨_, List.mem_append_left _ (List.mem_map.mpr ⟨e, he, rfl⟩), .perform⟩
  | @deliver w i id p plan' b batch s l hw hid hplace he =>
    have hlistens : (id, Listener.member w i) ∈ g.listeners (g.home b.subject p) p :=
      h.grown.member.mpr ⟨b.subject, batch, ⟨plan', site, b, hw, hid, hplace, rfl⟩, rfl⟩
    obtain ⟨hsubject, rfl⟩ := (h.delivers List.mem_cons_self).2 _ _ _ hlistens
    have hreach : g.Reaches (.deliver s id (.member w i)) := ⟨w, i, p, hsubject ▸ hlistens⟩
    cases hs with
    | pass _ _ hnot => exact absurd hreach hnot
    | uproot _ _ hnot => exact absurd hreach hnot
    | take hu => cases hu
    | plant hu => cases hu
    | follow hu hw' hid' hplace' =>
      cases hu
      cases Option.some.inj (hw.symm.trans hw')
      cases Option.some.inj (hplace.symm.trans hplace')
      exact ⟨_, List.mem_cons_self, .fire he⟩
  | @deliverChange w id item b batch c l change hw hid he hempty =>
    have hlistens : (id, ChangeListener.membership w) ∈ g.listenersOfCollection b.collection :=
      h.grown.membership.mpr ⟨item, batch, site, b, hw, hid, rfl⟩
    obtain ⟨hcollection, rfl⟩ := (h.delivers_changes List.mem_cons_self).2.1 _ _ hlistens
    have hreach : g.Reaches (.deliverChange c id (.membership w) change) := ⟨hempty, w, hcollection ▸ hlistens⟩
    cases hs with
    | pass _ _ hnot => exact absurd hreach hnot
    | uproot _ _ hnot => exact absurd hreach hnot
    | follow hu => cases hu
    | plant hu => cases hu
    | take hu hw' =>
      cases hu
      cases Option.some.inj (hw.symm.trans hw')
      exact ⟨_, List.mem_cons_self, .fire he⟩

end

/-- Attaching a tree changes nothing but watchers and the top of the tree. -/
theorem Stable.plant_watches {g : World κ} {agenda : List (Task κ)} {missed : SubscriptionId → List ObjectId}
    (h : Stable g agenda missed) (t : TreeId) (plan : WatchPlan κ) {context : ObjectId}
    (hcontext : g.hasObject context = true) : g.Watches (g.plantTree t plan context) := by
  obtain ⟨-, hreb⟩ := h.rebound_top (x := .object plan { tree := t, top := g.watchers.size, context } none) rfl hcontext
  have hrebound : (g.addWatcher (.object plan { tree := t, top := g.watchers.size, context } none)).Watches _ :=
    ⟨hreb.outline, congrArg _ hreb.trees⟩
  exact ((g.addWatcher_watches _).trans hrebound).trans (World.modifyTree_watches _ t fun _ => rfl)

/-- **A stride** is a step that tells everybody who listens, or changes nothing but watchers
and the tops of trees. -/
theorem Strides.tells_or_watches {g g' : World κ} {u : Task κ} {rest tasks : List (Task κ)} {st s' : σ}
    {missed : SubscriptionId → List ObjectId} (h : Stable g (u :: rest) missed)
    (hs : Strides L g st u rest g' tasks s') :
    (L.carry g st u rest = { world := g', state := s', tasks } ∧ Tells g g' tasks) ∨ g.Watches g' := by
  cases hs with
  | pass hcarry htells => exact Or.inl ⟨hcarry, htells⟩
  | @follow s id w i p plan site b batch hu hw =>
    rcases h.refollow_cases (i := i) (p := p) hw with ⟨-, hsame⟩ | ⟨c, -, -, -, hre⟩
    · rw [hsame]
      exact Or.inr (.refl g)
    · exact Or.inr ⟨hre.outline, congrArg _ hre.trees⟩
  | take hu hw =>
    subst hu
    have hre := h.regathered hw
    exact Or.inr ⟨hre.outline, congrArg _ hre.trees⟩
  | @uproot t g₁ hg₁ =>
    have hmarked : g.Watches g₁ := by
      rcases hg₁ with rfl | rfl
      · exact .refl _
      · exact g.giveUp_watches t
    exact Or.inr (hmarked.trans (g₁.dispose_watches t))
  | @plant t tree context hu htree hcontext =>
    have hcontext' : (g.dispose t).hasObject context = true :=
      (World.hasValue_congr (g.dispose_outline t) (.object context)).trans hcontext
    exact Or.inr ((g.dispose_watches t).trans ((h.dispose t).plant_watches t tree.plan hcontext'))

/-- A stride keeps what there is, as every step does. -/
theorem Strides.lasts {g g' : World κ} {u : Task κ} {rest tasks : List (Task κ)} {st s' : σ}
    {missed : SubscriptionId → List ObjectId} (h : Stable g (u :: rest) missed)
    (hs : Strides L g st u rest g' tasks s') : g.Lasts (L.judges { world := g, agenda := u :: rest } st) g' := by
  rcases hs.tells_or_watches h with ⟨hcarry, -⟩ | hwatches
  · have hstep := L.lasts_carry g st u rest
    rwa [hcarry] at hstep
  · exact hwatches.lasts

/-- An action is performed, and that is all. -/
theorem Strides.performed {g g' : World κ} {a : Action κ} {o : ObjectId} {rest tasks : List (Task κ)} {st s' : σ}
    (hs : Strides L g st (.perform a o) rest g' tasks s') :
    L.perform { world := g, agenda := .perform a o :: rest } st a o = { world := g', state := s', tasks } :=
  hs.carried rfl (by simp)

/-- A property that no step but the turn of `v` changes is changed by no stride either. -/
theorem Strides.read_alone {g g' : World κ} {u v : Task κ} {rest tasks : List (Task κ)} {st s' : σ}
    {missed : SubscriptionId → List ObjectId} (h : Stable g (u :: rest) missed)
    (hs : Strides L g st u rest g' tasks s') {o : ObjectId} {p : String}
    (halone : (machine g (u :: rest) st).agenda.head? = some v ∨
      (L.step (machine g (u :: rest) st)).world.read o p = g.read o p) (hother : u ≠ v) : g'.read o p = g.read o p := by
  rcases hs.tells_or_watches h with ⟨hcarry, -⟩ | hwatches
  · have hread := halone.resolve_left fun hhead => hother (Option.some.inj hhead)
    simp only [machine, Language.step, hcarry] at hread
    exact hread
  · exact World.read_congr hwatches.1 _ _

/-- **After a stride** the attachment is in place, or its top is there no longer. -/
theorem Strides.stands_or_retired {g g' : World κ} {u : Task κ} {rest tasks : List (Task κ)} {st s' : σ}
    {missed missed' : SubscriptionId → List ObjectId} (h : Stable g (u :: rest) missed)
    (hs : Strides L g st u rest g' tasks s') (h' : Stable g' (tasks ++ rest) missed') {site : Attachment}
    {plan : WatchPlan κ} (hstands : g.Stands site plan) (hplan : plan.Cumulative) :
    g'.treeRoot site.tree = some site.top ∧ g'.Stands site plan ∨ g'.Retired site.top := by
  by_cases hroot : g'.treeRoot site.tree = some site.top
  · exact Or.inl ⟨hroot, hs.stands h hstands hplan hroot h'⟩
  · have hlt := h.rooted.lt_size (World.mem_roots_of_treeRoot hstands.root)
    obtain ⟨hsize, htops⟩ := hs.tops h
    refine Or.inr ⟨hlt.trans_le hsize, fun t ht => ?_⟩
    rcases htops ht with hbefore | hnew
    · exact hroot (h.rooted.inj hbefore hstands.root ▸ ht)
    · exact absurd (hnew ▸ hlt) (lt_irrefl _)

/-- **After a stride** the rule is due, or nothing along its paths has changed. Then it was
not due before, unless it was its turn. -/
theorem Strides.due_or_agrees {g g' : World κ} {u : Task κ} {rest tasks : List (Task κ)} {st s' : σ}
    (h : Stable g (u :: rest) fun _ => []) (hfree : ∀ x ∈ g.collections, x.free = false)
    (hs : Strides L g st u rest g' tasks s') {site : Attachment} {plan : WatchPlan κ} (hstands : g.Stands site plan)
    (hplan : plan.Cumulative) (hroot : g'.treeRoot site.tree = some site.top) (e : ActionId × Action κ) :
    g'.Due site e (tasks ++ rest) ∨ (g.Due site e (u :: rest) → u = .perform e.2 site.context) ∧
      ∀ w, (Watcher.object plan site none).Serves e w → g.Agrees g' w (.object site.context) := by
  by_cases hdue : g'.Due site e (tasks ++ rest)
  · exact Or.inl hdue
  · have hrest : ¬ g.Due site e rest := fun hrest => hdue (hs.due_rest h hstands hplan hroot hrest)
    have hturn : g.Due site e (u :: rest) → u = .perform e.2 site.context := by
      rintro ⟨v, hv, hbrings⟩
      rcases List.mem_cons.mp hv with rfl | hv
      · by_contra hne
        exact hdue ((hs.due_front h hstands hbrings hne).mono fun u hu => List.mem_append_left _ hu)
      · exact absurd ⟨v, hv, hbrings⟩ hrest
    refine Or.inr ⟨hturn, fun w hserves => ?_⟩
    rcases hs.tells_or_watches h with ⟨-, htells⟩ | hwatches
    · have htold : ¬ g.Due site e tasks := fun ⟨v, hv, hbrings⟩ =>
        hdue ⟨v, List.mem_append_left _ hv, hbrings.congr htells.watchers⟩
      obtain ⟨b, htop, hsubject⟩ := hstands.top
      have hserves' :=
        Watcher.serves_dormant (x := .object plan site none) (y := .object plan site (some b)) rfl hserves
      have htarget : (Watcher.object plan site (some b)).target = some (.object site.context) := by
        simp [Watcher.target, hsubject, Subject.value]
      by_cases hbefore : g.Due site e (u :: rest)
      · obtain rfl := hturn hbefore
        exact (h.tail rfl).agrees hfree hrest htells htold w htop rfl hserves' _ htarget
      · exact h.agrees hfree hbefore htells htold w htop rfl hserves' _ htarget
    · exact World.agrees_of_outline hwatches.1 w _

end LiveRules
