/-
# News is heeded

A watcher that is told of a change has what watches the value bound anew; a watcher of a
collection that is told of a change releases those that watched members that have left, and
those that have joined are to be watched. Only news that is overlooked is not heeded.

Key theorems: `World.Underway.attends_deliver`, `World.Underway.attends_deliverChange`.
-/
import LiveRules.Proofs.Reentry.Attending

namespace LiveRules

variable {κ σ : Type} {L : Language κ σ}

namespace World

variable {g h : World κ} {t : Task κ} {rest new agenda : List (Task κ)} {missed : SubscriptionId → Prop}

/-- Light tasks neither recruit members nor bind. -/
theorem light_tasks (hnew : ∀ u ∈ new, u.Light g) : draftsOf new = [] ∧ new.flatMap Task.tops = [] ∧
    (∀ w, new.flatMap (Task.recruits w) = []) ∧ ∀ w v, .bind w v ∉ new :=
  ⟨List.filterMap_eq_nil_iff.mpr fun u hu => (hnew u hu).draft,
    List.flatMap_eq_nil_iff.mpr fun u hu => (hnew u hu).tops,
    fun w => List.flatMap_eq_nil_iff.mpr fun u hu => Task.recruits_of_not_minds (hnew u hu).minds w,
    fun w v hu => Task.ne_bind_of_not_minds (hnew _ hu).minds w v rfl⟩

/-! ### Who is told of a property -/

/-- What telling a watcher comes to: whoever watches the value is bound to it. -/
theorem deliver_member {scene : Scene κ} {s : Subject} {k : SubscriptionId} {w i c : Nat} {plan site b p batch}
    (hlive : (scene.world.notifierOf s).isLive k = true) (hw : scene.isLive w = true)
    (hget : scene.world.watchers[w]? = some (.object plan site (some b))) (hc : b.children[i]? = some (some c))
    (hplace : plan.place? i = some (p, batch)) : scene.deliver s k (.member w i) =
      .bind c (scene.world.memberValue b.subject p) ::
        [.fire site batch, .release (.value b.subject.value), .release (.watcher w)] := by
  simp only [Scene.deliver, hlive, hw, if_true, World.memberChanged, hget, hplace, hc]
  rfl

/-- Telling a listener binds one watcher at most, and that first. -/
theorem deliver_tasks (scene : Scene κ) (s : Subject) (k : SubscriptionId) (l : Listener κ) :
    draftsOf (scene.deliver s k l) = [] ∧ (scene.deliver s k l).flatMap Task.tops = [] ∧
      (∀ w, (scene.deliver s k l).flatMap (Task.recruits w) = []) ∧ ∀ w v, .bind w v ∉ (scene.deliver s k l).tail := by
  rcases deliver_cases scene s k l with hlight | ⟨-, w, i, c, plan, site, b, p, batch, -, -, -, heq⟩
  · obtain ⟨hdrafts, htops, hrecruits, hbind⟩ := light_tasks hlight
    exact ⟨hdrafts, htops, hrecruits, fun w v hmem => hbind w v (List.mem_of_mem_tail hmem)⟩
  · rw [heq]
    exact ⟨rfl, rfl, fun _ => rfl, by simp⟩

/-- What watches the value of a property follows it, and nothing else. -/
theorem Grown.follows_child (hg : h.Grown (h.topsOf agenda)) {w i c : Nat} {plan site b}
    (hw : h.watchers[w]? = some (.object plan site (some b))) (hc : b.children[i]? = some (some c)) {e : Sight}
    (hf : h.Follows agenda c e) : ∃ id p batch, b.subscriptions[i]? = some id ∧ plan.place? i = some (p, batch) ∧
      e = .property id b.subject p := by
  have hlisted : c ∈ h.listed w := by
    rw [listed_of_get hw]
    exact List.reduceOption_mem_iff.mpr (List.mem_of_getElem? hc)
  have hnot : c ∉ h.topsOf agenda := fun htop => hg.topmost htop hlisted
  cases hf with
  | @entered v x _ _ hv hx =>
    have hlisted' : c ∈ h.listed v := by
      rw [listed_of_get hv]
      exact hx.mem_listed
    obtain rfl := hg.single hlisted' hlisted
    rw [hw] at hv
    cases hv
    cases hx with
    | child hc' hid hplace =>
      obtain rfl := (hg.same_child hw hw hc hc').2
      exact ⟨_, _, _, hid, hplace, rfl⟩
  | joining he hbinds hd => exact absurd (mem_topsOf_task he (mem_tops_of_done hbinds hd)) hnot
  | top htop _ => exact absurd (mem_topsOf_of_top htop) hnot

section

variable {s : Subject} {k : SubscriptionId} {l : Listener κ} (hu : g.Underway (.deliver s k l :: rest))
  (hcalm : Scene.Undisturbed { world := g, agenda := .deliver s k l :: rest })
  (honly : ∀ {p l'}, (k, l') ∈ g.listeners s p → l' = l)

include hu hcalm honly

/-- Who waits for the news that is told now is about to be bound to the value, unless the news
is overlooked. -/
theorem Underway.heeds_news {c : WatcherId} {e : Sight}
    (hf : (g.asIf (draftsOf rest)).Follows (.deliver s k l :: rest) c e)
    (hawaits : e.Awaits (g.asIf (draftsOf rest)) [.deliver s k l]) :
    e.Misses (fun id => Scene.overlooks { world := g, agenda := .deliver s k l :: rest } id = true) ∨
      (∃ later, Scene.deliver { world := g, agenda := .deliver s k l :: rest } s k l = .bind c (e.value g) :: later) ∧
        ∀ d ∈ draftsOf rest, d.watcher ≠ c := by
  cases hf with
  | joining | top => exact hawaits.elim
  | @entered w x _ _ hw hx =>
    cases hx with
    | member => exact hawaits.elim
    | @child plan site b i _ id p batch hc hid hplace =>
      obtain ⟨u, hmem, haddresses⟩ := hawaits
      obtain rfl := List.mem_singleton.mp hmem
      obtain ⟨rfl, rfl⟩ : s = (g.asIf (draftsOf rest)).home b.subject p ∧ k = id := by
        simpa [Task.addresses] using haddresses
      have hgrown : (g.asIf (draftsOf rest)).Grown (g.topsOf (.deliver _ k l :: rest)) := hu.grown
      have hlistener := hgrown.member.mpr ⟨_, _, ⟨_, _, _, hw, hid, hplace, rfl⟩, rfl⟩
      rw [asIf, listeners_dressed] at hlistener
      obtain rfl := honly hlistener
      by_cases hdraft : ∃ d ∈ draftsOf rest, d.watcher = w
      · -- the watcher that is told is being bound itself
        obtain ⟨d, hd, rfl⟩ := hdraft
        obtain ⟨x, hx, hnone, -⟩ := hu.drafted_behind d hd
        refine Or.inl ?_
        have hbound : g.boundObject? d.watcher = none := by
          unfold boundObject?
          rw [hx]
          cases x with
          | object plan site bound =>
            cases bound with
            | none => rfl
            | some b => cases hnone
          | collection => rfl
        simp [Sight.Misses, Scene.overlooks, hbound]
      · push Not at hdraft
        rw [getElem?_asIf_of_not_mem hdraft] at hw
        by_cases hbusy : ∃ d ∈ draftsOf rest, d.watcher = c
        · -- what watches the value is being bound
          have hbound : g.boundObject? w = some b := by simp only [boundObject?, hw]
          exact Or.inl (by simpa [Sight.Misses, Scene.overlooks, hbound, hc] using hbusy)
        · push Not at hbusy
          have hlive : (g.notifierOf ((g.asIf (draftsOf rest)).home b.subject p)).isLive k = true :=
            (Notifier.isLive_iff (notifierOf_dressed g _ _ ▸ hgrown.filed.agrees _)).mpr ⟨p, _, hlistener⟩
          exact Or.inr ⟨⟨_, deliver_member hlive (hu.isLive hcalm ⟨_, hw, rfl⟩) hw hc hplace⟩, hbusy⟩

omit hcalm in
/-- Who is bound first when news is told waited for it. -/
theorem Underway.awaits_told {c : WatcherId} {v : Value} {later : List (Task κ)} {e : Sight}
    (hfirst : Scene.deliver { world := g, agenda := .deliver s k l :: rest } s k l = .bind c v :: later)
    (hf : (g.asIf (draftsOf rest)).Follows (.deliver s k l :: rest) c e) :
    e.Awaits (g.asIf (draftsOf rest)) [.deliver s k l] := by
  have hgrown : (g.asIf (draftsOf rest)).Grown (g.topsOf (.deliver s k l :: rest)) := hu.grown
  rcases deliver_cases { world := g, agenda := .deliver s k l :: rest } s k l with
    hlight | ⟨hlive, w, i, d, plan, site, b, p, batch, rfl, hw, hd, heq⟩
  · exact absurd (hfirst ▸ List.mem_cons_self) ((light_tasks hlight).2.2.2 c v)
  · obtain rfl : d = c := by
      have hsame := (List.cons.inj (heq.symm.trans hfirst)).1
      injection hsame
    have hget := hu.drafted_behind.get_asIf hw rfl
    obtain ⟨id, q, f, hid, hplace, rfl⟩ := hgrown.follows_child hget hd hf
    -- the subscription that is told of is the one to that property
    obtain ⟨p', l', hl⟩ := (Notifier.isLive_iff (notifierOf_dressed g _ _ ▸ hgrown.filed.agrees s)).mp hlive
    obtain rfl := honly hl
    rw [← listeners, ← listeners_dressed g (written (draftsOf rest) g.watchers)] at hl
    obtain ⟨u, f', ⟨plan', site', b', hget', hid', hplace', hsubject⟩, hhome⟩ := hgrown.member.mp hl
    rw [hget] at hget'
    cases hget'
    obtain rfl := Option.some.inj (hid.symm.trans hid')
    obtain ⟨rfl, -⟩ := Prod.mk.inj (Option.some.inj (hplace.symm.trans hplace'))
    refine ⟨_, List.mem_singleton_self _, ?_⟩
    rw [hsubject, hhome]
    simp [Task.addresses]

/-- **A listener is told of a property**: what watches its value is about to follow it, unless
the news is overlooked. -/
theorem Underway.attends_deliver (hrest : ∀ w v, .bind w v ∉ rest) :
    g.AttendsTo (.deliver s k l) rest (g, Scene.deliver { world := g, agenda := .deliver s k l :: rest } s k l)
      fun id => Scene.overlooks { world := g, agenda := .deliver s k l :: rest } id = true := by
  obtain ⟨hdrafts, htops, hrecruits, hprompt⟩ := deliver_tasks { world := g, agenda := .deliver s k l :: rest } s k l
  set new := Scene.deliver { world := g, agenda := .deliver s k l :: rest } s k l with hnew
  have hdrafts' : draftsOf (new ++ rest) = draftsOf rest := by rw [draftsOf_append, hdrafts, List.nil_append]
  show Attends _ _ rest (g.asIf (draftsOf (new ++ rest))) new _
  rw [hdrafts', draftsOf_cons_none rfl]
  refine ⟨hprompt, fun {c e} hf => ?_, fun {w item membership site b} hw _ _ =>
    Or.inr (Or.inl ⟨b, hw, rfl, rfl, fun o => ?_⟩)⟩
  · have hold : (g.asIf (draftsOf rest)).Follows (.deliver s k l :: rest) c e :=
      (hf.of_append (htops ▸ List.not_mem_nil)).cons
    by_cases hawaits : e.Awaits (g.asIf (draftsOf rest)) [.deliver s k l]
    · rcases hu.heeds_news hcalm honly hold hawaits with hmisses | ⟨⟨later, heq⟩, hfree⟩
      · exact Or.inr (Or.inl hmisses)
      · have hfirst : new ++ rest = .bind c (e.value (g.asIf (draftsOf rest))) :: (later ++ rest) := by
          rw [hnew, heq, e.value_asIf]
          rfl
        exact Or.inl (.soon hfirst (hdrafts' ▸ hfree))
    · refine Or.inr (Or.inr ⟨hold, hawaits, fun v hheeds => ?_⟩)
      exact hheeds.kept (Task.ne_bind_of_not_minds rfl) hrest rfl fun v' later hfirst =>
        hawaits (hu.awaits_told honly hfirst hold)
  · rw [hrecruits, owed_singleton_of_not_change rfl]
    rfl

end

/-! ### Who is told of members -/

theorem aim_bindCollection {w : Nat} {item membership site b}
    (hw : h.watchers[w]? = some (.collection item membership site (some b))) (items : List (ObjectId × WatcherId))
    (c : WatcherId) : (h.bindCollection w { b with items }).aim c = h.aim c := by
  unfold aim
  rw [getElem?_bindCollection hw]
  split
  · rename_i hcw
    rw [hcw, hw]
    rfl
  · rfl

/-- With fewer members in its books a watcher has fewer follow something. -/
theorem Follows.of_fewer {w : Nat} {item membership site b}
    (hw : h.watchers[w]? = some (.collection item membership site (some b))) {items : List (ObjectId × WatcherId)}
    (hsub : ∀ m ∈ items, m ∈ b.items) {c : WatcherId} {e : Sight}
    (hf : (h.bindCollection w { b with items }).Follows rest c e) : h.Follows rest c e := by
  rcases hf.behind (h := h) (fun _ _ hr => hr) fun _ x => exists_of_aim (aim_bindCollection hw items c) with
    ⟨y, x, hy, hx⟩ | ⟨hf, -⟩
  · rw [getElem?_bindCollection hw] at hy
    split at hy
    · cases hy
      cases hx with
      | member he => exact .entered hw (.member (hsub _ he))
    · exact .entered hy hx
  · exact hf

theorem mem_of_takeItems {items : List (ObjectId × WatcherId)} {os : List ObjectId} {m : ObjectId × WatcherId}
    (hm : m ∈ (takeItems items os).2) : m ∈ items := by
  obtain ⟨taken, -, hperm⟩ := takeItems_perm os items
  exact hperm.mem_iff.mpr (List.mem_append_right _ hm)

/-- Where those that left were all watched, those that are left in the books and those that
joined come to what the books had and what the change is worth. -/
theorem count_taken {w : Nat} {item membership site b} {k : SubscriptionId} {change : Change}
    (hw : g.watchers[w]? = some (.collection item membership site (some b))) (hk : b.subscription = k)
    (hitem : item.isNil = false) (hlist : (g.listOf b.collection).isSome = true) (hlost : g.lost w k change = [])
    (o : ObjectId) : (((takeItems b.items change.removed).2.map (·.1)).count o : ℤ) + change.added.count o =
      (b.items.map (·.1)).count o + change.worth o := by
  simp only [World.lost, hw, hk, hitem, hlist, decide_true, Bool.not_false, Bool.and_self, if_true] at hlost
  have hgone : change.removed.count o ≤ (b.items.map (·.1)).count o := by
    have hcount := List.count_diff o change.removed (b.items.map (·.1))
    rw [hlost, List.count_nil] at hcount
    omega
  rw [count_takeItems, Change.worth]
  omega

section

variable {c : CollectionId} {k : SubscriptionId} {w : WatcherId} {change : Change}
  (hu : g.Underway (.deliverChange c k (.membership w) change :: rest))

include hu

/-- **A watcher of a collection is told of a change**: it is to enter those that joined, and
those that left are out of its books, unless the news is overlooked. -/
theorem Underway.attends_membershipChanged (hrest : ∀ w v, .bind w v ∉ rest) {item : WatchPlan κ} {membership : Batch κ}
    {site : Attachment} {b : BoundCollection} (hw : g.watchers[w]? = some (.collection item membership site (some b)))
    (hk : b.subscription = k) (hc : b.collection = c)
    (hcalm' : Scene.Undisturbed
      { world := g.taken w b change.removed
        agenda := [.enrol { watcher := w, site, item, binds := none, pending := change.added },
          .release (.watcher w)] ++ rest }) :
    g.AttendsTo (.deliverChange c k (.membership w) change) rest (g.taken w b change.removed,
        [.enrol { watcher := w, site, item, binds := none, pending := change.added }, .release (.watcher w)])
      fun id => Scene.overlooks
        { world := g, agenda := .deliverChange c k (.membership w) change :: rest } id = true := by
  obtain ⟨hsheds, -, -⟩ := hu.parted hw hcalm'
  have hgrown : (g.asIf (draftsOf rest)).Grown (g.topsOf rest) := hu.grown
  have hbooks := hu.drafted_behind.get_asIf hw rfl
  obtain ⟨hstruck, hlisted, -⟩ := hgrown.struck hbooks change.removed
  have htrees : (g.taken w b change.removed).trees = g.trees :=
    (g.bindCollection w _).foldl_unbind_trees (takeItems b.items change.removed).1
  have hroots : (g.taken w b change.removed).roots = g.roots := by
    unfold roots
    rw [htrees]
  show Attends _ _ rest ((g.taken w b change.removed).asIf (draftsOf rest)) _ _
  rw [draftsOf_cons_none rfl]
  have hsub : ∀ r ∈ ((g.taken w b change.removed).asIf (draftsOf rest)).topsOf rest,
      r ∈ g.topsOf rest ++ (takeItems b.items change.removed).1 ∧ r ∉ (takeItems b.items change.removed).1 := by
    intro r hr
    have hr : r ∈ (g.taken w b change.removed).roots ++ rest.flatMap Task.tops := hr
    rw [hroots] at hr
    exact ⟨List.mem_append_left _ hr, fun hmem => hgrown.topmost hr (hlisted r hmem)⟩
  refine attends_of_aim hrest (Task.ne_bind_of_not_minds rfl) rfl (by simp) (fun {d e} hf => Or.inr ?_)
    fun {y item' membership' site' b'} hy hitem hlist => ?_
  · have hf := hf.of_append (by simp [Task.tops])
    obtain ⟨hold, haim⟩ := hf.shed_tops (h := (g.asIf (draftsOf rest)).bindCollection w { b with items := _ })
      (fun v r hr => (treeRoot_congr htrees v).symm.trans hr) hstruck hsheds hsub fun v hv => List.mem_append_right _ hv
    exact ⟨(hold.of_fewer hbooks fun _ => mem_of_takeItems).cons, haim.trans (aim_bindCollection hbooks _ d), by simp⟩
  · have hold := hsheds.fades.bound hy rfl
    rw [getElem?_bindCollection hbooks] at hold
    by_cases hyw : y = w
    · subst hyw
      rw [if_pos rfl] at hold
      cases hold
      by_cases hlost : g.lost y k change = []
      · refine Or.inr ⟨b, hbooks, rfl, rfl, fun o => ?_⟩
        have houtline : (g.taken y b change.removed).outline = g.outline := foldl_unbind_outline _ _
        have hitems : (g.listOf b.collection).isSome = true :=
          (congrArg Option.isSome (listOf_congr houtline b.collection).symm).trans hlist
        have hcount := count_taken hw hk hitem hitems hlost o
        have howed : owed [Task.deliverChange (κ := κ) c k (.membership y) change] b.collection b.subscription o =
            change.worth o := by
          simp [owed, Task.report, hk, hc]
        have hjoined : [Task.enrol { watcher := y, site, item, binds := none, pending := change.added },
            .release (.watcher y)].flatMap (Task.recruits (κ := κ) y) = change.added := by
          simp [Task.recruits]
        rw [howed, hjoined]
        simpa [Task.recruits] using hcount
      · refine Or.inl ?_
        simp [Scene.overlooks, hk, hlost]
    · rw [if_neg hyw] at hold
      refine Or.inr ⟨b', hold, rfl, rfl, fun o => ?_⟩
      have howed :
          owed [Task.deliverChange (κ := κ) c k (.membership w) change] b'.collection b'.subscription o = 0 := by
        refine owed_eq_zero fun u hmem => ?_
        obtain rfl := List.mem_singleton.mp hmem
        refine if_neg fun heq => hyw ?_
        -- another watcher is told under another id
        have hlistener : (k, .membership w) ∈ (g.asIf (draftsOf rest)).listenersOfCollection c :=
          hgrown.membership.mpr ⟨_, _, _, _, hbooks, hk, hc⟩
        exact (Option.some.inj ((hgrown.eq_subscription hold hlistener).mp heq.2)).symm
      rw [howed]
      simp [Task.recruits, Ne.symm hyw]

end

/-- A watcher that is there takes a change in. -/
theorem deliverChange_member {scene : Scene κ} {c : CollectionId} {k : SubscriptionId} {w : Nat} {change : Change}
    {item membership site b} (hhas : (scene.world.listenersOfCollection c).has k = true) (hlive : scene.isLive w = true)
    (hw : scene.world.watchers[w]? = some (.collection item membership site (some b)))
    (hchange : change.isEmpty = false) :
    scene.deliverChange c k (.membership w) change = (scene.world.taken w b change.removed,
      [.enrol { watcher := w, site, item, binds := none, pending := change.added }, .release (.watcher w)]) := by
  simp only [Scene.deliverChange, hhas, hlive, if_true, World.membershipChanged, hw, hchange]
  rfl

section

variable {c : CollectionId} {k : SubscriptionId} {l : ChangeListener κ} {change : Change}
  (hu : g.Underway (.deliverChange c k l change :: rest))
  (hcalm : Scene.Undisturbed { world := g, agenda := .deliverChange c k l change :: rest })
  (honly : ∀ l', (k, l') ∈ g.listenersOfCollection c → l' = l)

include hu hcalm honly

/-- What is told to nobody, and not overlooked, is no change of a collection that is watched. -/
theorem Underway.owed_nothing (hpassed : ∀ (g' : World κ) e new,
    Scene.deliverChange { world := g, agenda := .deliverChange c k l change :: rest } c k l change ≠
      (g', .enrol e :: new))
    {w : Nat} {item membership site b}
    (hw : (g.asIf (draftsOf rest)).watchers[w]? = some (.collection item membership site (some b))) :
    Scene.overlooks { world := g, agenda := .deliverChange c k l change :: rest } b.subscription = true ∨
      ∀ o, owed [Task.deliverChange (κ := κ) c k l change] b.collection b.subscription o = 0 := by
  by_cases hsame : c = b.collection ∧ k = b.subscription
  · obtain ⟨rfl, rfl⟩ := hsame
    have hgrown : (g.asIf (draftsOf rest)).Grown (g.topsOf rest) := hu.grown
    have hlistener : (b.subscription, .membership w) ∈ g.listenersOfCollection b.collection :=
      hgrown.membership.mpr ⟨_, _, _, _, hw, rfl, rfl⟩
    obtain rfl := honly _ hlistener
    by_cases hdraft : ∃ d ∈ draftsOf rest, d.watcher = w
    · -- the watcher that is told is being bound
      obtain ⟨d, hd, rfl⟩ := hdraft
      obtain ⟨x, hx, hnone, -⟩ := hu.drafted_behind d hd
      have hbound : g.boundCollection? d.watcher = none := by
        unfold boundCollection?
        rw [hx]
        cases x with
        | object => rfl
        | collection item membership site bound =>
          cases bound with
          | none => rfl
          | some b => cases hnone
      exact Or.inl (by simp [Scene.overlooks, hbound])
    · push Not at hdraft
      rw [getElem?_asIf_of_not_mem hdraft] at hw
      refine Or.inr fun o => ?_
      have hempty : change.isEmpty = true := by
        by_contra hchange
        have hhas : (g.listenersOfCollection b.collection).has b.subscription = true :=
          Table.isSome_get?.mpr (List.mem_map_of_mem hlistener)
        exact hpassed _ _ _ (deliverChange_member hhas (hu.isLive hcalm ⟨_, hw, rfl⟩) hw (by simpa using hchange))
      have hnone : change.added = [] ∧ change.removed = [] := by simpa [Change.isEmpty] using hempty
      simp [owed, Task.report, Change.worth, hnone]
  · refine Or.inr fun o => owed_eq_zero fun u hmem => ?_
    obtain rfl := List.mem_singleton.mp hmem
    exact if_neg hsame

/-- **A listener of a collection is told of a change**: it takes it in, unless it is overlooked. -/
theorem Underway.attends_deliverChange (hrest : ∀ w v, .bind w v ∉ rest) {r : World κ × List (Task κ)}
    (hr : Scene.deliverChange { world := g, agenda := .deliverChange c k l change :: rest } c k l change = r)
    (hcalm' : Scene.Undisturbed { world := r.1, agenda := r.2 ++ rest }) :
    g.AttendsTo (.deliverChange c k l change) rest r
      fun id => Scene.overlooks { world := g, agenda := .deliverChange c k l change :: rest } id = true := by
  have hlight {new : List (Task κ)} (hnew : ∀ u ∈ new, u.Light g)
      (hcase : Scene.deliverChange { world := g, agenda := .deliverChange c k l change :: rest } c k l change =
        (g, new)) :
      g.AttendsTo (.deliverChange c k l change) rest (g, new)
        fun id => Scene.overlooks { world := g, agenda := .deliverChange c k l change :: rest } id = true := by
    unfold AttendsTo
    rw [draftsOf_append, (light_tasks hnew).1, List.nil_append, draftsOf_cons_none rfl]
    refine attends_still hrest rfl rfl (fun u hmem => (hnew u hmem).minds) rfl (fun _ => rfl) fun hw _ _ =>
      hu.owed_nothing hcalm honly (fun g' e new' heq => ?_) hw
    obtain ⟨-, rfl⟩ := Prod.mk.inj (hcase.symm.trans heq)
    exact (hnew _ List.mem_cons_self).elim
  rcases deliverChange_cases { world := g, agenda := .deliverChange c k l change :: rest } c k l change with
    hcase | ⟨k', hcase⟩ | ⟨hhas, w, item, membership, site, b, rfl, hw, hcase⟩
  · obtain rfl := hr.symm.trans hcase
    exact hlight (by simp) hcase
  · obtain rfl := hr.symm.trans hcase
    exact hlight (by simp [Task.Light]) hcase
  · obtain rfl := hr.symm.trans hcase
    have hgrown : (g.asIf (draftsOf rest)).Grown (g.topsOf rest) := hu.grown
    obtain ⟨e, he, rfl⟩ := List.mem_map.mp (Table.isSome_get?.mp hhas)
    have hlistener : (e.1, .membership w) ∈ (g.asIf (draftsOf rest)).listenersOfCollection c := by
      rw [← honly e.2 he]
      exact he
    obtain ⟨_, _, _, b', hw', hk, hc⟩ := hgrown.membership.mp hlistener
    rw [hu.drafted_behind.get_asIf hw rfl] at hw'
    cases hw'
    exact hu.attends_membershipChanged hrest hw hk hc hcalm'

end

end World

end LiveRules
