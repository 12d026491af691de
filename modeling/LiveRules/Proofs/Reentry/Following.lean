/-
# What is entered is followed

The watchers that are entered in books, or join, are about to be bound to what they are to
follow, and the others follow what they followed. Where a watcher is done its books are what
was its draft, and members that have joined are in the books of the watcher of the
collection.

Key definitions: `Task.minds`.
Key theorems: `World.Follows.behind`, `World.attends_of_aim`, `World.attends_of_grows`,
`World.Underway.attends_bindChild`, `World.Underway.attends_gather`.
-/
import LiveRules.Proofs.Reentry.Heeding

namespace LiveRules

variable {κ σ : Type} {L : Language κ σ}

/-- The task settles what somebody is to follow. -/
def Task.minds : Task κ → Bool
  | .bind _ _ | .enrol _ | .plant _ _ => true
  | _ => false

namespace Task

variable {t : Task κ}

theorem tops_of_not_minds (h : t.minds = false) : t.tops = [] := by
  cases t <;> first | rfl | cases h

theorem recruits_of_not_minds (h : t.minds = false) (w : WatcherId) : t.recruits w = [] := by
  cases t <;> first | rfl | cases h

theorem ne_bind_of_not_minds (h : t.minds = false) (w : WatcherId) (v : Value) : t ≠ .bind w v := by
  rintro rfl
  cases h

theorem enrol_ne_bind (e : Enrolment κ) (w : WatcherId) (v : Value) : Task.enrol e ≠ .bind w v := by
  simp

theorem Light.minds {g : World κ} (h : t.Light g) : t.minds = false := by
  cases t with
  | bind | enrol | plant => exact h.elim
  | _ => rfl

end Task

theorem Sight.not_awaits {g : World κ} {t : Task κ} (ht : t.isNotice = false) (e : Sight) : ¬ e.Awaits g [t] := by
  cases e with
  | property id s p =>
    rintro ⟨u, hu, haddresses⟩
    obtain rfl := List.mem_singleton.mp hu
    cases ht.symm.trans (Task.isNotice_of_addresses haddresses)
  | object o => exact id

theorem owed_singleton_of_not_change {t : Task κ} (ht : t.isChange = false) (c : CollectionId) (id : SubscriptionId)
    (o : ObjectId) : owed [t] c id o = 0 :=
  owed_eq_zero fun u hu => by
    obtain rfl := List.mem_singleton.mp hu
    exact Task.report_of_not_change ht

namespace World

variable {h h' : World κ} {t : Task κ} {rest new : List (Task κ)} {missed : SubscriptionId → Prop}

/-! ### Who goes on as before -/

theorem aim_eq {c : Nat} (hsame : h'.watchers[c]? = h.watchers[c]?) : h'.aim c = h.aim c := by
  unfold aim
  rw [hsame]

/-- Of the same kind and bound to the same is who follows what was followed. -/
theorem Heeds.kept {c : WatcherId} {v : Value} (hheeds : h.Heeds (t :: rest) c v) (hbind : ∀ w v, t ≠ .bind w v)
    (hrest : ∀ w v, .bind w v ∉ rest) (haim : h'.aim c = h.aim c) (hnew : ∀ v later, new ≠ .bind c v :: later) :
    h'.Heeds (new ++ rest) c v := by
  cases hheeds with
  | soon heq => exact absurd (List.cons.inj heq).1 (hbind c v)
  | already hsees _ =>
    refine .already (hsees.of_aim haim) fun v' later heq => ?_
    cases new with
    | nil =>
      obtain rfl : rest = .bind c v' :: later := heq
      exact hrest c v' List.mem_cons_self
    | cons u new =>
      obtain ⟨rfl, -⟩ := List.cons.inj heq
      exact hnew v' new rfl

theorem mem_topsOf_task {g : World κ} {agenda : List (Task κ)} {u : Task κ} {r : WatcherId} (hu : u ∈ agenda)
    (hr : r ∈ u.tops) : r ∈ g.topsOf agenda :=
  List.mem_append_right _ (List.mem_flatMap.mpr ⟨u, hu, hr⟩)

theorem mem_topsOf_of_top {g : World κ} {agenda : List (Task κ)} {c : WatcherId}
    (hc : (∃ t, g.treeRoot t = some c) ∨ ∃ t, .plant t c ∈ agenda) : c ∈ g.topsOf agenda := by
  rcases hc with ⟨t, hr⟩ | ⟨t, hplant⟩
  · exact List.mem_append_left _ (mem_roots_of_treeRoot hr)
  · exact mem_topsOf_task hplant List.mem_cons_self

theorem mem_tops_of_done {e : Enrolment κ} {d : ObjectId × WatcherId} (hbinds : e.binds = none) (hd : d ∈ e.done) :
    d.2 ∈ (Task.enrol e).tops := by
  simp only [Task.tops, hbinds, Option.isNone_none, if_true]
  exact List.mem_map_of_mem hd

/-- The site of a watcher does not change. -/
theorem exists_of_aim {c : Nat} {x : Watcher κ} (haim : h'.aim c = h.aim c) (hx : h'.watchers[c]? = some x) :
    ∃ y, h.watchers[c]? = some y ∧ y.site = x.site := by
  unfold aim at haim
  rw [hx] at haim
  obtain ⟨y, hy, heq⟩ := Option.map_eq_some_iff.mp haim.symm
  refine ⟨y, hy, ?_⟩
  rw [← Watcher.site_dormant, (Prod.mk.inj heq).1, Watcher.site_dormant]

theorem Follows.cons {c : WatcherId} {e : Sight} (hf : h.Follows rest c e) : h.Follows (t :: rest) c e := by
  cases hf with
  | entered hw hx => exact .entered hw hx
  | joining he hbinds hd => exact .joining (List.mem_cons_of_mem _ he) hbinds hd
  | top hc hx => exact .top (hc.imp_right fun ⟨v, hplant⟩ => ⟨v, List.mem_cons_of_mem _ hplant⟩) hx

/-- Tasks matter only to those that they put at the top. -/
theorem Follows.of_append {c : WatcherId} {e : Sight} (hf : h.Follows (new ++ rest) c e)
    (hc : c ∉ new.flatMap Task.tops) : h.Follows rest c e := by
  have hbehind {u : Task κ} (hu : u ∈ new ++ rest) (htop : c ∈ u.tops) : u ∈ rest :=
    (List.mem_append.mp hu).resolve_left fun hu => hc (List.mem_flatMap.mpr ⟨u, hu, htop⟩)
  cases hf with
  | entered hw hx => exact .entered hw hx
  | joining he hbinds hd => exact .joining (hbehind he (mem_tops_of_done hbinds hd)) hbinds hd
  | top hc hx => exact .top (hc.imp_right fun ⟨v, hplant⟩ => ⟨v, hbehind hplant List.mem_cons_self⟩) hx

/-- Who is at the top of a tree, or is to be, goes on as before. -/
theorem Follows.behind {c : WatcherId} {e : Sight} (hf : h'.Follows rest c e)
    (hroots : ∀ v r, h'.treeRoot v = some r → h.treeRoot v = some r)
    (hsite : c ∈ h'.topsOf rest → ∀ x, h'.watchers[c]? = some x → ∃ y, h.watchers[c]? = some y ∧ y.site = x.site) :
    (∃ (w : Nat) (x : Watcher κ), h'.watchers[w]? = some x ∧ x.Enters c e) ∨
      h.Follows rest c e ∧ c ∈ h'.topsOf rest := by
  cases hf with
  | entered hw hx => exact Or.inl ⟨_, _, hw, hx⟩
  | joining he hbinds hd => exact Or.inr ⟨.joining he hbinds hd, mem_topsOf_task he (mem_tops_of_done hbinds hd)⟩
  | top hc hx =>
    have htop := mem_topsOf_of_top hc
    obtain ⟨y, hy, hyx⟩ := hsite htop _ hx
    rw [← hyx]
    exact Or.inr ⟨.top (hc.imp_left fun ⟨v, hr⟩ => ⟨v, hroots v c hr⟩) hy, htop⟩

/-- Who is bound when a watcher has been made was bound before. -/
theorem addWatcher_bound {x z : Watcher κ} (hx : x.target = none) {w : Nat}
    (hz : (h.addWatcher x).watchers[w]? = some z) (hbound : z.target.isSome = true) : h.watchers[w]? = some z := by
  refine (addWatcher_new hx hz).resolve_right fun hnone => ?_
  rw [hnone] at hbound
  cases hbound

/-- A new watcher that is bound to nothing has nobody follow anything. -/
theorem Follows.of_addWatcher {x : Watcher κ} (hx : x.target = none) {c : WatcherId} {e : Sight}
    (hf : (h.addWatcher x).Follows rest c e) (hc : c ≠ h.watchers.size) : h.Follows rest c e := by
  cases hf with
  | entered hw he => exact .entered (addWatcher_bound hx hw he.isSome_target) he
  | joining he hbinds hd => exact .joining he hbinds hd
  | top htop hw =>
    rw [getElem?_addWatcher, if_neg hc] at hw
    exact .top htop hw

theorem aim_addWatcher (h : World κ) (x : Watcher κ) {c : WatcherId} (hc : c ≠ h.watchers.size) :
    (h.addWatcher x).aim c = h.aim c :=
  aim_eq (by rw [getElem?_addWatcher, if_neg hc])

/-- What a step has to leave, where nobody is told of a property and no watcher is bound. -/
theorem attends_of_aim (hrest : ∀ w v, .bind w v ∉ rest) (hbind : ∀ w v, t ≠ .bind w v) (hnotice : t.isNotice = false)
    (hprompt : ∀ w v, .bind w v ∉ new.tail)
    (hfollows : ∀ {c e}, h'.Follows (new ++ rest) c e → h'.Heeds (new ++ rest) c (e.value h') ∨
      h.Follows (t :: rest) c e ∧ h'.aim c = h.aim c ∧ ∀ v later, new ≠ .bind c v :: later)
    (hmembers : ∀ {w : Nat} {item membership site b'},
      h'.watchers[w]? = some (.collection item membership site (some b')) → item.isNil = false →
      (h'.listOf b'.collection).isSome = true → missed b'.subscription ∨
      ∃ b, h.watchers[w]? = some (.collection item membership site (some b)) ∧ b.collection = b'.collection ∧
        b.subscription = b'.subscription ∧ ∀ o, ((b'.items.map (·.1)).count o : ℤ) +
          (new.flatMap (Task.recruits w)).count o =
          (b.items.map (·.1)).count o + (t.recruits w).count o + owed [t] b.collection b.subscription o) :
    h.Attends t rest h' new missed where
  prompt := hprompt
  heeds hf := by
    rcases hfollows hf with hheeds | ⟨hold, haim, hnew⟩
    · exact Or.inl hheeds
    · exact Or.inr (Or.inr ⟨hold, Sight.not_awaits hnotice _, fun v hheeds => hheeds.kept hbind hrest haim hnew⟩)
  members hw hitem hlist := (hmembers hw hitem hlist).imp_right Or.inl

/-- The same, where watchers of collections have in their books what they had. -/
theorem attends_of_same (hrest : ∀ w v, .bind w v ∉ rest) (hbind : ∀ w v, t ≠ .bind w v) (hnotice : t.isNotice = false)
    (hchange : t.isChange = false) (hprompt : ∀ w v, .bind w v ∉ new.tail)
    (hfollows : ∀ {c e}, h'.Follows (new ++ rest) c e → h'.Heeds (new ++ rest) c (e.value h') ∨
      h.Follows (t :: rest) c e ∧ h'.aim c = h.aim c ∧ ∀ v later, new ≠ .bind c v :: later)
    (hsame : ∀ {w : Nat} {item membership site b}, h'.watchers[w]? = some (.collection item membership site (some b)) →
      item.isNil = false → h.watchers[w]? = some (.collection item membership site (some b)) ∧
        (new.flatMap (Task.recruits w)).Perm (t.recruits w)) : h.Attends t rest h' new missed := by
  refine attends_of_aim hrest hbind hnotice hprompt hfollows fun {w item membership site b} hw hitem _ => Or.inr ?_
  obtain ⟨hold, hperm⟩ := hsame hw hitem
  refine ⟨b, hold, rfl, rfl, fun o => ?_⟩
  rw [hperm.count_eq o, owed_singleton_of_not_change hchange, add_zero]

/-! ### Watchers are left alone -/

section

variable (hrest : ∀ w v, .bind w v ∉ rest)

include hrest

/-- **No watcher is touched**, and the tasks that come settle nothing. -/
theorem attends_still (ht : t.minds = false) (hnotice : t.isNotice = false) (hnew : ∀ u ∈ new, u.minds = false)
    (hwatchers : h'.watchers = h.watchers) (hroots : ∀ v, h'.treeRoot v = h.treeRoot v)
    (howed : ∀ {w : Nat} {item membership site b}, h.watchers[w]? = some (.collection item membership site (some b)) →
      item.isNil = false → (h'.listOf b.collection).isSome = true →
      missed b.subscription ∨ ∀ o, owed [t] b.collection b.subscription o = 0) :
    h.Attends t rest h' new missed := by
  have haim (c : WatcherId) : h'.aim c = h.aim c := by
    unfold aim
    rw [hwatchers]
  have htops : new.flatMap Task.tops = [] :=
    List.flatMap_eq_nil_iff.mpr fun u hu => Task.tops_of_not_minds (hnew u hu)
  refine attends_of_aim hrest (Task.ne_bind_of_not_minds ht) hnotice (fun w v hmem => ?_) (fun {c e} hf => Or.inr ?_)
    fun {w item membership site b} hw hitem hlist => ?_
  · exact Task.ne_bind_of_not_minds (hnew _ (List.mem_of_mem_tail hmem)) w v rfl
  · refine ⟨?_, haim c, fun v later heq => ?_⟩
    · have hf := hf.of_append (htops ▸ List.not_mem_nil)
      rcases hf.behind (fun v r hr => (hroots v).symm.trans hr) fun _ x => exists_of_aim (haim c) with
        ⟨w, x, hw, hx⟩ | ⟨hold, -⟩
      · exact .entered (hwatchers ▸ hw) hx
      · exact hold.cons
    · exact Task.ne_bind_of_not_minds (hnew _ (heq ▸ List.mem_cons_self)) c v rfl
  · have hnone : new.flatMap (Task.recruits w) = [] :=
      List.flatMap_eq_nil_iff.mpr fun u hu => Task.recruits_of_not_minds (hnew u hu) w
    refine (howed (hwatchers ▸ hw) hitem hlist).imp_right fun hzero => ⟨b, hwatchers ▸ hw, rfl, rfl, fun o => ?_⟩
    rw [hnone, Task.recruits_of_not_minds ht, hzero o]
    simp

end

/-- **A watcher is done**, and has for books what was its draft. -/
theorem Underway.attends_finish {g : World κ} (hu : g.Underway (t :: rest))
    (hcalm : Scene.Undisturbed { world := g, agenda := t :: rest }) {d : Draft} (hdraft : t.draft? = some d)
    (hrest : ∀ w v, .bind w v ∉ rest) (hdone : ∀ e, t = .enrol e → e.item.isNil = true ∨ e.pending = []) :
    g.AttendsTo t rest (g.enter d, []) missed := by
  have hlight : (∀ w v, t ≠ .bind w v) ∧ t.isNotice = false ∧ t.isChange = false := by
    cases t with
    | bind | deliver | deliverChange => cases hdraft
    | _ => exact ⟨nofun, rfl, rfl⟩
  show Attends _ t rest ((g.enter d).asIf (draftsOf rest)) [] missed
  rw [hu.asIf_finish hcalm hdraft]
  refine attends_of_same hrest hlight.1 hlight.2.1 hlight.2.2 (by simp) (fun hf => Or.inr ⟨Follows.cons hf, rfl, nofun⟩)
    fun {w item membership site b} hw hitem => ⟨hw, ?_⟩
  have hnone : t.recruits w = [] := by
    cases t with
    | enrol e =>
      by_cases hv : e.watcher = w
      · obtain ⟨-, hfits⟩ := hu.fits _ List.mem_cons_self
        obtain ⟨c, hbinds, -⟩ := Option.map_eq_some_iff.mp hdraft
        rw [hbinds] at hfits
        obtain ⟨membership', hw'⟩ := hfits
        obtain ⟨x, hx, hdormant⟩ := exists_of_asIf (hv.symm ▸ hw)
        rw [hw'] at hx
        cases hx
        cases hdormant
        have hpending := (hdone e rfl).resolve_left (by simp [hitem])
        simp [Task.recruits, hbinds, hpending]
      · exact if_neg hv
    | _ => rfl
  rw [hnone]
  exact .refl _

/-! ### A watcher enters something in its books -/

theorem Grows.aim {w : WatcherId} (hgrows : Grows w h h') (hw : h.IsBound w) {c : Nat} (hc : c < h.watchers.size) :
    h'.aim c = h.aim c := by
  by_cases hcw : c = w
  · subst hcw
    obtain ⟨x, hx, hbound⟩ := hw
    obtain ⟨y, hy, hdormant, htarget⟩ := hgrows.self x hx
    unfold World.aim
    rw [hx, hy, Option.map_some, Option.map_some, hdormant, htarget hbound]
  · exact aim_eq (hgrows.others c hc hcw)

/-- **A watcher enters something** in its books, which is new or was to join, and new watchers
are made. -/
theorem attends_of_grows {w : WatcherId} (hgrows : Grows w h h') (hbound : h.IsBound w)
    (hfresh : ∀ {y : Nat} {x : Watcher κ}, h'.watchers[y]? = some x → y < h.watchers.size ∨ x.target = none)
    (hshaped : h.Shaped) (hlt : ∀ r ∈ h.topsOf (t :: rest), r < h.watchers.size)
    (hrest : ∀ w v, .bind w v ∉ rest) (hbind : ∀ w v, t ≠ .bind w v) (hnotice : t.isNotice = false)
    (hchange : t.isChange = false) (hprompt : ∀ w v, .bind w v ∉ new.tail)
    (hhead : ∀ {c v later}, new = .bind c v :: later → h.watchers.size ≤ c) (htops : new.flatMap Task.tops = [])
    (hrecruits : ∀ v ≠ w, new.flatMap (Task.recruits v) = t.recruits v)
    (henters : ∀ {x c e}, h'.watchers[w]? = some x → x.Enters c e → h'.Heeds (new ++ rest) c (e.value h') ∨
      h.Follows (t :: rest) c e ∧ c < h.watchers.size)
    (hself : ∀ {item membership site b'}, h'.watchers[w]? = some (.collection item membership site (some b')) →
      item.isNil = false → ∃ b, h.watchers[w]? = some (.collection item membership site (some b)) ∧
        b.collection = b'.collection ∧ b.subscription = b'.subscription ∧
        ((b'.items.map (·.1)) ++ new.flatMap (Task.recruits w)).Perm ((b.items.map (·.1)) ++ t.recruits w)) :
    h.Attends t rest h' new missed := by
  have hroot (v : TreeId) : h'.treeRoot v = h.treeRoot v := treeRoot_congr hgrows.trees v
  have hroots : h'.roots = h.roots := by
    unfold roots
    rw [hgrows.trees]
  have htopsOf : ∀ r ∈ h'.topsOf rest, r < h.watchers.size := by
    intro r hr
    refine hlt r ?_
    unfold topsOf at hr ⊢
    rw [hroots] at hr
    exact List.mem_append.mpr ((List.mem_append.mp hr).imp_right fun hr => List.mem_append_right _ hr)
  have hold {y : Nat} {x : Watcher κ} (hy : h'.watchers[y]? = some x) (hyw : y ≠ w) (hx : x.target.isSome = true) :
      h.watchers[y]? = some x := by
    rcases hfresh hy with hlt | hnone
    · exact (hgrows.others y hlt hyw).symm.trans hy
    · rw [hnone] at hx
      cases hx
  refine attends_of_aim hrest hbind hnotice hprompt (fun {c e} hf => ?_) fun {y item membership site b} hy hitem _ =>
    Or.inr ?_
  · have hkept (hf : h.Follows (t :: rest) c e) (hc : c < h.watchers.size) :
        h.Follows (t :: rest) c e ∧ h'.aim c = h.aim c ∧ ∀ v later, new ≠ .bind c v :: later :=
      ⟨hf, hgrows.aim hbound hc, fun v later heq => absurd hc (not_lt.mpr (hhead heq))⟩
    have hf := hf.of_append (htops ▸ List.not_mem_nil)
    rcases hf.behind (fun v r hr => (hroot v).symm.trans hr) fun hc x =>
      exists_of_aim (hgrows.aim hbound (htopsOf c hc)) with
      ⟨y, x, hy, hx⟩ | ⟨hf, hc⟩
    · by_cases hyw : y = w
      · subst hyw
        exact (henters hy hx).imp_right fun hf => hkept hf.1 hf.2
      · have hy := hold hy hyw hx.isSome_target
        exact Or.inr (hkept (.entered hy hx) (hshaped.lt_of_enters hy hx))
    · exact Or.inr (hkept hf.cons (htopsOf c hc))
  · by_cases hyw : y = w
    · subst hyw
      obtain ⟨b', hb', hcollection, hsubscription, hperm⟩ := hself hy hitem
      refine ⟨b', hb', hcollection, hsubscription, fun o => ?_⟩
      have hcount := hperm.count_eq o
      rw [List.count_append, List.count_append] at hcount
      rw [owed_singleton_of_not_change hchange]
      omega
    · refine ⟨b, hold hy hyw rfl, rfl, rfl, fun o => ?_⟩
      rw [hrecruits y hyw, owed_singleton_of_not_change hchange, add_zero]

section

variable {g : World κ}

theorem Underway.topsOf_lt {agenda : List (Task κ)} (hu : g.Underway agenda) (ds : List Draft) :
    ∀ r ∈ (g.asIf ds).topsOf agenda, r < (g.asIf ds).watchers.size := by
  intro r hr
  rw [size_asIf]
  have hr : r ∈ g.topsOf agenda := hr
  rcases List.mem_append.mp hr with hr | hr
  · exact hu.root_lt hr
  · exact hu.tops_lt hr

theorem addWatcher_fresh {x : Watcher κ} (hx : x.target = none) {y : Nat} {z : Watcher κ}
    (hz : (h.addWatcher x).watchers[y]? = some z) : y < h.watchers.size ∨ z.target = none := by
  rw [getElem?_addWatcher] at hz
  split at hz
  · exact Or.inr (Option.some.inj hz ▸ hx)
  · exact Or.inl (Array.getElem?_eq_some_iff.mp hz).1

/-- Who is about to be bound is new, and not being bound already. -/
theorem heeds_soon {agenda later : List (Task κ)} {c : WatcherId} {v : Value} (hagenda : agenda = .bind c v :: later)
    (hlt : ∀ d ∈ draftsOf agenda, d.watcher < c) : h.Heeds agenda c v :=
  .soon hagenda fun d hd => ne_of_lt (hlt d hd)

section

variable {s : Subject} {p : String} {l : Listener κ} {b : Binding κ}
  (hu : g.Underway (.register s p l (.binding b) :: rest))
  (hcalm : Scene.Undisturbed { world := g, agenda := .register s p l (.binding b) :: rest })
  (hrest : ∀ w v, .bind w v ∉ rest)

include hu hcalm hrest

/-- **A subscription is entered**: the watcher that has been posted, if the plan asks for one,
is about to be bound to the value. -/
theorem Underway.attends_entered (hhere : g.home s p = s) (g₁ : World κ) (c : Option WatcherId)
    (front : List (Task κ)) {tops : List WatcherId}
    (hold : ∀ {y : Nat} {x : Watcher κ}, g.watchers[y]? = some x → g₁.watchers[y]? = some x)
    (houtline : g₁.outline = g.outline) (hnext : g₁.nextSubscription = g.nextSubscription)
    (hgrown : (g₁.asIf (b.draft :: draftsOf rest)).Grown tops)
    (hgrows : Grows b.watcher (g.asIf (b.draft :: draftsOf rest)) (g₁.asIf (b.draft :: draftsOf rest)))
    (hfresh : ∀ {y : Nat} {x : Watcher κ}, (g₁.asIf (b.draft :: draftsOf rest)).watchers[y]? = some x →
      y < g.watchers.size ∨ x.target = none)
    (hfront : c = none ∧ front = [] ∨ c = some g.watchers.size ∧
      front = [.bind g.watchers.size (g.memberValue b.subject p)]) :
    g.AttendsTo (.register s p l (.binding b)) rest
      (g₁.enterListener s p l, front ++ [.bindMembers (b.join g.nextSubscription c)]) missed := by
  unfold AttendsTo
  obtain ⟨plan, batch, hw, -, -, hbooks, hentry, -⟩ := hu.next_place hcalm
  obtain ⟨-, rfl, -, -, hhome⟩ := hu.fits _ List.mem_cons_self
  set books : BoundObject := ⟨b.subject, b.subscriptions, b.children⟩ with hbooksDef
  have hdrafts : draftsOf (front ++ [Task.bindMembers (b.join g.nextSubscription c)] ++ rest) =
      (b.join g.nextSubscription c).draft :: draftsOf rest := by
    rcases hfront with ⟨-, rfl⟩ | ⟨-, rfl⟩ <;> rfl
  have hself : g₁.home b.subject p = s := (home_congr houtline _ _).trans (hhome.symm.trans hhere)
  have hasIf : (g₁.enterListener s p (.member b.watcher b.subscriptions.length)).asIf
      ((b.join g.nextSubscription c).draft :: draftsOf rest) =
        (g₁.asIf (b.draft :: draftsOf rest)).subscribeMember b.watcher books p c := by
    rw [← hnext]
    exact asIf_subscribeMember (hold hw) hself c (draftsOf rest)
  have hlt : b.watcher < (g.asIf (b.draft :: draftsOf rest)).watchers.size := (Array.getElem?_eq_some_iff.mp hbooks).1
  have hbooks₁ : (g₁.asIf (b.draft :: draftsOf rest)).watchers[b.watcher]? =
      some (.object plan b.site (some books)) := by
    rw [getElem?_asIf, hw] at hbooks
    rw [getElem?_asIf, hold hw]
    exact hbooks
  have hgrows' := subscribeMember_grows hgrown.sane hbooks₁ (hgrown.known hbooks₁ rfl) p c
  have hget (y : Nat) := getElem?_bindObject (g := (g₁.asIf (b.draft :: draftsOf rest)).enterListener
    ((g₁.asIf (b.draft :: draftsOf rest)).home books.subject p) p (.member b.watcher books.subscriptions.length))
    ((congrArg (·[b.watcher]?) (enterListener_watchers ..)).trans hbooks₁)
    (books.join (g₁.asIf (b.draft :: draftsOf rest)).nextSubscription c) y
  rw [hdrafts, hasIf]
  have hpaired := hu.grown.paired hbooks
  refine attends_of_grows (hgrows.trans hgrows' hlt (Or.inl rfl)) ⟨_, hbooks, rfl⟩
    (fun {y x} hy => ?_) hu.grown.toShaped (hu.topsOf_lt _) hrest (Task.ne_bind_of_not_minds rfl) rfl rfl
    (fun w v hmem => ?_) (fun {d v later} heq => ?_) ?_ (fun v _ => ?_) (fun {x d e} hx he => ?_) fun hx => ?_
  · by_cases hyw : y = b.watcher
    · exact Or.inl (hyw ▸ hlt)
    · rw [subscribeMember_get _ hyw] at hy
      exact (hfresh hy).imp_left fun hy => hy.trans_eq (size_asIf g _).symm
  · rcases hfront with ⟨-, rfl⟩ | ⟨-, rfl⟩ <;> simp at hmem
  · rcases hfront with ⟨-, rfl⟩ | ⟨-, rfl⟩
    · cases (List.cons.inj heq).1
    · cases (List.cons.inj heq).1
      exact (size_asIf g _).le
  · rcases hfront with ⟨-, rfl⟩ | ⟨-, rfl⟩ <;> rfl
  · rcases hfront with ⟨-, rfl⟩ | ⟨-, rfl⟩ <;> rfl
  · rw [subscribeMember, hget, if_pos rfl] at hx
    cases hx
    cases he with
    | @child _ _ _ i _ id q f hc hid hplace =>
      rcases getElem?_concat hc with hc | ⟨hi, hc⟩
      · -- it was posted before
        rcases getElem?_concat hid with hid | ⟨hi, -⟩
        · have hentered : Watcher.Enters (.object plan b.site (some books)) d (.property id books.subject q) :=
            .child hc hid hplace
          exact Or.inr ⟨.entered hbooks hentered, hu.grown.lt_of_enters hbooks hentered⟩
        · exact absurd (List.getElem?_eq_some_iff.mp hc).1 (by omega)
      · refine Or.inl ?_
        rcases hfront with ⟨rfl, -⟩ | ⟨rfl, rfl⟩
        · cases hc
        · obtain rfl : d = g.watchers.size := Option.some.inj hc
          obtain rfl : q = p := by
            rw [hi, hpaired] at hplace
            exact congrArg Prod.fst (Option.some.inj (hplace.symm.trans hentry))
          have hvalue : ((g₁.asIf (b.draft :: draftsOf rest)).subscribeMember b.watcher books q
              (some g.watchers.size)).memberValue b.subject q = g.memberValue b.subject q := by
            rw [memberValue_congr (subscribeMember_outline ..), asIf, memberValue_dressed, memberValue_congr houtline]
          refine heeds_soon (congrArg (fun v => Task.bind g.watchers.size v :: _) hvalue.symm) fun d hd => ?_
          rw [hdrafts] at hd
          rcases List.mem_cons.mp hd with rfl | hd
          · exact (Array.getElem?_eq_some_iff.mp hw).1
          · exact hu.drafted_behind.lt hd
  · rw [subscribeMember, hget, if_pos rfl] at hx
    cases hx

theorem Underway.attends_bindChild (hhere : g.home s p = s) :
    g.AttendsTo (.register s p l (.binding b)) rest
      ((g.enterListener s p l).bindChild b g.nextSubscription) missed := by
  obtain ⟨plan, batch, -, -, hplace, hbooks, -, -⟩ := hu.next_place hcalm
  have hgrown : (g.asIf (b.draft :: draftsOf rest)).Grown (g.roots ++ rest.flatMap Task.tops) := hu.grown
  rcases bindChild_cases (g.enterListener s p l) hplace g.nextSubscription with ⟨-, hbind⟩ | ⟨x, -, hx, hbind⟩
  · rw [hbind]
    refine hu.attends_entered hcalm hrest hhere g none [] (fun hx => hx) rfl rfl hgrown (.refl _ _)
      (fun hy => Or.inl ?_) (Or.inl ⟨rfl, rfl⟩)
    exact (Array.getElem?_eq_some_iff.mp hy).1.trans_eq (size_asIf g _)
  · have hasIf : (g.addWatcher x).asIf (b.draft :: draftsOf rest) = (g.asIf (b.draft :: draftsOf rest)).addWatcher x :=
      asIf_addWatcher (fun d hd => hu.drafted.lt hd) x
    have hlt := (Array.getElem?_eq_some_iff.mp hbooks).1
    rw [hbind, ← addWatcher_enterListener, enterListener_watchers, memberValue_congr (g.enterListener_outline s p l)]
    refine hu.attends_entered hcalm hrest hhere (g.addWatcher x) (some g.watchers.size) [_] addWatcher_old rfl rfl
      (hasIf ▸ hgrown.addWatcher hx) (hasIf ▸ addWatcher_grows _ x hlt) (fun hy => ?_) (Or.inr ⟨rfl, rfl⟩)
    rw [hasIf] at hy
    exact (addWatcher_fresh hx hy).imp_left fun hy => hy.trans_eq (size_asIf g _)

end

/-! ### Members are watched -/

section

variable {e : Enrolment κ} (hu : g.Underway (.enrol e :: rest))
  (hcalm : Scene.Undisturbed { world := g, agenda := .enrol e :: rest }) (hrest : ∀ w v, .bind w v ∉ rest)

/-- What a task recruits it recruits for the watcher that it works for. -/
theorem recruits_enrol_of_ne (e : Enrolment κ) {v : WatcherId} (hv : v ≠ e.watcher) : (Task.enrol e).recruits v = [] :=
  if_neg (Ne.symm hv)

include hu hcalm hrest

/-- A watcher that is being bound **enters the next member**, which is about to be watched. -/
theorem Underway.attends_enlist {c : CollectionId × SubscriptionId} (hbinds : e.binds = some c) {o : ObjectId}
    {pending : List ObjectId} (hpending : e.pending = o :: pending) :
    g.AttendsTo (.enrol e) rest (g.addWatcher (.object e.item e.site none),
      [.bind g.watchers.size (.object o), .enrol (e.join o g.watchers.size pending)]) missed := by
  unfold AttendsTo
  obtain ⟨membership, b, hw, hdone, hdraft, hdrafts', hbooks, hasIf⟩ := hu.next_member hcalm hbinds o pending
  set x : Watcher κ := .object e.item e.site none with hx
  have hshaped := hu.grown.toShaped
  have htopsOf := hu.topsOf_lt (draftsOf (.enrol e :: rest))
  have hdrafted : ∀ d ∈ draftsOf (.enrol e :: rest), d.watcher < g.watchers.size := fun d hd => hu.drafted.lt hd
  simp only [draftsOf_cons_some hdraft] at hshaped htopsOf hdrafted ⊢
  set h := g.asIf (.collection e.watcher b :: draftsOf rest) with hh
  have hlt : e.watcher < h.watchers.size := (Array.getElem?_eq_some_iff.mp hbooks).1
  have hbooks₁ : (h.addWatcher x).watchers[e.watcher]? = some (.collection e.item membership e.site (some b)) :=
    addWatcher_old hbooks
  have hget := getElem?_bindCollection hbooks₁ { b with items := b.items ++ [(o, g.watchers.size)] }
  rw [hdrafts', hasIf]
  refine attends_of_grows ((addWatcher_grows h x hlt).trans (bindCollection_grows hbooks₁ _) hlt (Or.inl rfl))
    ⟨_, hbooks, rfl⟩ (fun {y z} hy => ?_) hshaped htopsOf hrest (Task.enrol_ne_bind e) rfl rfl (by simp)
      (fun {d v later} heq => ?_) ?_
    (fun v hv => ?_) (fun {z d q} hz hd => ?_) fun {item membership' site b'} hz _ => ?_
  · rw [hget] at hy
    split at hy
    · rename_i hyw
      exact Or.inl (hyw ▸ hlt)
    · exact addWatcher_fresh rfl hy
  · cases (List.cons.inj heq).1
    exact (size_asIf g _).le
  · simp [Task.tops, Enrolment.join, hbinds]
  · simp only [List.flatMap_cons, List.flatMap_nil, recruits_enrol_of_ne e hv,
      recruits_enrol_of_ne (e.join o g.watchers.size pending) hv]
    rfl
  · rw [hget, if_pos rfl] at hz
    cases hz
    cases hd with
    | @member _ _ _ _ m hm =>
      rcases List.mem_append.mp hm with hm | hm
      · have hentered : Watcher.Enters (.collection e.item membership e.site (some b)) m.2 (.object m.1) := .member hm
        exact Or.inr ⟨.entered hbooks hentered, hshaped.lt_of_enters hbooks hentered⟩
      · obtain rfl := List.mem_singleton.mp hm
        refine Or.inl (heeds_soon rfl fun d hd => ?_)
        rw [hdrafts'] at hd
        rcases List.mem_cons.mp hd with rfl | hd
        · exact (Array.getElem?_eq_some_iff.mp hw).1
        · exact hdrafted d (List.mem_cons_of_mem _ hd)
  · rw [hget, if_pos rfl] at hz
    cases hz
    refine ⟨b, hbooks, rfl, rfl, ?_⟩
    simp [Task.recruits, Enrolment.join, hbinds, hpending]

omit hcalm in
/-- **The next member that is to join** is about to be watched. -/
theorem Underway.attends_enlist_joining (hbinds : e.binds = none) {o : ObjectId} {pending : List ObjectId}
    (hpending : e.pending = o :: pending) : g.AttendsTo (.enrol e) rest (g.addWatcher (.object e.item e.site none),
      [.bind g.watchers.size (.object o), .enrol (e.join o g.watchers.size pending)]) missed := by
  unfold AttendsTo
  set x : Watcher κ := .object e.item e.site none with hx
  have hdrafts' := draftsOf_join hbinds o g.watchers.size pending rest
  have hasIf : (g.addWatcher x).asIf (draftsOf (.enrol e :: rest)) =
      (g.asIf (draftsOf (.enrol e :: rest))).addWatcher x :=
    asIf_addWatcher (fun d hd => hu.drafted.lt hd) x
  have htopsOf := hu.topsOf_lt (draftsOf (.enrol e :: rest))
  have hshaped := hu.grown.toShaped
  have hsize := size_asIf g (draftsOf (.enrol e :: rest))
  have hdrafted : ∀ d ∈ draftsOf (.enrol e :: rest), d.watcher < g.watchers.size := fun d hd => hu.drafted.lt hd
  have hjoin : (e.join o g.watchers.size pending).binds = none := hbinds
  rw [hdrafts', hasIf]
  set h := g.asIf (draftsOf (.enrol e :: rest)) with hh
  refine attends_of_same hrest (Task.enrol_ne_bind e) rfl rfl (by simp) (fun {c q} hf => ?_)
    fun {w item membership site b} hw _ => ?_
  · have hkept (hf : h.Follows (.enrol e :: rest) c q) (hc : c < h.watchers.size) :
        h.Follows (.enrol e :: rest) c q ∧ (h.addWatcher x).aim c = h.aim c ∧ ∀ v later,
          [Task.bind g.watchers.size (.object o), .enrol (e.join o g.watchers.size pending)] ≠ .bind c v :: later := by
      refine ⟨hf, aim_addWatcher h x (ne_of_lt hc), fun v later heq => ?_⟩
      cases (List.cons.inj heq).1
      exact lt_irrefl _ (hc.trans_eq hsize)
    cases hf with
    | entered hw hq =>
      have hw := addWatcher_bound rfl hw hq.isSome_target
      exact Or.inr (hkept (.entered hw hq) (hshaped.lt_of_enters hw hq))
    | @joining e' d he hbinds' hd =>
      rcases List.mem_append.mp he with he | he
      · obtain rfl : e' = e.join o g.watchers.size pending := by simpa using he
        rcases List.mem_append.mp hd with hd | hd
        · exact Or.inr (hkept (.joining List.mem_cons_self hbinds hd)
            (htopsOf _ (mem_topsOf_task List.mem_cons_self (mem_tops_of_done hbinds hd))))
        · obtain rfl := List.mem_singleton.mp hd
          refine Or.inl (heeds_soon rfl fun d hd => ?_)
          rw [hdrafts'] at hd
          exact hdrafted d hd
      · have he := List.mem_cons_of_mem (.enrol e) he
        exact Or.inr (hkept (.joining he hbinds' hd) (htopsOf _ (mem_topsOf_task he (mem_tops_of_done hbinds' hd))))
    | top hc hz =>
      have hc : (∃ v, h.treeRoot v = some c) ∨ ∃ v, .plant v c ∈ Task.enrol e :: rest := by
        refine hc.imp_right (Exists.imp fun v hplant => ?_)
        rcases List.mem_append.mp hplant with hplant | hplant
        · simp at hplant
        · exact List.mem_cons_of_mem _ hplant
      have hlt : c < h.watchers.size := htopsOf c (mem_topsOf_of_top hc)
      rw [getElem?_addWatcher, if_neg (ne_of_lt hlt)] at hz
      exact Or.inr (hkept (.top hc hz) hlt)
  · refine ⟨addWatcher_bound rfl hw rfl, ?_⟩
    by_cases hv : w = e.watcher
    · subst hv
      simp [Task.recruits, Enrolment.join, hbinds, hpending]
    · simp only [List.flatMap_cons, List.flatMap_nil, recruits_enrol_of_ne e hv,
        recruits_enrol_of_ne (e.join o g.watchers.size pending) hv]
      exact .refl _

/-- **Members that were to join** are entered with the others. -/
theorem Underway.attends_gather (hbinds : e.binds = none) {item membership site b}
    (hget : g.watchers[e.watcher]? = some (.collection item membership site (some b)))
    (hdone : e.item.isNil = true ∨ e.pending = []) :
    g.AttendsTo (.enrol e) rest
      (g.bindCollection e.watcher { b with items := b.items ++ e.done }, [.fire site membership]) missed := by
  unfold AttendsTo
  have hitem : item = e.item := by
    obtain ⟨-, hfits⟩ := hu.fits _ List.mem_cons_self
    rw [hbinds] at hfits
    obtain ⟨⟨membership', bound, hw, -⟩, -⟩ := hfits
    rw [hget] at hw
    exact (Watcher.collection.inj (Option.some.inj hw)).1
  have hne := hcalm.joins List.mem_cons_self hbinds
  have hdrafts' := draftsOf_gather hbinds site membership rest
  have hbooks := (getElem?_asIf_of_not_mem (g := g) hne).trans hget
  have htopsOf := hu.topsOf_lt (draftsOf (.enrol e :: rest))
  rw [hdrafts', asIf_bindCollection hget hne]
  have hget' := getElem?_bindCollection hbooks { b with items := b.items ++ e.done }
  refine attends_of_grows (bindCollection_grows hbooks _) ⟨_, hbooks, rfl⟩ (fun {y z} hy => Or.inl ?_)
    hu.grown.toShaped htopsOf hrest (Task.enrol_ne_bind e) rfl rfl (by simp) (fun heq => by simp at heq) rfl
      (fun v hv => ?_) (fun {z d q} hz hd => Or.inr ?_)
    fun {item' membership' site' b'} hz hnil => ?_
  · simpa [bindCollection] using (Array.getElem?_eq_some_iff.mp hy).1
  · rw [recruits_enrol_of_ne e hv]
    rfl
  · rw [hget', if_pos rfl] at hz
    cases hz
    cases hd with
    | @member _ _ _ _ m hm =>
      rcases List.mem_append.mp hm with hm | hm
      · have hentered : Watcher.Enters (.collection item membership site (some b)) m.2 (.object m.1) := .member hm
        exact ⟨.entered hbooks hentered, hu.grown.lt_of_enters hbooks hentered⟩
      · exact ⟨.joining List.mem_cons_self hbinds hm,
          htopsOf _ (mem_topsOf_task List.mem_cons_self (mem_tops_of_done hbinds hm))⟩
  · rw [hget', if_pos rfl] at hz
    cases hz
    refine ⟨b, hbooks, rfl, rfl, ?_⟩
    have hpending : e.pending = [] := hdone.resolve_left fun hitem' => by
      rw [hitem, hitem'] at hnil
      cases hnil
    simp [Task.recruits, hbinds, hpending]

end

end

end World

end LiveRules
