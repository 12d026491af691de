/-
# The course of a run in which watchers are being bound

Whatever the most urgent task is, what holds while watchers are being bound holds still
when it has been carried out, as long as nobody meddles with what is being bound. So it
holds in every run in which nobody does.

Key theorems: `World.Underway.step`, `Run.underway`.
-/
import LiveRules.Proofs.Machine.Runs
import LiveRules.Proofs.Reentry.Departures

namespace LiveRules

variable {κ σ : Type} {L : Language κ σ}

/-- Whoever gives a tree up meddles with nothing. -/
theorem Scene.Undisturbed.giveUp {g : World κ} {agenda : List (Task κ)}
    (hcalm : Scene.Undisturbed { world := g, agenda }) (v : TreeId) :
    Scene.Undisturbed { world := g.modifyTree v fun x => { x with dropped := true }, agenda } := by
  have htrees := World.treeRoot_giveUp g v
  refine ⟨hcalm.once, fun d hd => (hcalm.kept d hd).imp_left fun hmem => ?_,
    fun t w hmem => (htrees t).trans (hcalm.planted t w hmem)⟩
  refine List.mem_append.mpr ((List.mem_append.mp hmem).imp_left fun hmem => ?_)
  obtain ⟨t, ht⟩ := World.mem_roots_iff.mp hmem
  exact World.mem_roots_iff.mpr ⟨t, (htrees t).trans ht⟩

namespace World

variable {g : World κ} {rest : List (Task κ)}

/-! ### Subscriptions -/

/-- Where a subscription is entered, hooks and watchers apart. -/
theorem home_cases {ws : Array (Watcher κ)} (hg : (g.dressed ws).Sane) (o : ObjectId) (p : String) :
    g.home (.object o) p = if g.answersFor p o = true then .object o
      else match g.baseOf o with
        | some b => g.home (.object b) p
        | none => .object o := by
  have hholder := hg.holder_eq o p
  simp only [holder_dressed, answersFor_dressed, baseOf_dressed] at hholder
  simp only [home, hholder]
  split
  · rfl
  · cases g.baseOf o <;> rfl

section

variable {s : Subject} {p : String} {l : Listener κ} {r : Receiver κ}

/-- **Before a subscription** the hook runs that is due. -/
theorem Underway.subscribe (hu : g.Underway (.subscribe s p l r :: rest))
    (hcalm : Scene.Undisturbed { world := g, agenda := .subscribe s p l r :: rest }) :
    (g.subscribe s p l r).1.Underway ((g.subscribe s p l r).2 ++ rest) := by
  have hfits := hu.fits _ List.mem_cons_self
  have hnone : g.Underway ([.register s p l r] ++ rest) := by
    refine hu.aside hcalm rfl (fun _ => .refl) ?_ rfl fun u hmem => ?_
    · show List.filterMap Task.draft? [.register s p l r] = _
      cases r <;> rfl
    · obtain rfl := List.mem_singleton.mp hmem
      exact hfits
  cases s with
  | command c => exact hnone
  | object o =>
    unfold World.subscribe
    simp only
    split
    · rename_i k g' htake
      have hdressed := dressed_takeHook htake
      refine hu.aside hcalm (takeHook_watchers htake) (fun ws => hdressed ws ▸ .refl) ?_ rfl fun u hmem => ?_
      · show List.filterMap Task.draft? (callOn k o ++ [.register (.object o) p l r]) = _
        cases r <;> rfl
      · rcases List.mem_append.mp hmem with hmem | hmem
        · simp only [callOn, List.mem_cons, List.not_mem_nil, or_false] at hmem
          rcases hmem with rfl | rfl <;> trivial
        · obtain rfl := List.mem_singleton.mp hmem
          cases r with
          | code k => exact hfits
          | binding b =>
            have hvalue : ∀ v, g'.hasValue v = g.hasValue v := fun v => by
              rw [← hasValue_dressed g' g.watchers, hdressed, hasValue_dressed]
            have hhome : ∀ s, g'.home s p = g.home s p := fun s => by
              rw [← home_dressed g' g.watchers, hdressed, home_dressed]
            obtain ⟨⟨plan, hw, hrest⟩, hl, hplace, hs, hsame⟩ := hfits
            refine ⟨⟨plan, ?_, hrest⟩, hl, hplace, (hvalue _).trans hs, (hhome _).trans (hsame.trans (hhome _).symm)⟩
            rw [takeHook_watchers htake]
            exact hw
    · exact hnone

/-- **A subscription is made**, there or at a base. -/
theorem Underway.register (hu : g.Underway (.register s p l r :: rest))
    (hcalm : Scene.Undisturbed { world := g, agenda := .register s p l r :: rest }) :
    (g.register s p l r).1.Underway ((g.register s p l r).2 ++ rest) := by
  have hfits := hu.fits _ List.mem_cons_self
  obtain ⟨ws, hsane⟩ : ∃ ws, (g.dressed ws).Sane := ⟨_, hu.grown.sane⟩
  have hhere (hhome : g.home s p = s) : ((g.enterListener s p l).answer g.nextSubscription r).1.Underway
      (((g.enterListener s p l).answer g.nextSubscription r).2 ++ rest) := by
    cases r with
    | binding b => exact hu.bindChild hcalm hhome
    | code k =>
      obtain ⟨k', context, rfl⟩ := hfits
      exact hu.light hcalm (g.enterListener_watchers ..)
        (fun ws => (Alters.listen s p k' context).altered.dressed ws) rfl rfl
        (by simp [answer, Task.Light])
  cases s with
  | command c => exact hhere rfl
  | object o =>
    have hcases := home_cases hsane o p
    unfold World.register
    simp only
    cases hbase : g.baseOf o with
    | none =>
      refine hhere ?_
      rw [hcases, hbase]
      split <;> rfl
    | some b =>
      by_cases hanswers : g.answersFor p o = true
      · rw [if_pos hanswers] at hcases
        simp only [hanswers, if_true]
        exact hhere hcases
      · rw [if_neg hanswers, hbase] at hcases
        simp only [hanswers]
        refine hu.aside hcalm rfl (fun _ => .refl) ?_ rfl fun u hmem => ?_
        · show List.filterMap Task.draft? [.subscribe (.object b) p l r] = _
          cases r <;> rfl
        · obtain rfl := List.mem_singleton.mp hmem
          cases r with
          | code k => exact hfits
          | binding d =>
            obtain ⟨hb, hl, hplace, hs, hsame⟩ := hfits
            refine ⟨hb, hl, hplace, ?_, hcases.symm.trans hsame⟩
            have holder := hsane.older o b ((baseOf_dressed ..).trans hbase)
            simp only [hasValue, Subject.value, hasObject, decide_eq_true_eq] at hs ⊢
            exact holder.trans hs

end

/-- **A watcher that is being bound** goes on to the next property, or is done. -/
theorem Underway.bindMembers {b : Binding κ} (hu : g.Underway (.bindMembers b :: rest))
    (hcalm : Scene.Undisturbed { world := g, agenda := .bindMembers b :: rest }) :
    (g.bindMembers b).1.Underway ((g.bindMembers b).2 ++ rest) := by
  have hfits := hu.fits _ List.mem_cons_self
  have hknown := hu.known_subject (b := b) hcalm.drafts_nodup List.mem_cons_self
  have hnext {p : String} {batch : Batch κ} (hplace : b.rest.place? 0 = some (p, batch)) :
      g.Underway ([.subscribe b.subject p (.member b.watcher b.subscriptions.length) (.binding b)] ++ rest) := by
    refine hu.aside hcalm rfl (fun _ => .refl) rfl rfl fun u hmem => ?_
    obtain rfl := List.mem_singleton.mp hmem
    exact ⟨hfits, rfl, ⟨batch, hplace⟩, hknown, rfl⟩
  unfold World.bindMembers
  simp only
  split
  · rename_i hrest
    rw [bindObject_eq_enter]
    refine hu.finish hcalm rfl rfl fun {w c plan site} hd hw => ?_
    cases hd
    obtain ⟨plan', hw', hdrop⟩ := hfits
    rw [hw] at hw'
    cases hw'
    -- nothing of the plan is left, and no more has been subscribed to than it asks for
    have hleft := congrArg Plan.length hdrop
    rw [Plan.length_drop, hrest] at hleft
    have hbooks := getElem?_asIf_of_mem (g := g) (d := b.draft) hcalm.drafts_nodup List.mem_cons_self
    have hfew := hu.grown.fits (hbooks.trans (congrArg (Option.map b.draft.fill) hw))
    exact le_antisymm hfew (Nat.sub_eq_zero_iff_le.mp hleft)
  · rename_i hrest
    exact hnext (by rw [hrest]; rfl)
  · rename_i hrest
    exact hnext (by rw [hrest]; rfl)
  · rename_i hrest
    exact hnext (by rw [hrest]; rfl)

/-- What an enrolment comes to. -/
theorem enrol_cases (g : World κ) (e : Enrolment κ) :
    (∃ o pending, e.pending = o :: pending ∧ g.enrol e = (g.addWatcher (.object e.item e.site none),
      [.bind g.watchers.size (.object o), .enrol (e.join o g.watchers.size pending)])) ∨
    (e.item.isNil = true ∨ e.pending = []) ∧
      ((∃ c, e.binds = some c ∧ g.enrol e = (g.bindCollection e.watcher ⟨c.1, c.2, e.done⟩, [])) ∨
      (e.binds = none ∧ ∃ item membership site b,
        g.watchers[e.watcher]? = some (.collection item membership site (some b)) ∧
        g.enrol e = (g.bindCollection e.watcher { b with items := b.items ++ e.done }, [.fire site membership])) ∨
      e.binds = none ∧
        (∀ item membership site b, g.watchers[e.watcher]? ≠ some (.collection item membership site (some b))) ∧
        g.enrol e = ((e.done.map (·.2)).foldl World.unbind g, [])) := by
  unfold World.enrol
  split
  · rename_i o pending hnil hpending
    exact Or.inl ⟨o, pending, hpending, rfl⟩
  · rename_i hnone
    refine Or.inr ⟨?_, ?_⟩
    · cases hnil : e.item.isNil with
      | true => exact Or.inl rfl
      | false =>
        cases hpending : e.pending with
        | nil => exact Or.inr rfl
        | cons o pending => exact (hnone o pending hnil hpending).elim
    · split
      · rename_i c id hbinds
        exact Or.inl ⟨(c, id), hbinds, rfl⟩
      · rename_i hbinds
        refine Or.inr ?_
        split
        · rename_i item membership site b hw
          exact Or.inl ⟨hbinds, item, membership, site, b, hw, rfl⟩
        · rename_i hnot
          exact Or.inr ⟨hbinds, hnot, rfl⟩

/-- **Members that are being watched**: the next one, or all are. -/
theorem Underway.enrol {e : Enrolment κ} (hu : g.Underway (.enrol e :: rest))
    (hcalm : Scene.Undisturbed { world := g, agenda := .enrol e :: rest })
    (hcalm' : Scene.Undisturbed { world := (g.enrol e).1, agenda := (g.enrol e).2 ++ rest }) :
    (g.enrol e).1.Underway ((g.enrol e).2 ++ rest) := by
  rcases g.enrol_cases e with ⟨o, pending, hpending, henrol⟩ | ⟨-, ⟨c, hbinds, henrol⟩ |
    ⟨hbinds, item, membership, site, b, hw, henrol⟩ | ⟨hbinds, -, henrol⟩⟩ <;> rw [henrol] at hcalm' ⊢
  · cases hbinds : e.binds with
    | some c => exact hu.enlist hcalm hbinds hpending
    | none => exact hu.enlist_joining hcalm hbinds hpending
  · rw [bindCollection_eq_enter]
    exact hu.finish hcalm (Task.draft?_binding hbinds) (by simp [Task.tops, hbinds]) nofun
  · exact hu.gather hcalm hbinds hw
  · exact hu.disband hcalm hbinds hcalm'

/-! ### Deliveries -/

/-- What telling a listener of a property comes to: what watches the value below a watcher is
to be bound anew, and otherwise nothing that binds. -/
theorem deliver_cases (scene : Scene κ) (s : Subject) (k : SubscriptionId) (l : Listener κ) :
    (∀ u ∈ scene.deliver s k l, u.Light scene.world) ∨
      (scene.world.notifierOf s).isLive k = true ∧ ∃ (w i c : Nat) (plan : WatchPlan κ) (site : Attachment)
        (b : BoundObject) (p : String) (batch : Batch κ), l = .member w i ∧
          scene.world.watchers[w]? = some (.object plan site (some b)) ∧ b.children[i]? = some (some c) ∧
          scene.deliver s k l = [.bind c (scene.world.memberValue b.subject p), .fire site batch,
            .release (.value b.subject.value), .release (.watcher w)] := by
  unfold Scene.deliver
  simp only
  split
  · rename_i hlive
    split
    · exact Or.inl (by simp [Task.Light])
    · split
      · exact Or.inl (by simp [callOn, Task.Light])
      · exact Or.inl (by simp)
    · split
      · rename_i w i _
        unfold World.memberChanged
        split
        · rename_i plan site b hw
          split
          · rename_i p batch _
            cases hchild : b.children[i]?.bind id with
            | none => exact Or.inl (by simp [Task.Light])
            | some c =>
              obtain ⟨d, hd, rfl⟩ := Option.bind_eq_some_iff.mp hchild
              exact Or.inr ⟨hlive, w, i, c, plan, site, b, p, batch, rfl, hw, hd, rfl⟩
          · exact Or.inl (by simp)
        · exact Or.inl (by simp)
      · exact Or.inl (by simp)
  · exact Or.inl (by simp)

/-- **A watcher is told of a change** of a property: what watches its value is to be bound
anew, and then its batch fires. -/
theorem Underway.deliver {s : Subject} {k : SubscriptionId} {l : Listener κ} (hu : g.Underway (.deliver s k l :: rest))
    (hcalm : Scene.Undisturbed { world := g, agenda := .deliver s k l :: rest }) :
    g.Underway (Scene.deliver { world := g, agenda := .deliver s k l :: rest } s k l ++ rest) := by
  rcases deliver_cases { world := g, agenda := .deliver s k l :: rest } s k l with
    hlight | ⟨-, w, i, c, plan, site, b, p, batch, rfl, hw, hc, hdeliver⟩
  · exact hu.light hcalm rfl (fun _ => .refl) rfl rfl hlight
  · rw [hdeliver]
    refine hu.aside hcalm rfl (fun _ => .refl) rfl rfl fun u hmem => ?_
    simp only [List.mem_cons, List.not_mem_nil, or_false] at hmem
    rcases hmem with rfl | rfl | rfl | rfl
    · have hlisted : c ∈ g.listed w := by
        rw [listed_of_get hw]
        exact List.reduceOption_mem_iff.mpr (List.mem_of_getElem? hc)
      refine ⟨(hu.drafted.shaped hu.grown.toShaped).lt_of_mem_listed hlisted, ?_⟩
      have hvalue := hu.grown.sane.hasValue_memberValue b.subject p
      rwa [asIf, hasValue_dressed, memberValue_dressed] at hvalue
    all_goals trivial

/-- What a change comes to for a listener of a collection. -/
theorem deliverChange_cases (scene : Scene κ) (c : CollectionId) (k : SubscriptionId) (l : ChangeListener κ)
    (change : Change) : scene.deliverChange c k l change = (scene.world, []) ∨
    (∃ k', scene.deliverChange c k l change = (scene.world, [.request (.call k' (.changed change))])) ∨
    (scene.world.listenersOfCollection c).has k = true ∧ ∃ w item membership site b, l = .membership w ∧
      scene.world.watchers[w]? = some (.collection item membership site (some b)) ∧
      scene.deliverChange c k l change = (scene.world.taken w b change.removed,
        [.enrol { watcher := w, site, item, binds := none, pending := change.added }, .release (.watcher w)]) := by
  unfold Scene.deliverChange
  simp only
  split
  · rename_i hhas
    split
    · exact Or.inr (Or.inl ⟨_, rfl⟩)
    · rename_i w
      split
      · unfold World.membershipChanged
        split
        · rename_i item membership site b hw _
          exact Or.inr (Or.inr ⟨hhas, w, item, membership, site, b, rfl, hw, rfl⟩)
        · exact Or.inl rfl
      · exact Or.inl rfl
  · exact Or.inl rfl

/-- **A listener of a collection is told of a change.** -/
theorem Underway.deliverChange {c : CollectionId} {k : SubscriptionId} {l : ChangeListener κ} {change : Change}
    (hu : g.Underway (.deliverChange c k l change :: rest))
    (hcalm : Scene.Undisturbed { world := g, agenda := .deliverChange c k l change :: rest })
    {r : World κ × List (Task κ)}
    (hr : Scene.deliverChange { world := g, agenda := .deliverChange c k l change :: rest } c k l change = r)
    (hcalm' : Scene.Undisturbed { world := r.1, agenda := r.2 ++ rest }) : r.1.Underway (r.2 ++ rest) := by
  rcases deliverChange_cases { world := g, agenda := .deliverChange c k l change :: rest } c k l change with
    hcase | ⟨k', hcase⟩ | ⟨-, w, item, membership, site, b, rfl, hw, hcase⟩ <;> rw [hcase] at hr <;> subst hr
  · exact hu.light hcalm rfl (fun _ => .refl) rfl rfl (by simp)
  · exact hu.light hcalm rfl (fun _ => .refl) rfl rfl (by simp [Task.Light])
  · exact hu.membershipChanged hw hcalm' hcalm

/-! ### Requests -/

/-- **A tree that was given up** is disposed of, if nothing holds it any more. -/
theorem Underway.bury {t : Task κ} (hu : g.Underway (t :: rest))
    (hcalm : Scene.Undisturbed { world := g, agenda := t :: rest })
    (hdraft : t.draft? = none) (htops : t.tops = []) (v : TreeId)
    (hcalm' : Scene.Undisturbed { world := Scene.bury { world := g, agenda := rest } v, agenda := rest }) :
    (Scene.bury { world := g, agenda := rest } v).Underway rest := by
  rcases Scene.bury_cases { world := g, agenda := rest } v with hbury | hbury <;> rw [hbury] at hcalm' ⊢ <;>
    show World.Underway _ ([] ++ rest)
  · exact hu.dispose hcalm hdraft htops (by simp) hcalm'
  · exact hu.light hcalm rfl (fun _ => .refl) hdraft htops (by simp)

/-- **A request is granted.** -/
theorem Underway.grant {r : Request κ} (hu : g.Underway (.request r :: rest))
    (hcalm : Scene.Undisturbed { world := g, agenda := .request r :: rest })
    (hcalm' : Scene.Undisturbed { world := (g.grant rest r).1, agenda := (g.grant rest r).2 ++ rest }) :
    (g.grant rest r).1.Underway ((g.grant rest r).2 ++ rest) := by
  have hlight (hhook : ∀ o p k, r ≠ .hook o p k) (hr : r.plants = false) :
      (g.grant rest r).1.Underway ((g.grant rest r).2 ++ rest) := by
    have hitems : ∀ c, ∀ o ∈ g.itemsOf c, g.hasObject o = true := fun c o ho =>
      (hasObject_dressed ..).symm.trans (hu.grown.sane.items c o ho)
    have haltered := altered_grant hitems hhook hr rest
    exact hu.light hcalm haltered.watchers haltered.dressed rfl rfl (light_grant hr rest)
  cases r with
  | hook o p k =>
    exact hu.light hcalm rfl (fun ws => dressed_hooks g o (fun hooks => hooks ++ [(p, k)]) ws ▸ .refl) rfl rfl
      (light_grant rfl rest)
  | attach v context =>
    unfold World.grant at hcalm' ⊢
    simp only at hcalm' ⊢
    split
    · rename_i hcontext
      rw [if_pos hcontext] at hcalm'
      unfold World.attach at hcalm' ⊢
      simp only at hcalm' ⊢
      split
      · rename_i tree htree
        rw [htree] at hcalm'
        exact hu.attach hcalm rfl rfl hcontext htree rfl hcalm'
      · rename_i htree
        rw [htree] at hcalm'
        exact hu.dispose hcalm rfl rfl (by simp) hcalm'
    · exact hu.light hcalm rfl (fun _ => .refl) rfl rfl (by simp)
  | dispose v => exact hu.dispose (t := .request (.dispose v)) hcalm rfl rfl (List.forall_mem_nil _) hcalm'
  | drop v =>
    have hmarked : (g.modifyTree v fun x => { x with dropped := true }).Underway ([.request (.drop v)] ++ rest) :=
      hu.light hcalm rfl (fun ws => (Alters.giveUp v).altered.dressed ws) rfl rfl (by simp [Task.Light])
    exact hmarked.bury (hcalm.giveUp v) rfl rfl v hcalm'
  | _ => exact hlight (by simp) rfl

end World

/-! ### Every task -/

/-- **Every step** leaves what holds while watchers are being bound, as long as nobody
meddles with what is being bound. -/
theorem World.Underway.step {m : Machine κ σ} (hu : m.world.Underway m.agenda) (hcalm : m.toScene.Undisturbed)
    (hcalm' : (L.step m).toScene.Undisturbed) : (L.step m).world.Underway (L.step m).agenda := by
  obtain ⟨⟨g, agenda⟩, s⟩ := m
  cases agenda with
  | nil => exact hu
  | cons t rest =>
    have hu : g.Underway (t :: rest) := hu
    have hcalm : Scene.Undisturbed { world := g, agenda := t :: rest } := hcalm
    have hlight {new : List (Task κ)} (hdraft : t.draft? = none) (htops : t.tops = []) (hnew : ∀ u ∈ new, u.Light g) :
        g.Underway (new ++ rest) := hu.light hcalm rfl (fun _ => .refl) hdraft htops hnew
    cases t with
    | request r =>
      cases r with
      | call k signal =>
        refine hlight rfl rfl fun u hmem => ?_
        obtain ⟨r, -, rfl⟩ := List.mem_map.mp hmem
        trivial
      | _ => exact hu.grant hcalm hcalm'
    | perform a context =>
      have haltered := L.altered_perform { world := g, agenda := .perform a context :: rest } s a context
      exact hu.light hcalm haltered.watchers haltered.dressed rfl rfl (L.light_perform _ s a context)
    | fire site batch =>
      refine hlight rfl rfl fun u hmem => ?_
      simp only [Language.carry] at hmem
      split at hmem
      · rcases List.mem_append.mp hmem with hmem | hmem
        · obtain ⟨e, -, rfl⟩ := List.mem_map.mp hmem
          trivial
        · obtain rfl := List.mem_singleton.mp hmem
          trivial
      · cases hmem
    | deliver subject k l => exact hu.deliver hcalm
    | deliverChange c k l change => exact hu.deliverChange hcalm rfl hcalm'
    | bind w v => exact hu.bind hcalm hcalm'
    | bindMembers b => exact hu.bindMembers hcalm
    | enrol e => exact hu.enrol hcalm hcalm'
    | subscribe subject p l r => exact hu.subscribe hcalm
    | register subject p l r => exact hu.register hcalm
    | plant v w => exact hu.plant hcalm
    | release held =>
      have hnone : g.Underway ([] ++ rest) := hlight rfl rfl (by simp)
      cases held with
      | tree v => exact hu.bury hcalm rfl rfl v hcalm'
      | value v => exact hnone
      | watcher w => exact hnone

/-- Nothing is being bound in the empty world. -/
theorem World.underway_empty : ({} : World κ).Underway [] := by
  constructor
  case grown =>
    show (({} : World κ).asIf []).Grown []
    have hasIf : ({} : World κ).asIf [] = {} := by simp [World.asIf, World.dressed, written]
    rw [hasIf]
    exact World.empty_grown
  case fits => simp
  case distinct => exact List.nodup_nil
  case unplanted => simp
  case headed => simp [World.treeRoot]
  case whole => simp

/-- At rest anything may be asked for. -/
theorem World.Underway.ask {g : World κ} (hu : g.Underway []) (requests : List (Request κ)) :
    g.Underway (requests.map .request) := by
  have hdrafts : draftsOf (requests.map (Task.request (κ := κ))) = [] := by
    simp [draftsOf, List.filterMap_map, Function.comp_def, Task.draft?]
  have htops : (requests.map (Task.request (κ := κ))).flatMap Task.tops = [] := by
    simp [List.flatMap_map, Task.tops]
  constructor
  case grown =>
    rw [hdrafts, World.topsOf, htops]
    exact hu.grown
  case fits =>
    intro t ht
    obtain ⟨r, -, rfl⟩ := List.mem_map.mp ht
    trivial
  case distinct => simp [htops]
  case unplanted => simp [htops]
  case headed => exact hu.headed
  case whole => exact hu.whole

/-- **In every run** in which nobody meddles with what is being bound, whatever code is
hooked on subscriptions. -/
theorem Run.underway {past : List (Machine κ σ)} {m : Machine κ σ} (h : Run L past m)
    (hcalm : ∀ n ∈ m :: past, n.toScene.Undisturbed) : m.world.Underway m.agenda := by
  induction h with
  | start s => exact World.underway_empty
  | ask h requests s' ih =>
    rename_i past g s
    have hrest : Scene.Undisturbed { world := g, agenda := [] } := ⟨.nil, by simp [draftsOf], by simp⟩
    exact World.Underway.ask (ih (List.forall_mem_cons.mpr ⟨hrest, fun n hn => hcalm n (List.mem_cons_of_mem _ hn)⟩))
      requests
  | step h ih =>
    rename_i past m
    exact (ih fun n hn => hcalm n (List.mem_cons_of_mem _ hn)).step (hcalm m (by simp)) (hcalm _ List.mem_cons_self)

end LiveRules
