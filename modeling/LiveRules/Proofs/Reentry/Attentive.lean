/-
# A whole run is heeded

Whatever the most urgent task is, when it has been carried out whoever is to follow something
follows it, is about to, or is to be told of it, other than where news was overlooked. So it
is in every run in which nobody meddles with what is being bound.

Key theorems: `World.Underway.attends_grant`, `World.Underway.attends`, `Run.attentive`.
-/
import LiveRules.Proofs.Reentry.Hearing

namespace LiveRules

variable {κ σ : Type} {L : Language κ σ}

namespace World

variable {g g' h h' : World κ} {t : Task κ} {rest new : List (Task κ)} {missed : SubscriptionId → Prop}

/-! ### What binds nobody -/

section

variable (hrest : ∀ w v, .bind w v ∉ rest)

include hrest

/-- **No watcher is touched**, and the drafts on the agenda are those that were there. -/
theorem attends_aside (ht : t.minds = false) (hnotice : t.isNotice = false) (hchange : t.isChange = false)
    (hwatchers : g'.watchers = g.watchers) (hroots : ∀ v, g'.treeRoot v = g.treeRoot v)
    (hdrafts : draftsOf new = t.draft?.toList) (hnew : ∀ u ∈ new, u.minds = false) :
    g.AttendsTo t rest (g', new) missed := by
  have hsame : draftsOf (new ++ rest) = draftsOf (t :: rest) := by
    calc draftsOf (new ++ rest)
      _ = t.draft?.toList ++ draftsOf rest := by rw [draftsOf_append, hdrafts]
      _ = draftsOf (t :: rest) := by
        cases hdraft : t.draft? with
        | none => exact (draftsOf_cons_none hdraft).symm
        | some d => exact (draftsOf_cons_some hdraft).symm
  unfold AttendsTo
  rw [hsame]
  refine attends_still hrest ht hnotice hnew ?_ hroots fun _ _ _ => Or.inr (owed_singleton_of_not_change hchange _ _)
  show written _ g'.watchers = written _ g.watchers
  rw [hwatchers]

/-- The same, where light tasks take the place of one that binds nothing. -/
theorem attends_light (ht : t.minds = false) (hnotice : t.isNotice = false) (hchange : t.isChange = false)
    (hdraft : t.draft? = none) (hwatchers : g'.watchers = g.watchers) (hroots : ∀ v, g'.treeRoot v = g.treeRoot v)
    (hnew : ∀ u ∈ new, u.Light g) :
    g.AttendsTo t rest (g', new) missed :=
  attends_aside hrest ht hnotice hchange hwatchers hroots (by rw [(light_tasks hnew).1, hdraft, Option.toList_none])
    fun u hu => (hnew u hu).minds

end

/-! ### Requests -/

/-- Nobody follows a tree that is given up less than it did. -/
theorem Attends.of_giveUp {v : TreeId}
    (hs : (h.modifyTree v fun x => { x with dropped := true }).Attends t rest h' new missed) :
    h.Attends t rest h' new missed := by
  have hwatches := h.giveUp_watches v
  refine ⟨hs.prompt, fun {c e} hf => ?_, hs.members⟩
  rcases hs.heeds hf with hheeds | hmisses | ⟨hold, hawaits, hkept⟩
  · exact Or.inl hheeds
  · exact Or.inr (Or.inl hmisses)
  · refine Or.inr (Or.inr ⟨?_, fun hnews => hawaits ?_, fun value hheeds => hkept value ?_⟩)
    · cases hold with
      | entered hw hx => exact .entered hw hx
      | joining he hbinds hd => exact .joining he hbinds hd
      | top hc hx => exact .top (hc.imp_left fun ⟨u, hu⟩ => ⟨u, (treeRoot_giveUp h v u).symm.trans hu⟩) hx
    · cases e with
      | object o => exact hnews.elim
      | property id s p =>
        obtain ⟨u, hu, haddresses⟩ := hnews
        exact ⟨u, hu, (home_congr hwatches.1 s p).symm ▸ haddresses⟩
    · cases hheeds with
      | soon heq hfree => exact .soon heq hfree
      | already hsees hstays => exact .already hsees hstays

section

variable (hrest : ∀ w v, .bind w v ∉ rest)

include hrest

/-- **A tree that was given up** is disposed of, or is left as it is. -/
theorem Underway.attends_bury (hu : g.Underway (t :: rest)) (hdraft : t.draft? = none) (ht : t.minds = false)
    (hnotice : t.isNotice = false) (hchange : t.isChange = false) (v : TreeId)
    (hcalm' : Scene.Undisturbed { world := Scene.bury { world := g, agenda := rest } v, agenda := rest }) :
    g.AttendsTo t rest (Scene.bury { world := g, agenda := rest } v, []) missed := by
  rcases Scene.bury_cases { world := g, agenda := rest } v with hbury | hbury <;> rw [hbury] at hcalm' ⊢
  · exact hu.attends_dispose hdraft ht hnotice hchange hrest hcalm'
  · exact attends_light hrest ht hnotice hchange hdraft rfl (fun _ => rfl) (List.forall_mem_nil _)

/-- **Whatever is asked for**: only trees that are attached or taken down concern those that
follow something. -/
theorem Underway.attends_grant {r : Request κ} (hu : g.Underway (.request r :: rest))
    (hcalm : Scene.Undisturbed { world := g, agenda := .request r :: rest })
    (hcalm' : Scene.Undisturbed { world := (g.grant rest r).1, agenda := (g.grant rest r).2 ++ rest }) :
    g.AttendsTo (.request r) rest (g.grant rest r) missed := by
  have hlight {g' : World κ} {new : List (Task κ)} (hwatchers : g'.watchers = g.watchers)
      (hroots : ∀ v, g'.treeRoot v = g.treeRoot v) (hnew : ∀ u ∈ new, u.Light g) :
      g.AttendsTo (.request r) rest (g', new) missed :=
    attends_light hrest rfl rfl rfl rfl hwatchers hroots hnew
  have hclient (hhook : ∀ o p k, r ≠ .hook o p k) (hr : r.plants = false) :
      g.AttendsTo (.request r) rest (g.grant rest r) missed := by
    have hitems : ∀ c, ∀ o ∈ g.itemsOf c, g.hasObject o = true := fun c o ho =>
      (hasObject_dressed ..).symm.trans (hu.grown.sane.items c o ho)
    have haltered := altered_grant hitems hhook hr rest
    exact hlight haltered.watchers haltered.trees.2 (light_grant hr rest)
  cases r with
  | hook o p k => exact hlight rfl (fun _ => rfl) (light_grant (r := .hook o p k) rfl rest)
  | attach v context =>
    unfold World.grant at hcalm' ⊢
    simp only at hcalm' ⊢
    split
    · rename_i hcontext
      rw [if_pos hcontext] at hcalm'
      unfold World.attach at hcalm' ⊢
      simp only at hcalm' ⊢
      split
      · rename_i tree htree
        rw [htree] at hcalm'
        exact hu.attends_attach rfl rfl rfl rfl hrest rfl rfl hcalm'
      · rename_i htree
        rw [htree] at hcalm'
        exact hu.attends_dispose rfl rfl rfl rfl hrest hcalm'
    · exact hlight rfl (fun _ => rfl) (List.forall_mem_nil _)
  | dispose v => exact hu.attends_dispose (t := .request (.dispose v)) rfl rfl rfl rfl hrest hcalm'
  | drop v =>
    have hmarked : (g.modifyTree v fun x => { x with dropped := true }).Underway ([.request (.drop v)] ++ rest) :=
      hu.light hcalm rfl (fun ws => (Alters.giveUp v).altered.dressed ws) rfl rfl (by simp [Task.Light])
    exact Attends.of_giveUp (v := v) (hmarked.attends_bury hrest rfl rfl rfl rfl v hcalm')
  | _ => exact hclient (by simp) rfl

/-! ### Watchers that are being bound -/

/-- **A watcher that is being bound** goes on to the next property, or is done. -/
theorem Underway.attends_bindMembers {b : Binding κ} (hu : g.Underway (.bindMembers b :: rest))
    (hcalm : Scene.Undisturbed { world := g, agenda := .bindMembers b :: rest }) :
    g.AttendsTo (.bindMembers b) rest (g.bindMembers b) missed := by
  have hnext (p : String) : g.AttendsTo (.bindMembers b) rest
      (g, [.subscribe b.subject p (.member b.watcher b.subscriptions.length) (.binding b)]) missed :=
    attends_aside hrest rfl rfl rfl rfl (fun _ => rfl) rfl (by simp [Task.minds])
  unfold World.bindMembers
  simp only
  split
  · rw [bindObject_eq_enter]
    exact hu.attends_finish hcalm rfl hrest nofun
  · exact hnext _
  · exact hnext _
  · exact hnext _

/-- **Members that are being watched**: the next one, or all are. -/
theorem Underway.attends_enrol {e : Enrolment κ} (hu : g.Underway (.enrol e :: rest))
    (hcalm : Scene.Undisturbed { world := g, agenda := .enrol e :: rest })
    (hcalm' : Scene.Undisturbed { world := (g.enrol e).1, agenda := (g.enrol e).2 ++ rest }) :
    g.AttendsTo (.enrol e) rest (g.enrol e) missed := by
  rcases g.enrol_cases e with ⟨o, pending, hpending, henrol⟩ | ⟨hdone, ⟨c, hbinds, henrol⟩ |
    ⟨hbinds, item, membership, site, b, hw, henrol⟩ | ⟨hbinds, hnone, henrol⟩⟩ <;> rw [henrol] at hcalm' ⊢
  · cases hbinds : e.binds with
    | some c => exact hu.attends_enlist hcalm hrest hbinds hpending
    | none => exact hu.attends_enlist_joining hrest hbinds hpending
  · rw [bindCollection_eq_enter]
    refine hu.attends_finish hcalm (Task.draft?_binding hbinds) hrest fun e' heq => ?_
    cases heq
    exact hdone
  · exact hu.attends_gather hcalm hrest hbinds hw hdone
  · exact hu.attends_disband hcalm hrest hbinds hnone hcalm'

section

variable {s : Subject} {p : String} {l : Listener κ} {r : Receiver κ}

/-- **Before a subscription** the hook runs that is due. -/
theorem attends_subscribe : g.AttendsTo (.subscribe s p l r) rest (g.subscribe s p l r) missed := by
  have hnone : g.AttendsTo (.subscribe s p l r) rest (g, [.register s p l r]) missed := by
    refine attends_aside hrest rfl rfl rfl rfl (fun _ => rfl) ?_ (by simp [Task.minds])
    show List.filterMap Task.draft? [.register s p l r] = _
    cases r <;> rfl
  cases s with
  | command c => exact hnone
  | object o =>
    unfold World.subscribe
    simp only
    split
    · rename_i k g' htake
      obtain ⟨i, rfl⟩ := takeHook_eq htake
      refine attends_aside hrest rfl rfl rfl rfl (fun _ => rfl) ?_ (by simp [callOn, Task.minds])
      show List.filterMap Task.draft? (callOn k o ++ [.register (.object o) p l r]) = _
      cases r <;> rfl
    · exact hnone

/-- **A subscription is made**, there or at a base. -/
theorem Underway.attends_register (hu : g.Underway (.register s p l r :: rest))
    (hcalm : Scene.Undisturbed { world := g, agenda := .register s p l r :: rest }) :
    g.AttendsTo (.register s p l r) rest (g.register s p l r) missed := by
  obtain ⟨ws, hsane⟩ : ∃ ws, (g.dressed ws).Sane := ⟨_, hu.grown.sane⟩
  have hhere (hhome : g.home s p = s) :
      g.AttendsTo (.register s p l r) rest ((g.enterListener s p l).answer g.nextSubscription r) missed := by
    cases r with
    | binding b => exact hu.attends_bindChild hcalm hrest hhome
    | code k =>
      refine attends_light hrest rfl rfl rfl rfl (g.enterListener_watchers ..) ?_ (by simp [Task.Light])
      exact treeRoot_congr (g.enterListener_trees s p l)
  cases s with
  | command c => exact hhere rfl
  | object o =>
    have hcases := home_cases hsane o p
    unfold World.register
    simp only
    cases hbase : g.baseOf o with
    | none =>
      refine hhere ?_
      rw [hcases, hbase]
      split <;> rfl
    | some b =>
      by_cases hanswers : g.answersFor p o = true
      · rw [if_pos hanswers] at hcases
        simp only [hanswers, if_true]
        exact hhere hcases
      · simp only [hanswers]
        refine attends_aside hrest rfl rfl rfl rfl (fun _ => rfl) ?_ (by simp [Task.minds])
        show List.filterMap Task.draft? [.subscribe (.object b) p l r] = _
        cases r <;> rfl

end

end

end World

/-! ### Every task -/

/-- **Every step** leaves whoever is to follow something to heed it, as long as nobody meddles
with what is being bound, other than where news is overlooked. -/
theorem World.Underway.attends {g : World κ} {s : σ} {t : Task κ} {rest : List (Task κ)} (hu : g.Underway (t :: rest))
    (hrest : ∀ w v, .bind w v ∉ rest) (hspent : (machine g (t :: rest) s).Spent)
    (hissued : ∀ {c id l change}, t = .deliverChange c id l change →
      ∀ l', (id, l') ∈ g.listenersOfCollection c → l' = l)
    (hcalm : Scene.Undisturbed { world := g, agenda := t :: rest })
    (hcalm' : Scene.Undisturbed { world := (L.carry g s t rest).world, agenda := (L.carry g s t rest).tasks ++ rest }) :
    g.AttendsTo t rest ((L.carry g s t rest).world, (L.carry g s t rest).tasks)
      fun id => Scene.overlooks { world := g, agenda := t :: rest } id = true := by
  cases t with
  | request r =>
    cases r with
    | call k signal =>
      refine attends_light hrest rfl rfl rfl rfl rfl (fun _ => rfl) fun u hmem => ?_
      obtain ⟨r, -, rfl⟩ := List.mem_map.mp hmem
      trivial
    | _ => exact hu.attends_grant hrest hcalm hcalm'
  | perform a context =>
    have haltered := L.altered_perform { world := g, agenda := .perform a context :: rest } s a context
    exact attends_light hrest rfl rfl rfl rfl haltered.watchers haltered.trees.2 (L.light_perform _ s a context)
  | fire site batch =>
    refine attends_light hrest rfl rfl rfl rfl rfl (fun _ => rfl) fun u hmem => ?_
    simp only [Language.carry] at hmem
    split at hmem
    · rcases List.mem_append.mp hmem with hmem | hmem
      · obtain ⟨e, -, rfl⟩ := List.mem_map.mp hmem
        trivial
      · obtain rfl := List.mem_singleton.mp hmem
        trivial
    · cases hmem
  | deliver subject k l =>
    refine hu.attends_deliver hcalm (fun {p l'} hl' => ?_) hrest
    have hfiled := hu.grown.filed
    have hagrees : (g.notifierOf subject).Agrees := notifierOf_dressed g _ subject ▸ hfiled.agrees subject
    have hl : (k, l) ∈ g.listeners subject p :=
      (hspent.waiting List.mem_cons_self).2 p ((hagrees.owner k p).mpr ⟨l', hl'⟩)
    rw [← World.listeners_dressed] at hl hl'
    exact (hfiled.entry hl' hl).2.2
  | deliverChange c k l change => exact hu.attends_deliverChange hcalm (hissued rfl) hrest rfl hcalm'
  | bind w v => exact hu.attends_bind hrest hcalm'
  | bindMembers b => exact hu.attends_bindMembers hrest hcalm
  | enrol e => exact hu.attends_enrol hrest hcalm hcalm'
  | subscribe subject p l r => exact World.attends_subscribe hrest
  | register subject p l r => exact hu.attends_register hrest hcalm
  | plant v w => exact World.Underway.attends_plant hrest
  | release held =>
    have hnone : g.AttendsTo (.release held) rest (g, []) fun id =>
        Scene.overlooks { world := g, agenda := .release held :: rest } id = true :=
      attends_light hrest rfl rfl rfl rfl rfl (fun _ => rfl) (List.forall_mem_nil _)
    cases held with
    | tree v => exact hu.attends_bury hrest rfl rfl rfl rfl v hcalm'
    | value v => exact hnone
    | watcher w => exact hnone

/-! ### Whole runs -/

namespace World

variable {g h : World κ} {agenda : List (Task κ)} {missed missed' : SubscriptionId → Prop}

theorem Attentive.mono (ha : h.Attentive agenda missed) (hsub : ∀ id, missed id → missed' id) :
    h.Attentive agenda missed' where
  prompt := ha.prompt
  heeds hf := (ha.heeds hf).imp_right (Or.imp_right (Sight.Misses.mono hsub))
  balanced hw hitem hnot := ha.balanced hw hitem fun hmissed => hnot (hsub _ hmissed)
  issued := ha.issued

/-- Nobody follows anything in the empty world. -/
theorem attentive_empty : (({} : World κ).asIf []).Attentive [] missed := by
  have hnobody (w : Nat) (x : Watcher κ) : (({} : World κ).asIf []).watchers[w]? ≠ some x := by
    simp [asIf, dressed, written]
  constructor
  case prompt => simp
  case heeds =>
    intro c e hf
    cases hf with
    | entered hw hx => exact absurd hw (hnobody _ _)
    | joining he => cases he
    | top hc hx => exact absurd hx (hnobody _ _)
  case balanced => exact fun hw => absurd hw (hnobody _ _)
  case issued => simp

/-- At rest anything may be asked for. -/
theorem Attentive.ask (ha : (g.asIf []).Attentive [] missed) (requests : List (Request κ)) :
    (g.asIf (draftsOf (requests.map .request))).Attentive (requests.map .request) missed := by
  have hrequest {u : Task κ} (hu : u ∈ requests.map (Task.request (κ := κ))) : ∃ r, u = .request r := by
    obtain ⟨r, -, rfl⟩ := List.mem_map.mp hu
    exact ⟨r, rfl⟩
  have hdrafts : draftsOf (requests.map (Task.request (κ := κ))) = [] := by
    refine List.filterMap_eq_nil_iff.mpr fun u hu => ?_
    obtain ⟨r, rfl⟩ := hrequest hu
    rfl
  rw [hdrafts]
  constructor
  case prompt =>
    intro w v hmem
    obtain ⟨r, hr⟩ := hrequest (List.mem_of_mem_tail hmem)
    cases hr
  case heeds =>
    intro c e hf
    have hf : (g.asIf []).Follows [] c e := by
      rw [← List.append_nil (requests.map Task.request)] at hf
      exact hf.of_append (by simp [List.flatMap_map, Task.tops])
    refine (ha.heeds hf).imp (fun hheeds => ?_) (Or.imp_left fun hawaits => ?_)
    · cases hheeds with
      | soon heq => cases heq
      | already hsees =>
        refine .already hsees fun v later heq => ?_
        obtain ⟨r, hr⟩ := hrequest (heq ▸ List.mem_cons_self)
        cases hr
    · cases e with
      | object o => exact hawaits.elim
      | property id s p =>
        obtain ⟨u, hu, -⟩ := hawaits
        cases hu
  case balanced =>
    intro w item membership site b items hw hitem hnot hitems o
    have hbalanced := ha.balanced hw hitem hnot hitems o
    have hrecruits : (requests.map (Task.request (κ := κ))).flatMap (Task.recruits w) = [] := by
      simp [List.flatMap_map, Task.recruits]
    have howed : owed (requests.map (Task.request (κ := κ))) b.collection b.subscription o = 0 := by
      refine owed_eq_zero fun u hu => ?_
      obtain ⟨r, rfl⟩ := hrequest hu
      rfl
    rw [hrecruits, howed]
    exact hbalanced
  case issued =>
    intro c id l change hmem
    obtain ⟨r, hr⟩ := hrequest hmem
    cases hr

end World

/-- **In every run** in which nobody meddles with what is being bound, whoever is to follow
something follows it, or is about to, or is to be told of it, or was told of it when nobody
took it in. -/
theorem Run.attentive {past : List (Machine κ σ)} {m : Machine κ σ} (h : Run L past m)
    (hcalm : ∀ n ∈ m :: past, n.toScene.Undisturbed) :
    (m.world.asIf (draftsOf m.agenda)).Attentive m.agenda fun id => ∃ n ∈ past, n.toScene.overlooks id = true := by
  induction h with
  | start s => exact World.attentive_empty
  | ask h requests s' ih =>
    rename_i past g s
    have hrest : Scene.Undisturbed { world := g, agenda := [] } := ⟨.nil, by simp [draftsOf], by simp⟩
    exact (ih (List.forall_mem_cons.mpr ⟨hrest, fun n hn => hcalm n (List.mem_cons_of_mem _ hn)⟩)).ask requests
  | step h ih =>
    rename_i past m
    have hbefore : ∀ n ∈ m :: past, n.toScene.Undisturbed := fun n hn => hcalm n (List.mem_cons_of_mem _ hn)
    have ha := ih hbefore
    have hu := h.underway hbefore
    obtain ⟨⟨g, agenda⟩, s⟩ := m
    cases agenda with
    | nil =>
      refine ha.mono fun id hmissed => ?_
      obtain ⟨n, hn, hmissed⟩ := hmissed
      exact ⟨n, List.mem_cons_of_mem _ hn, hmissed⟩
    | cons t rest =>
      have hissued {c id l change} (ht : t = .deliverChange c id l change) :
          ∀ l', (id, l') ∈ g.listenersOfCollection c → l' = l :=
        (ha.issued (show .deliverChange c id l change ∈ t :: rest from ht ▸ List.mem_cons_self)).2
      have hattends := hu.attends (fun w v hmem => ha.prompt w v hmem) h.spent hissued
        (hbefore _ List.mem_cons_self) (hcalm _ List.mem_cons_self)
      have hannounces := (L.carry_announces g h.sane s t rest).dressed (written (draftsOf (t :: rest)) g.watchers)
        (written (draftsOf ((L.carry g s t rest).tasks ++ rest)) (L.carry g s t rest).world.watchers)
      refine (ha.next hu.grown hannounces hattends).mono fun id hmissed => ?_
      rcases hmissed with ⟨n, hn, hmissed⟩ | hmissed
      · exact ⟨n, List.mem_cons_of_mem _ hn, hmissed⟩
      · exact ⟨_, List.mem_cons_self, hmissed⟩

end LiveRules
