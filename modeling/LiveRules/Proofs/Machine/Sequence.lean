/-
# Changes one after the other

Where no collection is changed while a change of it is still being told of, each
listener has one piece of news at most to wait for, and those who are said to have
joined are members. Then whoever is said to have left is watched, and nothing is
missed.

Key definitions: `Machine.Nests`, `Request.isEdit`, `Orderly`, `Change.Accurate`.
Key theorems: `Language.quiet_carry`, `Language.carry_changes`, `Orderly.step`, `Orderly.accurate`,
`Run.unmissed`, `Run.mirrored`.
-/
import LiveRules.Proofs.Machine.Runs

namespace LiveRules

variable {κ σ : Type} {L : Language κ σ}

/-- The next step changes a collection while a change of it is still being told of. -/
def Machine.Nests (L : Language κ σ) (m : Machine κ σ) : Prop :=
  ∃ c items, m.world.listOf c = some items ∧ (L.step m).world.listOf c ≠ some items ∧
    ∃ id l change, Task.deliverChange c id l change ∈ m.agenda

def Task.isChange : Task κ → Bool
  | .deliverChange _ _ _ _ => true
  | _ => false

/-- Machines that tell of no change at all. -/
theorem Machine.quiet_of_all {past : List (Machine κ σ)}
    (hall : past.all (fun n => !n.hooks && n.agenda.all (!·.isChange)) = true) :
    ∀ n ∈ past, n.hooks = false ∧ ¬ n.Nests L := by
  intro n hn
  have hquiet := List.all_eq_true.mp hall n hn
  rw [Bool.and_eq_true, List.all_eq_true] at hquiet
  refine ⟨by simpa using hquiet.1, ?_⟩
  rintro ⟨c, items, -, -, id, l, change, hm⟩
  cases hquiet.2 _ hm

/-- Whom the task tells of a change of `c`. -/
def Task.tells (c : CollectionId) : Task κ → Option SubscriptionId
  | .deliverChange d id _ _ => if d = c then some id else none
  | _ => none

/-! ### Steps that change no members -/

namespace World

/-- The collections that were there have the members they had. -/
def Lists (g g' : World κ) : Prop :=
  ∀ c, g.hasValue (.collection c) = true → g'.hasValue (.collection c) = true ∧ g'.listOf c = g.listOf c

theorem Lists.refl (g : World κ) : g.Lists g :=
  fun _ hc => ⟨hc, rfl⟩

theorem Lists.trans {g₁ g₂ g₃ : World κ} (h : g₁.Lists g₂) (h' : g₂.Lists g₃) : g₁.Lists g₃ := by
  intro c hc
  obtain ⟨hc₂, heq₂⟩ := h c hc
  obtain ⟨hc₃, heq₃⟩ := h' c hc₂
  exact ⟨hc₃, heq₃.trans heq₂⟩

theorem lists_of_outline {g g' : World κ} (h : g'.outline = g.outline) : g.Lists g' :=
  fun c hc => ⟨(hasValue_congr h _).trans hc, listOf_congr h c⟩

theorem lists_of_collections {g g' : World κ} (h : g'.collections = g.collections) : g.Lists g' := by
  intro c hc
  simp only [hasValue, listOf, h] at hc ⊢
  exact ⟨hc, trivial⟩

theorem foldl_unbind_outline (ws : List WatcherId) (g : World κ) : (ws.foldl World.unbind g).outline = g.outline := by
  induction ws generalizing g with
  | nil => rfl
  | cons w ws ih => rw [List.foldl_cons, ih, unbind_outline]

theorem bury_outline (scene : Scene κ) (t : TreeId) : (scene.bury t).outline = scene.world.outline := by
  unfold Scene.bury
  simp only
  split
  · exact dispose_outline _ t
  · rfl

theorem takeHook_collections {g g' : World κ} {o : ObjectId} {p : String} {k : κ} (h : g.takeHook o p = some (k, g')) :
    g'.collections = g.collections := by
  unfold takeHook at h
  simp only [Option.bind_eq_bind, Option.bind_eq_some_iff, Option.pure_def, Option.some.injEq, Prod.mk.injEq] at h
  obtain ⟨x, -, i, -, e, -, -, rfl⟩ := h
  rfl

end World

/-- Nobody's members change, and nobody is to be told that they did. -/
def Quiet (g g' : World κ) (tasks : List (Task κ)) : Prop :=
  g.Lists g' ∧ ∀ t ∈ tasks, t.isChange = false

theorem quiet_bind (g : World κ) (w : WatcherId) (v : Value) : Quiet g (g.bind w v).1 (g.bind w v).2 := by
  have houtline : (g.unbind w).outline = g.outline := g.unbind_outline w
  unfold World.bind
  simp only
  split
  · split
    · exact ⟨World.lists_of_outline houtline, by simp [Task.isChange]⟩
    · exact ⟨World.lists_of_outline houtline, by simp⟩
  · split
    · refine ⟨World.lists_of_outline ?_, by simp [Task.isChange]⟩
      exact ((g.unbind w).enterChangeListener_outline _ _).trans houtline
    · exact ⟨World.lists_of_outline houtline, by simp⟩
  · exact ⟨World.lists_of_outline houtline, by simp⟩

theorem quiet_bindMembers (g : World κ) (b : Binding κ) : Quiet g (g.bindMembers b).1 (g.bindMembers b).2 := by
  unfold World.bindMembers
  simp only
  split
  · exact ⟨World.lists_of_outline (g.bindObject_outline _ _), by simp⟩
  all_goals exact ⟨World.Lists.refl g, by simp [Task.isChange]⟩

theorem quiet_bindChild (g : World κ) (b : Binding κ) (id : SubscriptionId) :
    Quiet g (g.bindChild b id).1 (g.bindChild b id).2 := by
  unfold World.bindChild
  simp only
  split
  · exact ⟨World.Lists.refl g, by simp⟩
  · exact ⟨World.Lists.refl g, by simp [Task.isChange]⟩
  all_goals exact ⟨World.lists_of_outline (g.addWatcher_outline _), by simp [Task.isChange]⟩

theorem quiet_enrol (g : World κ) (e : Enrolment κ) : Quiet g (g.enrol e).1 (g.enrol e).2 := by
  unfold World.enrol
  split
  · exact ⟨World.lists_of_outline (g.addWatcher_outline _), by simp [Task.isChange]⟩
  · split
    · exact ⟨World.lists_of_outline (g.bindCollection_outline _ _), by simp⟩
    · split
      · exact ⟨World.lists_of_outline (g.bindCollection_outline _ _), by simp [Task.isChange]⟩
      · exact ⟨World.lists_of_outline (World.foldl_unbind_outline _ g), by simp⟩

theorem quiet_register (g : World κ) (s : Subject) (p : String) (l : Listener κ) (r : Receiver κ) :
    Quiet g (g.register s p l r).1 (g.register s p l r).2 := by
  have hhere : Quiet g ((g.enterListener s p l).answer g.nextSubscription r).1
      ((g.enterListener s p l).answer g.nextSubscription r).2 := by
    have hentered := World.lists_of_outline (g.enterListener_outline s p l)
    cases r with
    | code k => exact ⟨hentered, by simp [World.answer, Task.isChange]⟩
    | binding b =>
      obtain ⟨hlists, htasks⟩ := quiet_bindChild (g.enterListener s p l) b g.nextSubscription
      exact ⟨hentered.trans hlists, htasks⟩
  unfold World.register
  simp only
  split
  · split
    · split
      · exact hhere
      · exact ⟨World.Lists.refl g, by simp [Task.isChange]⟩
    · exact hhere
  · exact hhere

theorem quiet_subscribe (g : World κ) (s : Subject) (p : String) (l : Listener κ) (r : Receiver κ) :
    Quiet g (g.subscribe s p l r).1 (g.subscribe s p l r).2 := by
  unfold World.subscribe
  split
  · split
    · rename_i k g' hhook
      exact ⟨World.lists_of_collections (World.takeHook_collections hhook), by simp [callOn, Task.isChange]⟩
    · exact ⟨World.Lists.refl g, by simp [Task.isChange]⟩
  · exact ⟨World.Lists.refl g, by simp [Task.isChange]⟩

theorem quiet_membershipChanged (g : World κ) (w : WatcherId) (change : Change) :
    Quiet g (g.membershipChanged w change).1 (g.membershipChanged w change).2 := by
  unfold World.membershipChanged
  split
  · refine ⟨World.lists_of_outline ?_, by simp [Task.isChange]⟩
    exact (World.foldl_unbind_outline _ _).trans (g.bindCollection_outline _ _)
  · exact ⟨World.Lists.refl g, by simp⟩

theorem quiet_deliver (scene : Scene κ) (s : Subject) (id : SubscriptionId) (l : Listener κ) :
    ∀ t ∈ scene.deliver s id l, t.isChange = false := by
  unfold Scene.deliver
  simp only
  split
  · split
    · simp [Task.isChange]
    · split <;> simp [callOn, Task.isChange]
    · split
      · unfold World.memberChanged
        split
        · split
          · simp [Task.isChange, or_imp, forall_and]
          · simp
        · simp
      · simp
  · simp

theorem quiet_deliverChange (scene : Scene κ) (c : CollectionId) (id : SubscriptionId) (l : ChangeListener κ)
    (change : Change) :
    Quiet scene.world (scene.deliverChange c id l change).1 (scene.deliverChange c id l change).2 := by
  unfold Scene.deliverChange
  simp only
  split
  · split
    · exact ⟨World.Lists.refl _, by simp [Task.isChange]⟩
    · split
      · exact quiet_membershipChanged _ _ change
      · exact ⟨World.Lists.refl _, by simp⟩
  · exact ⟨World.Lists.refl _, by simp⟩

theorem quiet_round (g : World κ) (s : Subject) (p : String) : ∀ t ∈ g.round s p, t.isChange = false := by
  intro t ht
  obtain ⟨e, -, rfl⟩ := World.mem_round.mp ht
  rfl

theorem quiet_set (g : World κ) (o : ObjectId) (p : String) (v : Value) : Quiet g (g.set o p v).1 (g.set o p v).2 := by
  unfold World.set
  split
  · exact ⟨World.Lists.refl g, by simp⟩
  · exact ⟨World.lists_of_collections rfl, quiet_round _ _ p⟩

theorem quiet_settle (L : Language κ σ) (scene : Scene κ) (s : σ) (c : CommandId) :
    scene.world.Lists (L.settle scene s c).1 := by
  unfold Language.settle
  simp only
  split
  · split
    · exact World.lists_of_collections rfl
    · exact World.Lists.refl _
  · exact World.Lists.refl _

theorem quiet_perform (L : Language κ σ) (scene : Scene κ) (s : σ) (a : Action κ) (context : ObjectId) :
    Quiet scene.world (L.perform scene s a context).world (L.perform scene s a context).tasks := by
  cases a with
  | code k => exact ⟨World.Lists.refl _, by simp [Language.perform, Task.isChange]⟩
  | assign source target =>
    simp only [Language.perform]
    split
    · exact quiet_set _ context target _
    · exact ⟨World.Lists.refl _, by simp⟩
  | create binding target =>
    simp only [Language.perform]
    set g₁ : World κ := { scene.world with
      commands := scene.world.commands.push { takesArgument := binding.takesArgument
                                              bound := some (binding, context) } } with hg₁
    have hmade : scene.world.Lists g₁ := World.lists_of_collections rfl
    have hsettled := quiet_settle L { scene with world := g₁ } s scene.world.commands.size
    obtain ⟨hlists, htasks⟩ := quiet_set (L.settle { scene with world := g₁ } s scene.world.commands.size).1 context
      target (.command scene.world.commands.size)
    exact ⟨(hmade.trans hsettled).trans hlists, htasks⟩
  | refresh takesArgument target =>
    simp only [Language.perform]
    split
    · unfold Language.refresh
      simp only
      split
      · split
        · refine ⟨World.lists_of_collections rfl, ?_⟩
          split
          · simp
          · exact quiet_round _ _ _
        · exact ⟨World.Lists.refl _, quiet_round _ _ _⟩
      · exact ⟨World.Lists.refl _, by simp⟩
    · exact ⟨World.Lists.refl _, by simp⟩
  | settle takesArgument target =>
    simp only [Language.perform]
    split
    · exact ⟨quiet_settle L scene s _, by simp⟩
    · exact ⟨World.Lists.refl _, by simp⟩
  | onBase inner => exact ⟨World.Lists.refl _, by simp [Language.perform, Task.isChange]⟩

theorem quiet_attach (g : World κ) (t : TreeId) (context : ObjectId) :
    Quiet g (g.attach t context).1 (g.attach t context).2 := by
  have houtline := g.dispose_outline t
  unfold World.attach
  simp only
  split
  · refine ⟨World.lists_of_outline ?_, by simp [Task.isChange]⟩
    exact ((g.dispose t).addWatcher_outline _).trans houtline
  · exact ⟨World.lists_of_outline houtline, by simp⟩

/-- The request asks for other members of a collection. -/
def Request.isEdit : Request κ → Bool
  | .push _ _ => true
  | .insert _ _ _ => true
  | .remove _ _ => true
  | .clear _ => true
  | .report _ _ _ => true
  | _ => false

theorem quiet_grant (g : World κ) (rest : List (Task κ)) {r : Request κ} (hr : r.isEdit = false) :
    Quiet g (g.grant rest r).1 (g.grant rest r).2 := by
  have hsame : Quiet g g [] := ⟨World.Lists.refl g, by simp⟩
  cases r with
  | newObject name properties base own =>
    simp only [World.grant]
    split
    · exact ⟨World.lists_of_collections rfl, by simp⟩
    · exact hsame
  | newCollection name items free =>
    simp only [World.grant]
    split
    · refine ⟨fun c hc => ?_, by simp⟩
      simp only [World.hasValue, World.listOf, Array.size_push, decide_eq_true_eq] at hc ⊢
      exact ⟨Nat.lt_succ_of_lt hc, by rw [Array.getElem?_push, if_neg (ne_of_lt hc)]⟩
    · exact hsame
  | newCommand name takesArgument => exact ⟨World.lists_of_collections rfl, by simp [World.grant]⟩
  | nameCommand name c =>
    simp only [World.grant]
    split
    · exact ⟨World.lists_of_collections rfl, by simp⟩
    · exact hsame
  | forgetObject name => exact ⟨World.lists_of_collections rfl, by simp [World.grant]⟩
  | forgetCollection name => exact ⟨World.lists_of_collections rfl, by simp [World.grant]⟩
  | write o p v =>
    simp only [World.grant]
    split
    · exact ⟨World.lists_of_collections rfl, quiet_round _ _ p⟩
    · exact hsame
  | notify o p => exact ⟨World.Lists.refl g, quiet_round _ _ p⟩
  | hook o p k => exact ⟨World.lists_of_collections rfl, by simp [World.grant]⟩
  | subscribe s p k context receiver =>
    simp only [World.grant]
    split
    · exact ⟨World.Lists.refl g, by simp [Task.isChange]⟩
    · exact hsame
  | unsubscribe s id =>
    refine ⟨?_, by simp [World.grant]⟩
    simp only [World.grant]
    split
    · exact World.lists_of_outline (g.unsubscribe_outline s id)
    · exact World.Lists.refl g
  | subscribeChanges c k receiver =>
    simp only [World.grant]
    split
    · exact ⟨World.lists_of_outline (g.enterChangeListener_outline _ _), by simp [Task.isChange]⟩
    · exact hsame
  | unsubscribeChanges c id =>
    refine ⟨?_, by simp [World.grant]⟩
    simp only [World.grant]
    split
    · exact World.lists_of_outline (g.unsubscribeChanges_outline c id)
    · exact World.Lists.refl g
  | perform a context =>
    refine ⟨World.Lists.refl g, ?_⟩
    simp only [World.grant]
    split <;> simp [Task.isChange]
  | newTree plan => exact ⟨World.lists_of_collections rfl, by simp [World.grant]⟩
  | attach t context =>
    simp only [World.grant]
    split
    · exact quiet_attach g t context
    · exact hsame
  | dispose t => exact ⟨World.lists_of_outline (g.dispose_outline t), by simp [World.grant]⟩
  | drop t =>
    refine ⟨World.lists_of_outline ?_, by simp [World.grant]⟩
    exact (World.bury_outline _ t).trans (g.modifyTree_outline t _)
  | call k signal => exact hsame
  | hold v => exact hsame
  | push | insert | remove | clear | report => cases hr

/-! ### Steps that change members -/

/-- The members of a collection change, and everybody is to be told. A collection that
keeps its own account has other members then, among them those that joined. -/
def Changes (g g' : World κ) (tasks : List (Task κ)) : Prop :=
  ∃ c items change, g' = (g.changeItems c items change).1 ∧ tasks = (g.changeItems c items change).2 ∧
    g.hasValue (.collection c) = true ∧
      ∀ old, g.listOf c = some old → items ≠ old ∧ ∀ o, change.added.count o ≤ items.count o

theorem World.hasValue_of_listOf {g : World κ} {c : CollectionId} {items : List ObjectId}
    (h : g.listOf c = some items) : g.hasValue (.collection c) = true := by
  unfold listOf at h
  obtain ⟨x, hx, -⟩ := Option.bind_eq_some_iff.mp h
  simpa [hasValue] using (Array.getElem?_eq_some_iff.mp hx).1

theorem quiet_or_changes_edit (g : World κ) (rest : List (Task κ)) {r : Request κ} {c : CollectionId}
    (hr : r.edits = some c) :
    Quiet g (g.grant rest r).1 (g.grant rest r).2 ∨ Changes g (g.grant rest r).1 (g.grant rest r).2 := by
  rcases g.grant_edit_cases hr rest with heq | ⟨items, change, hitems, hchange, heq⟩ <;> rw [heq]
  · exact Or.inl ⟨World.Lists.refl g, by simp⟩
  · refine Or.inr ⟨c, _, change, rfl, rfl, World.hasValue_of_listOf hitems, fun old hold => ?_⟩
    rw [hitems] at hold
    obtain rfl := Option.some.inj hold
    exact ⟨Request.members_ne hchange, Request.count_added_le hchange⟩

theorem quiet_or_changes_grant (g : World κ) (rest : List (Task κ)) (r : Request κ) :
    Quiet g (g.grant rest r).1 (g.grant rest r).2 ∨ Changes g (g.grant rest r).1 (g.grant rest r).2 := by
  have hsame : Quiet g g [] := ⟨World.Lists.refl g, by simp⟩
  cases r with
  | push | insert | remove | clear => exact quiet_or_changes_edit g rest rfl
  | report c items change =>
    simp only [World.grant]
    split
    · rename_i x hx
      split
      · rename_i hexist
        rw [Bool.and_eq_true] at hexist
        refine Or.inr ⟨c, _, change, rfl, rfl, ?_, fun old hold => ?_⟩
        · simpa [World.hasValue] using (Array.getElem?_eq_some_iff.mp hx).1
        · simp [World.listOf, hx, hexist.1] at hold
      · exact Or.inl hsame
    · exact Or.inl hsame
  | _ => exact Or.inl (quiet_grant g rest rfl)

/-- **A step** leaves all members as they are, if it is no request for others. -/
theorem Language.quiet_carry (L : Language κ σ) (g : World κ) (s : σ) {t : Task κ} (rest : List (Task κ))
    (ht : ∀ r, t = .request r → r.isEdit = false) : Quiet g (L.carry g s t rest).world (L.carry g s t rest).tasks := by
  cases t with
  | request r =>
    have hr := ht r rfl
    cases r with
    | call k signal =>
      refine ⟨World.Lists.refl g, fun t ht => ?_⟩
      obtain ⟨r, -, rfl⟩ := List.mem_map.mp ht
      rfl
    | _ => exact quiet_grant g rest hr
  | perform a context => exact quiet_perform L { world := g, agenda := .perform a context :: rest } s a context
  | fire site batch =>
    refine ⟨World.Lists.refl g, fun t ht => ?_⟩
    simp only [Language.carry] at ht
    cases halive : Scene.alive { world := g, agenda := .fire site batch :: rest } site.context with
    | false => simp [halive] at ht
    | true =>
      simp only [halive, if_true] at ht
      rcases List.mem_append.mp ht with ht | ht
      · obtain ⟨e, -, rfl⟩ := List.mem_map.mp ht
        rfl
      · obtain rfl := List.mem_singleton.mp ht
        rfl
  | deliver subject id l => exact ⟨World.Lists.refl g, quiet_deliver _ subject id l⟩
  | deliverChange c id l change =>
    exact quiet_deliverChange { world := g, agenda := .deliverChange c id l change :: rest } c id l change
  | bind w v => exact quiet_bind g w v
  | bindMembers b => exact quiet_bindMembers g b
  | enrol e => exact quiet_enrol g e
  | subscribe subject p l r => exact quiet_subscribe g subject p l r
  | register subject p l r => exact quiet_register g subject p l r
  | plant t w => exact ⟨World.lists_of_outline (g.modifyTree_outline t _), by simp [Language.carry]⟩
  | release held =>
    cases held with
    | tree t => exact ⟨World.lists_of_outline (World.bury_outline _ t), by simp [Language.carry]⟩
    | value v => exact ⟨World.Lists.refl g, by simp [Language.carry]⟩
    | watcher w => exact ⟨World.Lists.refl g, by simp [Language.carry]⟩

/-- A step leaves all members as they are, or is a request that changes those of one
collection. -/
theorem Language.carry_changes (L : Language κ σ) (g : World κ) (s : σ) (t : Task κ) (rest : List (Task κ)) :
    Quiet g (L.carry g s t rest).world (L.carry g s t rest).tasks ∨
      t.isBinding = false ∧ Changes g (L.carry g s t rest).world (L.carry g s t rest).tasks := by
  cases t with
  | request r =>
    cases r with
    | call k signal => exact Or.inl (L.quiet_carry g s rest fun r hr => by cases hr; rfl)
    | _ => exact (quiet_or_changes_grant g rest _).imp id fun h => ⟨rfl, h⟩
  | _ => exact Or.inl (L.quiet_carry g s rest fun r hr => by cases hr)

/-! ### One change at a time -/

/-- Each listener of a collection has one piece of news at most to wait for, and those
who are said to have joined are members. -/
structure Orderly (g : World κ) (agenda : List (Task κ)) : Prop where
  known : ∀ {c id l change}, Task.deliverChange c id l change ∈ agenda → g.hasValue (.collection c) = true
  once : ∀ {c items}, g.listOf c = some items → (agenda.filterMap (Task.tells c)).Nodup
  joined : ∀ {c id l change items}, Task.deliverChange c id l change ∈ agenda → g.listOf c = some items →
    ∀ o, change.added.count o ≤ items.count o

theorem Task.tells_of_not_change {t : Task κ} (h : t.isChange = false) (c : CollectionId) : t.tells c = none := by
  cases t <;> first | rfl | cases h

theorem Orderly.quiet {g g' : World κ} {agenda tasks : List (Task κ)} (h : Orderly g agenda) (hq : Quiet g g' tasks) :
    Orderly g' (tasks ++ agenda) := by
  obtain ⟨hlists, htasks⟩ := hq
  have hmem : ∀ {c id l change}, Task.deliverChange c id l change ∈ tasks ++ agenda →
      Task.deliverChange c id l change ∈ agenda := by
    intro c id l change hm
    rcases List.mem_append.mp hm with hm | hm
    · cases htasks _ hm
    · exact hm
  have hnone : ∀ c, tasks.filterMap (Task.tells c) = [] := fun c =>
    List.filterMap_eq_nil_iff.mpr fun t ht => Task.tells_of_not_change (htasks t ht) c
  constructor
  case known => exact fun hm => (hlists _ (h.known (hmem hm))).1
  case once =>
    intro c items hitems
    rw [List.filterMap_append, hnone, List.nil_append]
    by_cases hc : g.hasValue (.collection c) = true
    · exact h.once ((hlists c hc).2 ▸ hitems)
    · -- nobody is told of a collection that is new
      have hnil : agenda.filterMap (Task.tells c) = [] := by
        refine List.filterMap_eq_nil_iff.mpr fun t ht => ?_
        cases t with
        | deliverChange d id l change =>
          exact if_neg fun (heq : d = c) => hc (heq ▸ h.known ht)
        | _ => rfl
      rw [hnil]
      exact List.nodup_nil
  case joined =>
    intro c id l change items hm hitems
    have hm := hmem hm
    exact h.joined hm ((hlists c (h.known hm)).2 ▸ hitems)

theorem World.tells_changeRound (g : World κ) (c d : CollectionId) (change : Change) :
    (g.changeRound c change).filterMap (Task.tells d) =
      if c = d then (g.listenersOfCollection c).map (·.1) else [] := by
  unfold changeRound
  have hreleases : ((change.added ++ change.removed).map fun o => Task.release (κ := κ) (.value (.object o))).filterMap
      (Task.tells d) = [] := by
    refine List.filterMap_eq_nil_iff.mpr fun t ht => ?_
    obtain ⟨o, -, rfl⟩ := List.mem_map.mp ht
    rfl
  rw [List.filterMap_append, hreleases, List.append_nil, List.filterMap_map]
  split
  · rename_i heq
    subst heq
    induction g.listenersOfCollection c with
    | nil => rfl
    | cons e es ih => simp [Task.tells, ih]
  · rename_i hne
    exact List.filterMap_eq_nil_iff.mpr fun e _ => if_neg hne

theorem Orderly.changes {g g' : World κ} {agenda tasks : List (Task κ)} (h : Orderly g agenda) (hfiled : g.Filed)
    (hc : Changes g g' tasks)
    (hnest : ¬ ∃ c items, g.listOf c = some items ∧ g'.listOf c ≠ some items ∧
      ∃ id l change, Task.deliverChange c id l change ∈ agenda) : Orderly g' (tasks ++ agenda) := by
  obtain ⟨c, items, change, rfl, rfl, hknown, hold⟩ := hc
  have hlist : ∀ d, (g.changeItems c items change).1.listOf d =
      if c = d then (g.listOf d).map fun _ => items else g.listOf d := g.listOf_changeItems c items
  have hvalue : ∀ v, (g.changeItems c items change).1.hasValue v = g.hasValue v := by
    intro v
    cases v with
    | collection d => simp [World.changeItems, World.hasValue, World.modifyCollection]
    | _ => rfl
  -- nothing else is pending for a collection that keeps its own account
  have hnone : ∀ {old}, g.listOf c = some old → ∀ id l change, Task.deliverChange c id l change ∉ agenda := by
    intro old hitems id l change hm
    refine hnest ⟨c, old, hitems, ?_, id, l, change, hm⟩
    rw [hlist, if_pos rfl, hitems, Option.map_some]
    exact fun heq => (hold old hitems).1 (Option.some.inj heq)
  constructor
  case known =>
    intro d id l change' hm
    rw [hvalue]
    rcases List.mem_append.mp hm with hm | hm
    · rcases World.mem_changeRound.mp hm with ⟨e, -, heq⟩ | ⟨o, -, heq⟩
      · cases heq
        exact hknown
      · cases heq
    · exact h.known hm
  case once =>
    intro d new hnew
    have hround := g.tells_changeRound c d change
    rw [hlist] at hnew
    rw [List.filterMap_append]
    change (List.filterMap (Task.tells d) (g.changeRound c change) ++ _).Nodup
    rw [hround]
    by_cases hcd : c = d
    · subst hcd
      rw [if_pos rfl] at hnew ⊢
      obtain ⟨old, hitems, -⟩ := Option.map_eq_some_iff.mp hnew
      have hnil : agenda.filterMap (Task.tells c) = [] := by
        refine List.filterMap_eq_nil_iff.mpr fun t ht => ?_
        cases t with
        | deliverChange d id l change =>
          exact if_neg fun (heq : d = c) => hnone hitems id l change (heq ▸ ht)
        | _ => rfl
      rw [hnil, List.append_nil, List.Nodup, List.pairwise_map]
      exact (hfiled.changesAscending c).imp fun hab => ne_of_lt hab
    · rw [if_neg hcd] at hnew ⊢
      exact h.once hnew
  case joined =>
    intro d id l change' new hm hnew o
    rw [hlist] at hnew
    rcases List.mem_append.mp hm with hm | hm
    · rcases World.mem_changeRound.mp hm with ⟨e, -, heq⟩ | ⟨o, -, heq⟩
      · cases heq
        rw [if_pos rfl] at hnew
        obtain ⟨old, hitems, rfl⟩ := Option.map_eq_some_iff.mp hnew
        exact (hold old hitems).2 o
      · cases heq
    · by_cases hcd : c = d
      · subst hcd
        rw [if_pos rfl] at hnew
        obtain ⟨old, hitems, -⟩ := Option.map_eq_some_iff.mp hnew
        exact absurd hm (hnone hitems id l change')
      · rw [if_neg hcd] at hnew
        exact h.joined hm hnew o

theorem Orderly.tail {g : World κ} {t : Task κ} {rest : List (Task κ)} (h : Orderly g (t :: rest)) :
    Orderly g rest where
  known hm := h.known (List.mem_cons_of_mem _ hm)
  once hitems := by
    have hnodup := h.once hitems
    rw [List.filterMap_cons] at hnodup
    split at hnodup
    · exact hnodup
    · exact (List.nodup_cons.mp hnodup).2
  joined hm := h.joined (List.mem_cons_of_mem _ hm)

/-- Where tasks bind, nobody is told of a change, and otherwise the world is stable. -/
theorem Leads.front {m : Machine κ σ} {missed : SubscriptionId → List ObjectId} (h : Leads L m missed) {t : Task κ}
    {rest : List (Task κ)} (hm : m.agenda = t :: rest) (ht : t.isBinding = false) : Stable m.world m.agenda missed := by
  obtain ⟨m', hworks, hstable⟩ := h
  cases hworks with
  | done => exact hstable
  | step hm' ht' _ =>
    rw [hm] at hm'
    cases hm'
    rw [ht] at ht'
    cases ht'

theorem Orderly.step {m : Machine κ σ} {missed : SubscriptionId → List ObjectId} (h : Orderly m.world m.agenda)
    (hleads : Leads L m missed) (hnest : ¬ m.Nests L) : Orderly (L.step m).world (L.step m).agenda := by
  obtain ⟨⟨g, agenda⟩, s⟩ := m
  cases agenda with
  | nil => exact h
  | cons t rest =>
    have hrest : Orderly g rest := h.tail
    rcases L.carry_changes g s t rest with hquiet | ⟨ht, hchanges⟩
    · exact hrest.quiet hquiet
    · refine hrest.changes (hleads.front rfl ht).grown.filed hchanges ?_
      rintro ⟨c, items, hitems, hne, id, l, change, hm⟩
      exact hnest ⟨c, items, hitems, hne, id, l, change, List.mem_cons_of_mem _ hm⟩

/-- Who is told of a change has no other news to wait for. -/
theorem Orderly.only {g : World κ} {c : CollectionId} {id : SubscriptionId} {l : ChangeListener κ} {change : Change}
    {rest : List (Task κ)} (h : Orderly g (.deliverChange c id l change :: rest)) {items : List ObjectId}
    (hitems : g.listOf c = some items)
    (hone : ∀ {d k change'}, Task.deliverChange d id k change' ∈ rest → d = c) :
    joining rest id = [] ∧ leaving rest id = [] := by
  have honce := h.once hitems
  rw [List.filterMap_cons] at honce
  simp only [Task.tells, if_true] at honce
  have hnone : ∀ t ∈ rest, t.joins id = [] ∧ t.leaves id = [] := by
    intro t ht
    cases t with
    | deliverChange d j k change' =>
      by_cases hj : j = id
      · subst hj
        exact absurd (List.mem_filterMap.mpr ⟨_, ht, if_pos (hone ht)⟩) (List.nodup_cons.mp honce).1
      · simp [Task.joins, Task.leaves, hj]
    | _ => exact ⟨rfl, rfl⟩
  exact ⟨List.flatMap_eq_nil_iff.mpr fun t ht => (hnone t ht).1,
    List.flatMap_eq_nil_iff.mpr fun t ht => (hnone t ht).2⟩

/-- The change leads from `watched` to `members`: those who left were watched, and those
who stay are, with those who joined, the members. -/
def Change.Accurate (change : Change) (watched members : List ObjectId) : Prop :=
  ∃ staying, watched.Perm (staying ++ change.removed) ∧ members.Perm (staying ++ change.added)

/-- **What a collection's watcher is told** leads from what it watches to the members there
are, if nothing was missed before. -/
theorem Orderly.accurate {g : World κ} {c : CollectionId} {id : SubscriptionId} {l : ChangeListener κ} {change : Change}
    {rest : List (Task κ)} (h : Orderly g (.deliverChange c id l change :: rest))
    {missed : SubscriptionId → List ObjectId} (hstable : Stable g (.deliverChange c id l change :: rest) missed)
    (hmissed : missed id = []) {w : Nat} {item batch site b}
    (hw : g.watchers[w]? = some (.collection item batch site (some b))) (hid : b.subscription = id)
    (hitem : item.isNil = false) {items : List ObjectId} (hitems : g.listOf b.collection = some items) :
    change.Accurate (b.items.map (·.1)) items := by
  have hm : (id, ChangeListener.membership w) ∈ g.listenersOfCollection b.collection :=
    hstable.grown.membership.mpr ⟨item, batch, site, b, hw, hid, rfl⟩
  have hc : b.collection = c := ((hstable.delivers_changes List.mem_cons_self).2.1 _ _ hm).1
  obtain ⟨hjoining, hleaving⟩ := h.only (hc ▸ hitems) fun ht =>
    ((hstable.delivers_changes (List.mem_cons_of_mem _ ht)).2.1 _ _ hm).1.symm.trans hc
  have hbal : ∀ o, (b.items.map (·.1)).count o + change.added.count o = items.count o + change.removed.count o := by
    intro o
    have hbal := hstable.balanced hw hitem items hitems o
    rw [hid, joining_change, leaving_change, if_pos rfl, if_pos rfl, hjoining, hleaving, hmissed] at hbal
    simpa using hbal
  have hadded := h.joined List.mem_cons_self (hc ▸ hitems)
  refine ⟨(b.items.map (·.1)).diff change.removed, List.perm_iff_count.mpr fun o => ?_,
    List.perm_iff_count.mpr fun o => ?_⟩ <;>
    rw [List.count_append, List.count_diff] <;>
    have := hbal o <;>
    have := hadded o <;>
    omega

/-- Who is said to have left is watched, if nothing was missed before. -/
theorem Orderly.misses {m : Machine κ σ} {missed : SubscriptionId → List ObjectId} (h : Orderly m.world m.agenda)
    (hleads : Leads L m missed) (hmissed : ∀ id, missed id = []) (id : SubscriptionId) : m.misses id = [] := by
  obtain ⟨⟨g, agenda⟩, s⟩ := m
  unfold Machine.misses
  split
  · rename_i c i w change rest hagenda
    simp only at hagenda h
    subst hagenda
    have hstable : Stable g _ missed := hleads.front rfl rfl
    split
    · unfold World.lost
      split
      · rename_i item batch site b hw
        split
        · rename_i hwatches
          simp only [Bool.and_eq_true, decide_eq_true_eq, Bool.not_eq_true', Option.isSome_iff_exists] at hwatches
          obtain ⟨⟨hid, hitem⟩, items, hitems⟩ := hwatches
          obtain ⟨staying, hwatched, -⟩ := h.accurate hstable (hmissed i) hw hid hitem hitems
          refine List.eq_nil_iff_forall_not_mem.mpr fun o ho => ?_
          have hcount := List.count_pos_iff.mpr ho
          rw [List.count_diff, hwatched.count_eq, List.count_append] at hcount
          omega
        · rfl
      · rfl
    · rfl
  · rfl

/-- **Nothing is missed** in a run where changes are told of one after the other. -/
theorem Run.unmissed {past : List (Machine κ σ)} {m : Machine κ σ} (h : Run L past m)
    (hhooks : ∀ n ∈ past, n.hooks = false) (hnest : ∀ n ∈ past, ¬ n.Nests L) :
    Orderly m.world m.agenda ∧ ∀ id, missedIn past id = [] := by
  induction h with
  | start s =>
    refine ⟨⟨fun hm => ?_, fun _ => ?_, fun hm => ?_⟩, fun id => rfl⟩
    · simp [machine] at hm
    · simp [machine]
    · simp [machine] at hm
  | @ask past g s h requests s' ih =>
    obtain ⟨horderly, hmissed⟩ := ih hhooks hnest
    refine ⟨?_, hmissed⟩
    have hquiet : Quiet g g (requests.map Task.request) := ⟨World.Lists.refl _, fun t ht => by
      obtain ⟨r, -, rfl⟩ := List.mem_map.mp ht
      rfl⟩
    have hasked := horderly.quiet hquiet
    simpa [machine] using hasked
  | @step past m h ih =>
    have hhooks' : ∀ n ∈ past, n.hooks = false := fun n hn => hhooks n (List.mem_cons_of_mem _ hn)
    obtain ⟨horderly, hmissed⟩ := ih hhooks' fun n hn => hnest n (List.mem_cons_of_mem _ hn)
    have hleads := h.leads hhooks'
    refine ⟨horderly.step hleads (hnest m List.mem_cons_self), fun id => ?_⟩
    rw [missedIn, hmissed, horderly.misses hleads hmissed]
    rfl

/-- **At rest** the watchers mirror what is there. -/
theorem Run.mirrored {past : List (Machine κ σ)} {g : World κ} {s : σ} (h : Run L past (machine g [] s))
    (hhooks : ∀ n ∈ past, n.hooks = false) (hnest : ∀ n ∈ past, ¬ n.Nests L) : Stable g [] fun _ => [] := by
  have hstable := (h.leads hhooks).stable
  have hmissed : missedIn past = fun _ => [] := funext (h.unmissed hhooks hnest).2
  rwa [hmissed] at hstable

end LiveRules
