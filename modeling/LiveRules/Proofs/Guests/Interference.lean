/-
# Attachments do not interfere

A run in which some trees are attached, moved and disposed of at arbitrary moments, also
while code runs, is compared with the run in which this is left out. If all that those
trees run changes nothing, then the runs are the same but for the visits: in the same
order the same trees run the same batches on the same contexts, the same code is run,
properties and collections hold the same, and every other tree has as many subscriptions.

Key definitions: `Played`, `hosting`, `Request.IsVisit`.
Key theorems: `Played.run`, `Played.hosts`, `attachments_do_not_interfere`.
-/
import LiveRules.Proofs.Coherence.Bindings
import LiveRules.Proofs.Guests.Leaving

namespace LiveRules

variable {κ σ : Type} {L : Language κ σ}

/-! ### Runs with visits -/

/-- The machine starts at `m₀`. At rest the client asks for something, and at any moment a
visit may come before everything else. What was asked for, the visits, and the machines
that took a step are listed, the last one first. -/
inductive Played (L : Language κ σ) (m₀ : Machine κ σ) :
    List (List (Request κ)) → List (Request κ) → List (Machine κ σ) → Machine κ σ → Prop
  | start : Played L m₀ [] [] [] m₀
  | ask {asks : List (List (Request κ))} {visits : List (Request κ)} {past : List (Machine κ σ)} {m : Machine κ σ}
      (h : Played L m₀ asks visits past m) (hrest : m.agenda = []) (requests : List (Request κ)) :
      Played L m₀ (requests :: asks) visits past (machine m.world (requests.map .request) m.state)
  | visit {asks : List (List (Request κ))} {visits : List (Request κ)} {past : List (Machine κ σ)} {m : Machine κ σ}
      (h : Played L m₀ asks visits past m) (r : Request κ) :
      Played L m₀ asks (r :: visits) past (machine m.world (.request r :: m.agenda) m.state)
  | step {asks : List (List (Request κ))} {visits : List (Request κ)} {past : List (Machine κ σ)} {m : Machine κ σ}
      (h : Played L m₀ asks visits past m) : Played L m₀ asks visits (m :: past) (L.step m)

/-- A tree that has never been attached. -/
def Tree.idle (plan : WatchPlan κ) : Tree κ where
  plan

/-- There are trees with these plans, not attached, and nothing else. -/
def hosting (plans : List (WatchPlan κ)) (s : σ) : Machine κ σ :=
  machine { trees := (plans.map Tree.idle).toArray } [] s

/-- One of the first `n` trees is attached, moved, disposed of or given up. -/
def Request.IsVisit (n : Nat) : Request κ → Prop
  | .attach t _ => t < n
  | .dispose t => t < n
  | .drop t => t < n
  | _ => False

namespace Played

variable {m₀ m : Machine κ σ} {asks : List (List (Request κ))} {visits : List (Request κ)} {past : List (Machine κ σ)}

theorem trail (h : Played L m₀ asks visits past m) (n : Nat) :
    Played L m₀ asks visits (L.trail n past m).1 (L.trail n past m).2 := by
  induction n generalizing past m with
  | zero => exact h
  | succ n ih => exact ih h.step

/-- Without visits, the machine goes on as it does in a run. -/
theorem resumes (h : Played L m₀ asks [] past m) : Resumes L m₀ past m := by
  generalize hvisits : ([] : List (Request κ)) = visits at h
  induction h with
  | start => exact .here
  | @ask _ _ _ m _ hrest requests ih =>
    obtain ⟨⟨g, agenda⟩, s⟩ := m
    obtain rfl : agenda = [] := hrest
    exact (ih hvisits).ask requests s
  | visit _ r _ => cases hvisits
  | step _ ih => exact (ih hvisits).step

end Played

/-- Making the trees is a run. -/
theorem hosting_run (plans : List (WatchPlan κ)) (s : σ) : ∃ past, Run L past (hosting plans s) := by
  have hmade (plans : List (WatchPlan κ)) (trees : List (Tree κ)) (past : List (Machine κ σ))
      (h : Run L past (machine { trees := trees.toArray } (plans.map fun plan => .request (.newTree plan)) s)) :
      ∃ past, Run L past (machine { trees := (trees ++ plans.map Tree.idle).toArray } [] s) := by
    induction plans generalizing trees past with
    | nil => exact ⟨past, by simpa using h⟩
    | cons plan plans ih =>
      have hstep : L.step (machine { trees := trees.toArray }
          (.request (.newTree plan) :: plans.map fun plan => .request (.newTree plan)) s) =
          machine { trees := (trees ++ [Tree.idle plan]).toArray }
            (plans.map fun plan => .request (.newTree plan)) s := by
        simp [Language.step, machine, Language.carry, World.grant, Tree.idle]
      obtain ⟨past', h'⟩ := ih (trees ++ [Tree.idle plan]) _ (hstep ▸ h.step)
      exact ⟨past', by simpa using h'⟩
  have hasked : Run L [] (machine {} ((plans.map .newTree).map .request) s) := (Run.start s).ask _ s
  rw [List.map_map] at hasked
  exact hmade plans [] [] hasked

/-- Without visits, it is a **run**. -/
theorem Played.run {plans : List (WatchPlan κ)} {s : σ} {asks : List (List (Request κ))} {past : List (Machine κ σ)}
    {m : Machine κ σ} (h : Played L (hosting plans s) asks [] past m) : ∃ earlier, Run L (past ++ earlier) m := by
  obtain ⟨earlier, hrun⟩ := hosting_run (L := L) plans s
  exact ⟨earlier, hrun.resume h.resumes⟩

/-! ### With and without the visits -/

section

variable {G : Guests κ}

theorem Request.IsVisit.guest {M : Matching} {r : Request κ} (h : r.IsVisit G.trees) : (Task.request r).Guest G M := by
  cases r with
  | attach t context => exact .attach h context
  | dispose t => exact .dispose h
  | drop t => exact .drop h
  | _ => cases h

/-- Nothing has been numbered, and no value has been seen. -/
def Matching.nothing : Matching where
  ids := .nothing
  watchers := .nothing
  known _ := False

theorem hosts_hosting {hL : L.Opaque G} {plans : List (WatchPlan κ)} {s : σ} (hcount : plans.length = G.trees)
    (hquiet : ∀ plan ∈ plans, plan.Quiet G) (hs : hL.same (fun _ _ => False) s s) :
    (hosting plans s).Hosts hL .nothing (hosting plans s) := by
  have hnone (a b : Nat) : ¬ Pairing.nothing.Pairs a b := by simp [Pairing.Pairs, Pairing.nothing]
  have hstray (b : Nat) : ¬ Pairing.nothing.Stray b := by simp [Pairing.Stray, Pairing.nothing]
  have hnotifier (s' : Subject) : (hosting plans s).world.notifierOf s' = {} := by
    cases s' <;> simp [hosting, machine, World.notifierOf]
  have htrees (t : TreeId) : (hosting plans s).world.trees[t]? = plans[t]?.map Tree.idle := by
    simp [hosting, machine]
  have hsize : (hosting plans s).world.trees.size = plans.length := by simp [hosting, machine]
  refine ⟨?_, .nil, hL.mono (fun _ _ => False.elim) hs⟩
  constructor
  case outline => rfl
  case known => exact fun v hv => hv.elim
  case next => rfl
  case bound => rfl
  case notifier =>
    intro s'
    rw [hnotifier]
    exact ⟨fun p => .nil, fun a b _ => rfl⟩
  case changes =>
    intro c
    have hnobody : (hosting plans s).world.listenersOfCollection c = [] := by
      simp [hosting, machine, World.listenersOfCollection]
    rw [hnobody]
    exact .nil
  case size => rfl
  case extent => rfl
  case watcher => exact fun a b hab => absurd hab (hnone a b)
  case guest => exact fun b hb => absurd hb (hstray b)
  case made => exact (hsize.trans hcount).ge
  case forest => rfl
  case tree =>
    intro t ht
    rw [htrees, List.getElem?_eq_none (hcount ▸ ht)]
    exact .none
  case hosted =>
    intro t ht
    rw [htrees, List.getElem?_eq_getElem (hcount ▸ ht)]
    exact .some ⟨rfl, hquiet _ (List.getElem_mem _), fun w hw => by cases hw⟩

variable {hL : L.Opaque G} {plans : List (WatchPlan κ)} {s : σ} {asks : List (List (Request κ))}
    {visits : List (Request κ)}
  {past' : List (Machine κ σ)} {m' : Machine κ σ}

/-- **What a run keeps**: there is the run without the visits, and the machine hosts guests
of the one there. -/
theorem Played.hosts (hcount : plans.length = G.trees) (hquiet : ∀ plan ∈ plans, plan.Quiet G)
    (hs : hL.same (fun _ _ => False) s s) (h : Played L (hosting plans s) asks visits past' m')
    (hasks : ∀ requests ∈ asks, ∀ r ∈ requests, r.isUnnumbered G.trees = true)
    (hvisits : ∀ r ∈ visits, r.IsVisit G.trees)
    (htame : ∀ k ∈ past', k.world.Tame) : ∃ past m M, Played L (hosting plans s) asks [] past m ∧
      Woven (Machine.Corresponds G) (Machine.Visited L G) past past' ∧ m.Hosts hL M m' := by
  induction h with
  | start => exact ⟨[], _, _, .start, .nil, hosts_hosting hcount hquiet hs⟩
  | @ask asks visits past' m' _ hrest requests ih =>
    obtain ⟨hunnumbered, hasks⟩ := List.forall_mem_cons.mp hasks
    obtain ⟨past, m, M, hplayed, hwoven, hhosts⟩ := ih hasks hvisits htame
    have hagenda := hhosts.agenda
    rw [hrest] at hagenda
    have hidle : m.agenda = [] := by
      generalize m.agenda = agenda at hagenda
      cases hagenda
      rfl
    refine ⟨past, _, M, hplayed.ask hidle requests, hwoven, hhosts.world, ?_, hhosts.state⟩
    exact .of_map fun r hr => .request (.same (hunnumbered r hr))
  | visit _ r ih =>
    obtain ⟨hvisit, hvisits⟩ := List.forall_mem_cons.mp hvisits
    obtain ⟨past, m, M, hplayed, hwoven, hhosts⟩ := ih hasks hvisits htame
    exact ⟨past, m, M, hplayed, hwoven, hhosts.world, .other hvisit.guest hhosts.agenda, hhosts.state⟩
  | step _ ih =>
    obtain ⟨htame', htame⟩ := List.forall_mem_cons.mp htame
    obtain ⟨past, m, M, hplayed, hwoven, hhosts⟩ := ih hasks hvisits htame
    obtain ⟨earlier, hrun⟩ := hplayed.run
    rcases hhosts.step htame' (hhosts.world.unhooked_sane hrun.sane) with
      ⟨hcorresponds, N, -, hhosts'⟩ | ⟨hvisited, N, -, hhosts'⟩
    · exact ⟨m :: past, L.step m, N, hplayed.step, .cons hcorresponds hwoven, hhosts'⟩
    · exact ⟨past, m, N, hplayed, .other hvisited hwoven, hhosts'⟩

/-- **Attachments do not interfere.** Some trees are there from the beginning, and all that
their plans run changes nothing. In a run they are attached, moved, disposed of and given
up at arbitrary moments; everything that exists has a name, and no code is due on a
subscription. Then there is the run in which the client asks for the same, and which goes
without the visits.

Each of its machines corresponds to one of the run with visits, in the same order: the
worlds hold the same values and members, every other tree is attached and has as many
subscriptions as there, and the next step shows the same, the same batch run by the same
tree on the same context, the same action, the same code run for the same reason. All
other steps are visits, which leave that as it is. So whatever is looked for that no
visitor does shows the same in the same order. And the visitors never keep the others
waiting for long: they come to an end, and then the machines are at corresponding
states. -/
theorem attachments_do_not_interfere (hL : L.Opaque G) (hcount : plans.length = G.trees)
    (hquiet : ∀ plan ∈ plans, plan.Quiet G) (hs : hL.same (fun _ _ => False) s s)
    (h : Played L (hosting plans s) asks visits past' m')
    (hasks : ∀ requests ∈ asks, ∀ r ∈ requests, r.isUnnumbered G.trees = true)
    (hvisits : ∀ r ∈ visits, r.IsVisit G.trees)
    (htame : ∀ k ∈ m' :: past', k.world.Tame) : ∃ past m, Played L (hosting plans s) asks [] past m ∧
      Woven (Machine.Corresponds G) (Machine.Visited L G) past past' ∧ m.toScene.Resembles G.trees m'.toScene ∧
      (∀ shows : Deed κ → Bool, (∀ d, d.OfGuest G → shows d = false) →
        past'.filterMap (fun k => k.deed?.filter shows) = past.filterMap fun k => k.deed?.filter shows) ∧
      ∃ others n', L.Passes m' others n' ∧ (∀ k ∈ others, k.Visited L G) ∧ m.Corresponds G n' := by
  obtain ⟨htame', htame⟩ := List.forall_mem_cons.mp htame
  obtain ⟨past, m, M, hplayed, hwoven, hhosts⟩ := h.hosts hcount hquiet hs hasks hvisits htame
  obtain ⟨earlier, hrun⟩ := hplayed.run
  obtain ⟨N, others, n', -, hpasses, -, hvisited, hcorresponds⟩ :=
    hhosts.leaves (htame'.congr hhosts.world.outline.symm) hrun.sane
  refine ⟨past, m, hplayed, hwoven, hhosts.resembles htame', fun shows hguests => ?_, others, n', hpasses, hvisited,
    hcorresponds⟩
  refine hwoven.filterMap_eq (fun k k' hk => by rw [hk.deed]) fun k hk => ?_
  cases hd : k.deed? with
  | none => rfl
  | some d => simp [Option.filter, hguests d (hk.deed d hd)]

end

/-! ### A tree that looks on -/

/-- Code that keeps the subscription it is handed and takes it back when it is told of a
change; looking does nothing. -/
def keeper : Language String (Option SubscriptionId) where
  run k signal _ s :=
    if k = "look" then (s, [])
    else
      match signal, s with
      | .subscribed id, _ => (some id, [])
      | .enter _ _, some id => (none, [.unsubscribe (.object 0) id])
      | _, _ => (s, [])
  value source o scene _ := scene.world.read o source
  test condition o _ scene s := ((scene.world.read o condition).isTrue, s)

/-- The first tree only looks. -/
def lookingOn : Guests String where
  trees := 1
  quiet k := k = "look"

def keeperOpaque : keeper.Opaque lookingOn where
  same R s s' := Option.Rel R s s'
  mono hR hs := optionRel_mono hR hs
  run k _ _ hs hsignal := by
    simp only [keeper]
    split
    · exact ⟨hs, .nil⟩
    · cases hsignal with
      | enter context argument =>
        cases hs with
        | none => exact ⟨.none, .nil⟩
        | some hij => exact ⟨.none, .cons (.unsubscribe _ hij) .nil⟩
      | changed change => exact ⟨hs, .nil⟩
      | subscribed hij => exact ⟨.some hij, .nil⟩
  value k o _ hscene _ := World.read_congr hscene.outline o k
  test k o _ _ hscene hs := ⟨congrArg Value.isTrue (World.read_congr hscene.outline o k), hs⟩
  quiet _ context argument hk hs := by
    obtain rfl : _ = "look" := hk
    exact ⟨rfl, hs⟩

/-- It looks at a property of the context, and of its friend. -/
def lookout : Graph :=
  ⟨.node (.field "first") [0] .nil (.node (.field "friend") [] (.node (.field "first") [1] .nil .nil) .nil)⟩

def looking : WatchPlan String :=
  lookout.compile fun a => some (a, .code "look")

def lookers : Machine String (Option SubscriptionId) :=
  hosting [looking] none

/-- A binder with two copies in a row is attached, and code is to be told of a change. -/
def settingUp : List (Request String) :=
  [.newObject "context" [("first", .int 7)] none [], .newObject "other" [("friend", .object 0)] none [],
    .newTree copying.1.plan, .attach 1 0, .subscribe (.object 0) "first" "once" none "once"]

/-- The machines that took a step, and the machine they came to. -/
abbrev Trail := List (Machine String (Option SubscriptionId)) × Machine String (Option SubscriptionId)

def Trail.ask (r : Trail) (requests : List (Request String)) (n : Nat) : Trail :=
  keeper.trail n r.1 (machine r.2.world (requests.map .request) r.2.state)

def Trail.visit (r : Trail) (request : Request String) (n : Nat) : Trail :=
  keeper.trail n r.1 (machine r.2.world (.request request :: r.2.agenda) r.2.state)

/-- While the binder is being attached, the first tree is attached to the same context. -/
def joined : Trail :=
  (Trail.ask ([], lookers) settingUp 6).visit (.attach 0 0) 24

/-- A property is written, and while the copies are at work the tree is moved. In the end
it is disposed of. -/
def lookedOn : Trail :=
  ((joined.ask [.write 0 "first" (.int 8)] 3).visit (.attach 0 1) 36).visit (.dispose 0) 1

theorem lookedOn_played : Played keeper lookers [[.write 0 "first" (.int 8)], settingUp]
    [.dispose 0, .attach 0 1, .attach 0 0] lookedOn.1 lookedOn.2 := by
  have hjoined : Played keeper lookers [settingUp] [.attach 0 0] joined.1 joined.2 :=
    (((Played.start.ask rfl settingUp).trail 6).visit (.attach 0 0)).trail 24
  have hrest : joined.2.agenda = [] := List.isEmpty_iff.mp (by decide +kernel)
  exact ((((hjoined.ask hrest _).trail 3).visit (.attach 0 1)).trail 36).visit (.dispose 0) |>.trail 1

theorem World.tame_of_all {g : World κ}
    (h : (g.objects.all (·.hooks.isEmpty) && (List.range g.objects.size).all g.isNamed) = true) : g.Tame := by
  rw [Bool.and_eq_true, Array.all_eq_true', List.all_eq_true] at h
  refine ⟨fun o x hx => List.isEmpty_iff.mp (h.1 x (Array.mem_of_getElem? hx)),
    fun o ho => h.2 o (List.mem_range.mpr ?_)⟩
  simpa [World.hasObject] using ho

/-- What was copied with the tree looking on is copied without it, and the binder has as
many subscriptions. -/
theorem lookers_do_not_interfere : ∃ past m, Played keeper lookers [[.write 0 "first" (.int 8)], settingUp] [] past m ∧
    Woven (Machine.Corresponds lookingOn) (Machine.Visited keeper lookingOn) past lookedOn.1 ∧
    m.world.read 0 "third" = .int 8 ∧ m.world.subscriptionCount 1 = 2 := by
  have htame : (lookedOn.2 :: lookedOn.1).all (fun k => k.world.objects.all (·.hooks.isEmpty) &&
      (List.range k.world.objects.size).all k.world.isNamed) = true := by decide +kernel
  have hquiet : ∀ plan ∈ [looking], plan.Quiet lookingOn :=
    List.forall_mem_singleton.mpr (Graph.quiet_compile (fun a e he => by cases he; rfl) lookout)
  obtain ⟨past, m, hplayed, hwoven, hsame, -⟩ :=
    attachments_do_not_interfere keeperOpaque rfl hquiet .none lookedOn_played
    (by simp [settingUp, Request.isUnnumbered, lookingOn]) (by simp [Request.IsVisit, lookingOn])
    fun k hk => World.tame_of_all (List.all_eq_true.mp htame k hk)
  have hread : lookedOn.2.world.read 0 "third" = .int 8 := by decide +kernel
  have hcount : lookedOn.2.world.subscriptionCount 1 = 2 := by decide +kernel
  exact ⟨past, m, hplayed, hwoven, (World.read_congr hsame.outline 0 "third").symm.trans hread,
    (hsame.count 1 le_rfl).symm.trans hcount⟩

end LiveRules
