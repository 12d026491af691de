/-
# Command caches are coherent

A command binding stands for three rules of a binder. When a context is attached they
make a command for it and evaluate it right before the tree starts to watch, and then
they evaluate it whenever one of its dependencies changes. Whatever else is written,
nested in whatever way, at rest the command has cached what its condition says.

Key definitions: `Operation.Public`.
Key theorems: `history_settles`, `Kept.attachRuns`, `command_cache_coherent`.
-/
import LiveRules.Proofs.Coherence.Attaching

namespace LiveRules

variable {κ σ : Type} {L : Language κ σ}

/-! ### What runs on attach -/

/-- The operation does not put a plain rule where commands are evaluated. -/
def Operation.Public : Operation κ → Prop
  | .add rule _ => rule.phase = .initial
  | _ => True

/-- What runs last on attach evaluates commands. -/
def Roster.Settles (roster : Roster (Action κ)) : Prop :=
  ∀ e ∈ roster.live, e.rule.phase = .settle → e.rule.action.Settles

theorem Roster.Settles.add {roster : Roster (Action κ)} (h : roster.Settles) {rule : Rule (Action κ)}
    (hrule : rule.phase = .settle → rule.action.Settles) : (roster.add rule).Settles := by
  intro e he
  rcases List.mem_append.mp he with he | he
  · exact h e (List.mem_of_mem_filter he)
  · obtain rfl := List.mem_singleton.mp he
    exact hrule

theorem Roster.Settles.after {roster : Roster (Action κ)} (h : roster.Settles) (b : Binder κ) {op : Operation κ}
    (hop : op.Public) : (roster.after b op).Settles := by
  cases op with
  | add rule key =>
    simp only [Roster.after]
    split
    · have hinitial : (rule.withKey key).phase = .initial := hop
      refine h.add fun hphase => ?_
      rw [hinitial] at hphase
      cases hphase
    · exact h
  | bind p =>
    simp only [Roster.after]
    split
    · refine h.add fun hphase => ?_
      cases hphase
    · exact h
  | command c =>
    simp only [Roster.after]
    split
    · have hsettle : c.settleRule.action.Settles := .settle _ _
      refine ((h.add fun hphase => ?_).add fun hphase => ?_).add fun _ => hsettle
      · cases hphase
      · cases hphase
    · exact h
  | remove key => exact fun e he => h e (List.mem_of_mem_filter he)
  | clone => exact h
  | derive =>
    intro e he hphase
    obtain ⟨d, hd, rfl⟩ := List.mem_map.mp he
    exact .onBase (h d hd hphase)

theorem history_settles (ops : List (Operation κ)) (hops : ∀ op ∈ ops, op.Public) : (history ops).2.Settles := by
  suffices key : ∀ s : Binder κ × Roster (Action κ), s.2.Settles →
      (ops.foldl (fun s op => (s.1.after op, s.2.after s.1 op)) s).2.Settles from key _ (by simp [Roster.Settles])
  induction ops with
  | nil => exact fun s h => h
  | cons op ops ih =>
    exact fun s h => ih (fun o ho => hops o (List.mem_cons_of_mem _ ho)) _ (h.after s.1 (hops op List.mem_cons_self))

/-- What runs on attach, in both phases. -/
theorem Kept.attachRuns {b : Binder κ} {roster : Roster (Action κ)} (h : Kept b roster) :
    b.registry.attachRuns = (roster.live.filter (·.rule.runsIn .initial)).map (fun e => (e.id, e.rule.action)) ++
      (roster.live.filter (·.rule.runsIn .settle)).map fun e => (e.id, e.rule.action) := by
  unfold Registry.attachRuns
  rw [h.onAttach, h.onSettle, h.filterMap_resolve, h.filterMap_resolve]

/-- Evaluations that are asked for one after the other. -/
theorem settling_asks {t : TreeId} {context : ObjectId} {entries : List (Entry (Action κ))}
    (h : ∀ e ∈ entries, e.rule.action.Settles) {rest : List (Task κ)} (hrest : Settling t context rest) :
    Settling t context (entries.map (fun e => .request (.perform e.rule.action context)) ++ rest) := by
  induction entries with
  | nil => exact hrest
  | cons e entries ih =>
    exact .ask (h e List.mem_cons_self) (ih fun d hd => h d (List.mem_cons_of_mem _ hd))

/-- **Attaching a binder** with a command binding starts as `Attaching` says. -/
theorem Kept.attaching {b : Binder κ} {roster : Roster (Action κ)} (h : Kept b roster) (hsettles : roster.Settles)
    {c : CommandRules κ} {context : ObjectId} {later : List (Machine κ σ)} (hforce : c.InForce L roster context later)
    {m : Machine κ σ} {rest : List (Task κ)}
    (hagenda : m.agenda = (b.attach m.world.trees.size context).map .request ++ rest)
    (id : ActionId) : c.Attaching L m.world.trees.size context b.plan id m := by
  obtain ⟨created, hcreated, hcreate⟩ := hforce.live c.createRule (by simp [CommandRules.rules])
  obtain ⟨settled, hsettled, hsettle⟩ := hforce.live c.settleRule (by simp [CommandRules.rules])
  have hfirst : created ∈ roster.live.filter (·.rule.runsIn .initial) :=
    List.mem_filter.mpr ⟨hcreated, by rw [hcreate]; rfl⟩
  have hlast : settled ∈ roster.live.filter (·.rule.runsIn .settle) :=
    List.mem_filter.mpr ⟨hsettled, by rw [hsettle]; rfl⟩
  obtain ⟨before, after, hsplit⟩ := List.append_of_mem hlast
  have hafter : ∀ e ∈ after, e.rule.action.Settles := by
    intro e he
    have hmem : e ∈ roster.live.filter (·.rule.runsIn .settle) := by
      rw [hsplit]
      exact List.mem_append_right _ (List.mem_cons_of_mem _ he)
    have hphase := (List.mem_filter.mp hmem).2
    simp only [Rule.runsIn, Bool.and_eq_true, decide_eq_true_eq] at hphase
    exact hsettles e (List.mem_filter.mp hmem).1 hphase.2
  have hcreation : (.request (.perform (.create c.binding c.property) context) : Task κ) ∈
      (roster.live.filter (·.rule.runsIn .initial) ++ before).map fun e =>
        .request (.perform e.rule.action context) := by
    refine List.mem_map.mpr ⟨created, List.mem_append_left _ hfirst, ?_⟩
    rw [hcreate]
    rfl
  refine .start ?_ rfl hcreation (settling_asks hafter (.attach rest))
  rw [hagenda, Binder.attach, h.attachRuns, hsplit]
  simp [Function.comp_def, hsettle, CommandRules.settleRule, CommandRules.keyed, Rule.withKey, hforce.plain]

/-- **Command caches are coherent.** A binder with an argument-free command binding among
its rules is attached to a context, in the course of any run. Its plain rules run in the
first phase of an attach, as those that are added through a builder do. The condition reads
along the dependencies, and nobody but the binding's own rule that makes the command changes
the property. Then at every later rest, as long as the tree has stayed attached, the property
holds a command of the binding, and what the command has cached is what its condition
says of the context, which is whether the command can execute. No code is hooked on
subscriptions, every collection tells of what happens to its members, and changes are told
of one after the other. -/
theorem command_cache_coherent {past later : List (Machine κ σ)} {m₀ : Machine κ σ} {g : World κ} {s : σ}
    (h : Run L past m₀) (h' : Resumes L m₀ later (machine g [] s)) (hhooks : ∀ n ∈ later ++ past, n.hooks = false)
    (hnest : ∀ n ∈ later ++ past, ¬ n.Nests L) (hfree : ∀ x ∈ g.collections, x.free = false)
    (ops : List (Operation κ)) (hops : ∀ op ∈ ops, op.Public) {context : ObjectId}
    (hcontext : m₀.world.hasObject context = true) {rest : List (Task κ)}
    (hagenda : m₀.agenda = ((history ops).1.attach m₀.world.trees.size context).map .request ++ rest)
    (hstays : ∀ n ∈ later, n.world.isAttached m₀.world.trees.size = true →
      (L.step n).world.isAttached m₀.world.trees.size = true)
    (c : CommandRules κ) (hforce : c.InForce L (history ops).2 context later) :
    ∃ x y, g.read context c.property = .command x ∧ g.commands[x]? = some y ∧ y.takesArgument = false ∧
      y.bound = some (c.binding, context) ∧ y.enabled = (L.test c.binding.condition context 0 { world := g } s).1 ∧
      y.enabled = (L.canRun { world := g } s x 0).1 := by
  have hkept := history_kept ops
  obtain ⟨e, he, hrule⟩ := hforce.live c.refreshRule (by simp [CommandRules.rules])
  obtain ⟨paths, htriggers⟩ := hkept.accepted e he
  have hpaths : pathsOf c.dependencies = .ok paths := by
    rw [hrule] at htriggers
    exact htriggers
  have hserves : ∀ site, ∀ p ∈ paths, (Watcher.object (history ops).1.plan site none).Serves
      (e.id, .refresh false c.property) p.word := by
    intro site p hp
    have hserves := hkept.serves he htriggers hp site none
    have haction : e.rule.action = .refresh false c.property := by
      rw [hrule, ← hforce.plain]
      rfl
    rwa [haction] at hserves
  have hcumulative : (history ops).1.plan.Cumulative := Forest.cumulative_compile _ _
  have hreads := hforce.reads paths hpaths
  have hattaching : c.Attaching L m₀.world.trees.size context (history ops).1.plan e.id (machine g [] s) := by
    refine h.keeps h' hhooks hnest (fun u hu => ?_) (hkept.attaching (history_settles ops hops) hforce hagenda e.id)
      (fun hattaching requests s' => hattaching.ask hreads requests s') ?_
    · rw [hagenda] at hu
      cases hu
      rfl
    · intro g₁ u rest s₁ g₂ tasks s₂ hmem hstable hs hstable' hattaching
      obtain ⟨hbefore, hafter⟩ := h'.outlives.2 _ hmem
      exact hattaching.stride hstable hs hstable' hforce hmem (hbefore.hasObject hcontext) hpaths hserves hcumulative
        (hafter.unfree hfree) (hstays _ hmem)
  obtain ⟨⟨top, hstands⟩, x, y, howns, henabled⟩ := hattaching.at_rest
  have halive : Scene.alive { world := g } context = true :=
    ((h.resume h').mirrored hhooks hnest).alive_context hstands []
  refine ⟨x, y, howns.held, howns.made, howns.plain, howns.bound, henabled, henabled.trans ?_⟩
  exact (congrArg Prod.fst (howns.canRun_eq halive s)).symm

/-! ### A command that waits -/

/-- The command can execute when the context is ready. -/
def waiting : CommandRules String :=
  { binding := { takesArgument := false, execute := "start", condition := "ready", mode := .checkBeforeExecute }
    dependencies := [.steps [.property "ready"]], target := "command", property := "command" }

def waitingBinder : Binder String × Roster (Action String) :=
  history [.command waiting]

theorem waitingBinder_live : waitingBinder.2.live =
    [⟨0, waiting.refreshRule⟩, ⟨1, waiting.createRule⟩, ⟨2, waiting.settleRule⟩] := by
  rfl

/-- There is a context, which is not ready. -/
def unready : List (Machine String Unit) × Machine String Unit :=
  fields.trail 1 [] (machine {} ([.newObject "context" [] none []].map .request) ())

/-- The context is attached. -/
def attachingWaiting : Machine String Unit :=
  machine unready.2.world ((waitingBinder.1.attach 0 0).map .request) ()

theorem attachingWaiting_run : Run fields unready.1 attachingWaiting :=
  Run.ask (((Run.start ()).ask _ ()).trail 1) _ ()

def attachedWaiting : List (Machine String Unit) × Machine String Unit :=
  fields.trail 16 [] attachingWaiting

/-- Then it gets ready. -/
def ready : List (Machine String Unit) × Machine String Unit :=
  fields.trail 10 attachedWaiting.1 (machine attachedWaiting.2.world ([.write 0 "ready" (.bool true)].map .request) ())

theorem ready_resumes : Resumes fields attachingWaiting ready.1 (machine ready.2.world [] ()) :=
  (Resumes.ask (Resumes.here.trail 16) _ ()).trail 10

theorem ready_quiet : ∀ n ∈ ready.1 ++ unready.1, n.hooks = false ∧ ¬ n.Nests fields :=
  Machine.quiet_of_all (by decide +kernel)

/-- Once attached, the tree stays so. -/
theorem ready_stays : ∀ n ∈ ready.1, n.world.isAttached 0 = true → (fields.step n).world.isAttached 0 = true := by
  have hall : ready.1.all (fun n => !n.world.isAttached 0 || (fields.step n).world.isAttached 0) = true := by
    decide +kernel
  intro n hn hattached
  simpa [hattached] using List.all_eq_true.mp hall n hn

/-- The command is made for the first object. -/
def isCreation : List (Task String) → Bool
  | .perform (.create b p) o :: _ => !b.takesArgument && b.execute = "start" && b.condition = "ready" &&
      b.mode = .checkBeforeExecute && p = "command" && o = 0
  | _ => false

theorem head?_of_isCreation {agenda : List (Task String)} (h : isCreation agenda = true) :
    agenda.head? = some (waiting.creation 0) := by
  unfold isCreation at h
  split at h
  · rename_i b p o _
    obtain ⟨takesArgument, execute, condition, mode⟩ := b
    simp only [Bool.and_eq_true, Bool.not_eq_true', decide_eq_true_eq] at h
    obtain ⟨⟨⟨⟨⟨rfl, rfl⟩, rfl⟩, rfl⟩, rfl⟩, rfl⟩ := h
    rfl
  · cases h

theorem waiting_inForce : waiting.InForce fields waitingBinder.2 0 ready.1 := by
  have hall : ready.1.all (fun n => isCreation n.agenda ||
      (fields.step n).world.read 0 "command" = n.world.read 0 "command") = true := by decide +kernel
  refine ⟨rfl, fun rule hrule => ?_, fun paths hpaths => ?_, fun n hn => ?_⟩
  · rw [waitingBinder_live]
    simp only [CommandRules.rules, List.mem_cons, List.not_mem_nil, or_false] at hrule
    rcases hrule with rfl | rfl | rfl
    · exact ⟨_, List.mem_cons_self, rfl⟩
    · exact ⟨_, List.mem_cons_of_mem _ List.mem_cons_self, rfl⟩
    · exact ⟨_, List.mem_cons_of_mem _ (List.mem_cons_of_mem _ List.mem_cons_self), rfl⟩
  · cases hpaths
    intro scene scene' s s' hagrees
    have hagree : scene'.world.read 0 "ready" = scene.world.read 0 "ready" :=
      (hagrees _ List.mem_cons_self (.object 0) rfl).1
    exact congrArg Value.isTrue hagree
  · have hstep := List.all_eq_true.mp hall n hn
    rw [Bool.or_eq_true, decide_eq_true_eq] at hstep
    exact hstep.imp_left head?_of_isCreation

/-- The context has got ready, and the command has cached so. -/
theorem command_cache_coherent_ready : ∃ x y, ready.2.world.read 0 "command" = .command x ∧
    ready.2.world.commands[x]? = some y ∧ y.takesArgument = false ∧ y.bound = some (waiting.binding, 0) ∧
      y.enabled = true ∧ y.enabled = (fields.canRun { world := ready.2.world } () x 0).1 := by
  have hcontext : attachingWaiting.world.hasObject 0 = true := by decide +kernel
  have hagenda : attachingWaiting.agenda = (waitingBinder.1.attach 0 0).map .request ++ [] := (List.append_nil _).symm
  obtain ⟨x, y, hheld, hmade, hplain, hbound, henabled, hcan⟩ :=
    command_cache_coherent attachingWaiting_run ready_resumes
    (fun n hn => (ready_quiet n hn).1) (fun n hn => (ready_quiet n hn).2) (by decide +kernel) [.command waiting]
    (by simp [Operation.Public]) hcontext hagenda ready_stays waiting waiting_inForce
  have hready : ready.2.world.read 0 "ready" = .bool true := by decide +kernel
  refine ⟨x, y, hheld, hmade, hplain, hbound, henabled.trans ?_, hcan⟩
  exact congrArg Value.isTrue hready

end LiveRules
