/-
# Commands that are evaluated

A command binding makes a command for the context and keeps it in a property. What the
command has cached is the verdict of its condition when it was evaluated last. It is
*evaluated* if the verdict is still the same. A stride that changes nothing the condition
reads leaves it so, and whatever evaluates the command makes it so.

Key definitions: `Language.TestReads`, `CommandRules.Owns`, `CommandRules.Evaluated`,
`CommandRules.InForce`.
Key theorems: `CommandRules.Evaluated.keep`, `CommandRules.InForce.tracks_stride`.
-/
import LiveRules.Proofs.Coherence.Bindings

namespace LiveRules

variable {κ σ : Type} {L : Language κ σ}

/-! ### Commands of a binding -/

/-- What is asked of a command is asked of its condition. -/
theorem Language.canRun_of_bound (L : Language κ σ) {scene : Scene κ} {x : CommandId} {y : Command κ}
    (hmade : scene.world.commands[x]? = some y) {binding : CommandBinding κ} {context : ObjectId}
    (hbound : y.bound = some (binding, context)) (halive : scene.alive context = true) (s : σ) :
    L.canRun scene s x 0 = L.test binding.condition context 0 scene s := by
  simp only [Language.canRun, hmade, Option.bind_some, hbound, halive, if_true]

/-- The verdict of a condition on the context is a matter of what can be read along the
paths, and of nothing else. -/
def Language.TestReads (L : Language κ σ) (condition : κ) (paths : List Path) (context : ObjectId) : Prop :=
  ∀ (scene scene' : Scene κ) (s s' : σ), (∀ p ∈ paths, scene.world.Agrees scene'.world p.word (.object context)) →
    (L.test condition context 0 scene' s').1 = (L.test condition context 0 scene s).1

namespace CommandRules

variable (c : CommandRules κ)

/-- The property of the context holds the command `x`, which the binding made for it. -/
structure Owns (g : World κ) (context : ObjectId) (x : CommandId) (y : Command κ) : Prop where
  held : g.read context c.property = .command x
  made : g.commands[x]? = some y
  plain : y.takesArgument = false
  bound : y.bound = some (c.binding, context)

/-- The property holds a command of the binding, which has cached what its condition says. -/
def Evaluated (L : Language κ σ) (context : ObjectId) (m : Machine κ σ) : Prop :=
  ∃ x y, c.Owns m.world context x y ∧ y.enabled = (L.test c.binding.condition context 0 m.toScene m.state).1

/-- The command is made for the context. -/
def creation (context : ObjectId) : Task κ :=
  .perform (.create c.binding c.property) context

/-- The binding takes no argument and its rules are live, its condition reads along its
paths, and nobody else changes the property in any of the steps `later`. -/
structure InForce (L : Language κ σ) (roster : Roster (Action κ)) (context : ObjectId) (later : List (Machine κ σ)) :
    Prop where
  plain : c.binding.takesArgument = false
  live : ∀ rule ∈ c.rules, ∃ e ∈ roster.live, e.rule = rule
  reads : ∀ paths, pathsOf c.dependencies = .ok paths → L.TestReads c.binding.condition paths context
  alone : ∀ n ∈ later, n.agenda.head? = some (c.creation context) ∨
    (L.step n).world.read context c.property = n.world.read context c.property

variable {c} {roster : Roster (Action κ)} {context : ObjectId} {later : List (Machine κ σ)} {paths : List Path}

/-- The command stays the binding's while the property does not change. -/
theorem Owns.lasts {judged : CommandId → Bool → Prop} {g g' : World κ} {x : CommandId} {y : Command κ}
    (h : c.Owns g context x y) (hlasts : g.Lasts judged g')
    (hread : g'.read context c.property = g.read context c.property) :
    ∃ y', c.Owns g' context x y' ∧ (y'.enabled = y.enabled ∨ judged x y'.enabled) := by
  obtain ⟨y', hmade, hy⟩ := hlasts.commands x y h.made
  exact ⟨y', ⟨hread.trans h.held, hmade, hy.takesArgument.trans h.plain, hy.bound.trans h.bound⟩, hy.enabled⟩

theorem Owns.canRun_eq {scene : Scene κ} {x : CommandId} {y : Command κ} (h : c.Owns scene.world context x y)
    (halive : scene.alive context = true) (s : σ) :
    L.canRun scene s x 0 = L.test c.binding.condition context 0 scene s :=
  L.canRun_of_bound h.made h.bound halive s

/-- **An evaluated command** stays so while neither the property changes nor what can be
read along the paths, if it is evaluated anew only to the verdict of its condition. -/
theorem Evaluated.keep {judged : CommandId → Bool → Prop} {m m' : Machine κ σ} (h : c.Evaluated L context m)
    (hreads : L.TestReads c.binding.condition paths context)
    (hagrees : ∀ p ∈ paths, m.world.Agrees m'.world p.word (.object context))
    (hread : m'.world.read context c.property = m.world.read context c.property)
    (hlasts : m.world.Lasts judged m'.world)
    (hjudged : ∀ {x y enabled}, c.Owns m.world context x y → judged x enabled →
      enabled = (L.test c.binding.condition context 0 m.toScene m.state).1) : c.Evaluated L context m' := by
  obtain ⟨x, y, howns, henabled⟩ := h
  obtain ⟨y', howns', hsame | hnew⟩ := howns.lasts hlasts hread
  · exact ⟨x, y', howns', (hsame.trans henabled).trans (hreads _ _ _ _ hagrees).symm⟩
  · exact ⟨x, y', howns', (hjudged howns hnew).trans (hreads _ _ _ _ hagrees).symm⟩

/-- Nothing happens to an evaluated command that is not evaluated anew. -/
theorem Evaluated.congr {m m' : Machine κ σ} (h : c.Evaluated L context m)
    (hreads : L.TestReads c.binding.condition paths context) (hworld : m.world.Watches m'.world) :
    c.Evaluated L context m' := by
  have hlasts : m.world.Lasts (fun _ _ => False) m'.world := hworld.lasts
  exact h.keep hreads (fun _ _ => World.agrees_of_outline hworld.1 _ _) (World.read_congr hworld.1 _ _) hlasts
    fun _ hjudged => hjudged.elim

/-- Evaluating the property's command caches what is asked of it. -/
theorem Owns.performed {scene : Scene κ} {x : CommandId} {y : Command κ} (h : c.Owns scene.world context x y)
    {a : Action κ} (ha : a = .refresh false c.property ∨ a = .settle false c.property) (s : σ) :
    (L.perform scene s a context).world.commands[x]? = some { y with enabled := (L.canRun scene s x 0).1 } := by
  have hin : scene.world.commandIn context c.property false = some x := by
    simp [World.commandIn, h.held, h.made, h.plain]
  have hself : y.selfEvaluating = true := by
    simp [Command.selfEvaluating, h.plain, h.bound]
  have hmodified : ∀ f : Command κ → Command κ, (scene.world.modifyCommand x f).commands[x]? = some (f y) := by
    intro f
    simp [World.modifyCommand, Array.getElem?_modify, h.made]
  rcases ha with rfl | rfl
  · simp only [Language.perform, hin, Language.refresh, h.made, hself, if_true]
    exact hmodified _
  · simp only [Language.perform, hin, Language.settle, h.made, hself, if_true]
    exact hmodified _

end CommandRules

/-! ### A new command -/

namespace World

variable (g : World κ) (commands : Array (Command κ))

theorem agrees_commands (w : List Label) (v : Value) : g.Agrees { g with commands } w v := by
  have hitems : ∀ c, ({ g with commands } : World κ).itemsOf c = g.itemsOf c := fun _ => rfl
  refine agrees_of_same (fun s n => ?_) hitems w v
  cases s with
  | object o => exact g.read_commands commands o n
  | command c => rfl

end World

/-- The world with a new command for the context. -/
def World.withCommand (g : World κ) (binding : CommandBinding κ) (context : ObjectId) : World κ :=
  { g with commands := g.commands.push { takesArgument := binding.takesArgument, bound := some (binding, context) } }

theorem World.commands_set (g : World κ) (o : ObjectId) (p : String) (v : Value) :
    (g.set o p v).1.commands = g.commands := by
  unfold World.set
  split <;> rfl

/-- **Making a command** puts it in the property, evaluated in the world where it is new. -/
theorem CommandRules.owns_created {c : CommandRules κ} (hplain : c.binding.takesArgument = false) {scene : Scene κ}
    (hsane : scene.world.Sane) {context : ObjectId} (hcontext : scene.world.hasObject context = true) (s : σ) :
    ∃ y, c.Owns (L.perform scene s (.create c.binding c.property) context).world context scene.world.commands.size y ∧
      y.enabled = (L.canRun { scene with world := scene.world.withCommand c.binding context } s
        scene.world.commands.size 0).1 := by
  set made : Scene κ := { scene with world := scene.world.withCommand c.binding context } with hmade
  have htended : scene.world.Tended made.world := hsane.pushCommand rfl
  have hnew : made.world.commands[scene.world.commands.size]? =
      some { takesArgument := c.binding.takesArgument, bound := some (c.binding, context) } := by
    simp [hmade, World.withCommand]
  have hsettle : L.settle made s scene.world.commands.size = (made.world.modifyCommand scene.world.commands.size
      fun x => { x with enabled := (L.canRun made s scene.world.commands.size 0).1 },
        (L.canRun made s scene.world.commands.size 0).2) := by
    simp only [Language.settle, hnew, Command.selfEvaluating, hplain]
    rfl
  obtain ⟨hsettled, -, -, hsize⟩ := htended.sane.settle L s scene.world.commands.size
  have hworld : (L.perform scene s (.create c.binding c.property) context).world =
      ((L.settle made s scene.world.commands.size).1.set context c.property
        (.command scene.world.commands.size)).1 := rfl
  have hknown : (L.settle made s scene.world.commands.size).1.hasValue (.command scene.world.commands.size) = true := by
    simp only [World.hasValue, decide_eq_true_eq, hsize]
    exact (Array.getElem?_eq_some_iff.mp hnew).1
  rw [hworld]
  refine ⟨{ takesArgument := c.binding.takesArgument, bound := some (c.binding, context)
            enabled := (L.canRun made s scene.world.commands.size 0).1 }, ⟨?_, ?_, hplain, rfl⟩, rfl⟩
  · exact hsettled.sane.read_set _ (hsettled.known (v := .object context) (htended.known hcontext)) hknown
  · rw [World.commands_set, hsettle]
    simp [World.modifyCommand, Array.getElem?_modify, hnew]

/-- A new command does not concern an attachment in place. -/
theorem Stable.withCommand {g : World κ} {agenda : List (Task κ)} {missed : SubscriptionId → List ObjectId}
    (h : Stable g agenda missed) (binding : CommandBinding κ) (context : ObjectId) :
    Stable (g.withCommand binding context) agenda missed := by
  have htended : g.Tended (g.withCommand binding context) := h.grown.sane.pushCommand rfl
  exact h.retold (htended.retold h.grown)
    (fun s p hs => htended.memberValue h.grown.sane hs fun _ _ => rfl) fun _ _ => rfl

/-! ### Along a stride -/

namespace CommandRules

variable {c : CommandRules κ} {roster : Roster (Action κ)} {later : List (Machine κ σ)} {paths : List Path}

variable (c) in
/-- The attachment is in place, and the property holds a command of the binding. It is
evaluated, or to be evaluated by the rule `id`. -/
structure Tracks (L : Language κ σ) (id : ActionId) (site : Attachment) (plan : WatchPlan κ) (m : Machine κ σ) :
    Prop where
  stands : m.world.Stands site plan
  owned : ∃ x y, c.Owns m.world site.context x y
  evaluated : m.world.Due site (id, .refresh false c.property) m.agenda ∨ c.Evaluated L site.context m

/-- **Where the property's command is evaluated**, it has cached what its condition says, if
that changes nothing along the paths. -/
theorem Owns.evaluated_turn {g g' : World κ} {a : Action κ} {rest tasks : List (Task κ)} {s s' : σ} {context : ObjectId}
    {x : CommandId} {y : Command κ} (howns : c.Owns g context x y)
    (ha : a = .refresh false c.property ∨ a = .settle false c.property)
    (h : Stable g (.perform a context :: rest) fun _ => [])
    (hs : Strides L g s (.perform a context) rest g' tasks s')
    (halive : Scene.alive { world := g, agenda := .perform a context :: rest } context = true)
    (hreads : L.TestReads c.binding.condition paths context)
    (hagrees : ∀ p ∈ paths, g.Agrees g' p.word (.object context))
    (hread : g'.read context c.property = g.read context c.property) :
    c.Evaluated L context (machine g' (tasks ++ rest) s') := by
  obtain ⟨y', howns', -⟩ := howns.lasts (hs.lasts h) hread
  set scene : Scene κ := { world := g, agenda := .perform a context :: rest } with hscene
  have hmade : (L.perform scene s a context).world.commands[x]? = some { y with enabled := (L.canRun scene s x 0).1 } :=
    howns.performed ha s
  rw [hs.performed] at hmade
  have hy : y' = { y with enabled := (L.canRun scene s x 0).1 } := Option.some.inj (howns'.made.symm.trans hmade)
  refine ⟨x, y', howns', ?_⟩
  rw [hy, howns.canRun_eq halive]
  exact (hreads _ _ _ _ hagrees).symm

section

variable {g g' : World κ} {u : Task κ} {rest tasks : List (Task κ)} {s s' : σ} {context : ObjectId}
  (hforce : c.InForce L roster context later) (hmem : machine g (u :: rest) s ∈ later)
  (h : Stable g (u :: rest) fun _ => []) (hs : Strides L g s u rest g' tasks s')

include hforce h hs

/-- Where the command is made, the property holds it. -/
theorem InForce.created (hcontext : g.hasObject context = true) (hturn : u = c.creation context) :
    ∃ y, c.Owns g' context g.commands.size y ∧ y.enabled =
      (L.canRun { world := g.withCommand c.binding context, agenda := u :: rest } s g.commands.size 0).1 := by
  subst hturn
  set scene : Scene κ := { world := g, agenda := c.creation context :: rest } with hscene
  obtain ⟨y, howns, henabled⟩ := owns_created (L := L) hforce.plain (show scene.world.Sane from h.grown.sane) hcontext s
  have hworld : (L.perform scene s (.create c.binding c.property) context).world = g' :=
    congrArg Effect.world hs.performed
  rw [hworld] at howns
  exact ⟨y, howns, henabled⟩

include hmem

/-- **The property** holds a command of the binding from then on. -/
theorem InForce.owned_stride (hcontext : g.hasObject context = true)
    (howned : (∃ x y, c.Owns g context x y) ∨ u = c.creation context) : ∃ x y, c.Owns g' context x y := by
  by_cases hturn : u = c.creation context
  · obtain ⟨y, howns, -⟩ := hforce.created h hs hcontext hturn
    exact ⟨_, y, howns⟩
  · obtain ⟨x, y, howns⟩ := howned.resolve_right hturn
    obtain ⟨y', howns', -⟩ := howns.lasts (hs.lasts h) (hs.read_alone h (hforce.alone _ hmem) hturn)
    exact ⟨x, y', howns'⟩

end

section

variable {g g' : World κ} {u : Task κ} {rest tasks : List (Task κ)} {s s' : σ} {site : Attachment} {plan : WatchPlan κ}
  (hforce : c.InForce L roster site.context later) (hmem : machine g (u :: rest) s ∈ later)
  (h : Stable g (u :: rest) fun _ => []) (hs : Strides L g s u rest g' tasks s')

include hforce h hs

/-- A command that is made for an attachment in place is evaluated, if making it changes
nothing along the paths. -/
theorem InForce.evaluated_created (hstands : g.Stands site plan)
    (hreads : L.TestReads c.binding.condition paths site.context)
    (hagrees : ∀ p ∈ paths, g.Agrees g' p.word (.object site.context)) (hturn : u = c.creation site.context) :
    c.Evaluated L site.context (machine g' (tasks ++ rest) s') := by
  have hcontext : g.hasObject site.context = true := hstands.hasObject h
  obtain ⟨y, howns, henabled⟩ := hforce.created h hs hcontext hturn
  -- in the world where the command is new, everything is read as before
  have hmade : (g.withCommand c.binding site.context).Stands site plan := ⟨hstands.root, hstands.top⟩
  have halive := (h.withCommand c.binding site.context).alive_context hmade (u :: rest)
  have hsame : ∀ p ∈ paths, g.Agrees (g.withCommand c.binding site.context) p.word (.object site.context) :=
    fun p _ => g.agrees_commands _ p.word _
  have hnew : (g.withCommand c.binding site.context).commands[g.commands.size]? =
      some { takesArgument := c.binding.takesArgument, bound := some (c.binding, site.context) } := by
    simp [World.withCommand]
  refine ⟨_, y, howns, henabled.trans ?_⟩
  calc (L.canRun { world := g.withCommand c.binding site.context, agenda := u :: rest } s g.commands.size 0).1
      = (L.test c.binding.condition site.context 0
          { world := g.withCommand c.binding site.context, agenda := u :: rest } s).1 := by
        rw [L.canRun_of_bound hnew rfl halive]
    _ = (L.test c.binding.condition site.context 0 { world := g, agenda := u :: rest } s).1 := hreads _ _ _ _ hsame
    _ = (L.test c.binding.condition site.context 0 { world := g', agenda := tasks ++ rest } s').1 :=
        (hreads _ _ _ _ hagrees).symm

include hmem

/-- **After every stride** that leaves the tree attached, the command is evaluated or to
be evaluated. -/
theorem InForce.tracks_stride {id : ActionId} (hpaths : pathsOf c.dependencies = .ok paths)
    (hserves : ∀ p ∈ paths, (Watcher.object plan site none).Serves (id, .refresh false c.property) p.word)
    (hplan : plan.Cumulative) (hfree : ∀ x ∈ g.collections, x.free = false)
    (h' : Stable g' (tasks ++ rest) fun _ => []) (hroot : g'.treeRoot site.tree = some site.top)
    (htracks : c.Tracks L id site plan (machine g (u :: rest) s)) :
    c.Tracks L id site plan (machine g' (tasks ++ rest) s') := by
  obtain ⟨hstands, howned, htracks⟩ := htracks
  refine ⟨hs.stands h hstands hplan hroot h', hforce.owned_stride hmem h hs (hstands.hasObject h) (Or.inl howned), ?_⟩
  rcases hs.due_or_agrees h hfree hstands hplan hroot (id, .refresh false c.property) with hdue | ⟨hdue, hagrees⟩
  · exact Or.inl hdue
  · have hreads := hforce.reads paths hpaths
    have hagrees' : ∀ p ∈ paths, g.Agrees g' p.word (.object site.context) := fun p hp => hagrees _ (hserves p hp)
    by_cases hmade : u = c.creation site.context
    · exact Or.inr (hforce.evaluated_created h hs hstands hreads hagrees' hmade)
    · have hread : g'.read site.context c.property = g.read site.context c.property :=
        hs.read_alone h (hforce.alone _ hmem) hmade
      have halive : Scene.alive { world := g, agenda := u :: rest } site.context = true := h.alive_context hstands _
      rcases htracks with hbefore | hevaluated
      · obtain ⟨x, y, howns⟩ := howned
        obtain rfl := hdue hbefore
        exact Or.inr (howns.evaluated_turn (Or.inl rfl) h hs halive hreads hagrees' hread)
      · refine Or.inr (hevaluated.keep hreads hagrees' hread (hs.lasts h) fun howns hjudged => hjudged.trans ?_)
        exact congrArg Prod.fst (howns.canRun_eq halive s)

end

end CommandRules

end LiveRules
