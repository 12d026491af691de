/-
# What client code sees

Client code sees objects, collections and commands, who is alive, and of a tree whether
it is attached and how many subscriptions it holds. It sees no watcher and no plan, so
in a world with other watchers and trees it does the same, and so do actions and
requests.

Key definitions: `World.refit`, `Scene.Alike`, `Language.Discreet`.
Key theorems: `World.grant_refit`, `Language.Discreet.perform`.
-/
import LiveRules.Proofs.Derived.Forwarding
import LiveRules.Proofs.Disposal.Tops

namespace LiveRules

variable {κ σ : Type} {L : Language κ σ}

namespace World

/-! ### Other watchers in the same world -/

/-- The world with other watchers and trees. -/
def refit (g : World κ) (watchers : Array (Watcher κ)) (trees : Array (Tree κ)) : World κ :=
  { g with watchers, trees }

section

variable (g : World κ) (ws : Array (Watcher κ)) (ts : Array (Tree κ))

theorem outline_refit : (g.refit ws ts).outline = g.outline := rfl

theorem holder_refit (o : ObjectId) (p : String) : (g.refit ws ts).holder o p = g.holder o p := by
  rw [← holder_outline, outline_refit, holder_outline]

theorem modifyNotifier_refit (s : Subject) (f : Notifier (Listener κ) → Notifier (Listener κ)) :
    (g.refit ws ts).modifyNotifier s f = (g.modifyNotifier s f).refit ws ts := by
  cases s <;> rfl

theorem enterListener_refit (s : Subject) (p : String) (l : Listener κ) :
    (g.refit ws ts).enterListener s p l = (g.enterListener s p l).refit ws ts := by
  cases s <;> rfl

theorem unsubscribe_refit (s : Subject) (id : SubscriptionId) :
    (g.refit ws ts).unsubscribe s id = (g.unsubscribe s id).refit ws ts := by
  unfold unsubscribe
  rw [reach_congr (outline_refit g ws ts)]
  generalize g.reach s = ss
  induction ss generalizing g with
  | nil => rfl
  | cons s ss ih => rw [List.foldl_cons, List.foldl_cons, modifyNotifier_refit, ih]

theorem store_refit (o : ObjectId) (p : String) (v : Value) :
    (g.refit ws ts).store o p v = (g.store o p v).refit ws ts := by
  unfold store
  rw [holder_refit]
  rfl

theorem round_refit (s : Subject) (p : String) : (g.refit ws ts).round s p = g.round s p := by
  cases s <;> rfl

theorem write_refit (o : ObjectId) (p : String) (v : Value) :
    (g.refit ws ts).write o p v = ((g.write o p v).1.refit ws ts, (g.write o p v).2) := by
  simp only [write, store_refit, holder_refit, round_refit]

theorem set_refit (o : ObjectId) (p : String) (v : Value) :
    (g.refit ws ts).set o p v = ((g.set o p v).1.refit ws ts, (g.set o p v).2) := by
  unfold set
  rw [read_congr (outline_refit g ws ts), write_refit]
  split <;> rfl

theorem ownedByCode_refit (s : Subject) (id : SubscriptionId) :
    (g.refit ws ts).ownedByCode s id = g.ownedByCode s id := by
  have hnotifier : (g.refit ws ts).notifierOf = g.notifierOf := by
    funext s
    cases s <;> rfl
  unfold ownedByCode
  rw [reach_congr (outline_refit g ws ts), hnotifier]

/-- What is asked for is granted alike, unless it makes a tree or touches one. -/
theorem grant_refit (rest : List (Task κ)) {r : Request κ} (hr : r.plants = false) (hnew : ∀ plan, r ≠ .newTree plan) :
    (g.refit ws ts).grant rest r = ((g.grant rest r).1.refit ws ts, (g.grant rest r).2) := by
  have hobject : (g.refit ws ts).hasObject = g.hasObject := rfl
  have hvalue : (g.refit ws ts).hasValue = g.hasValue := by
    funext v
    exact hasValue_congr (outline_refit g ws ts) v
  have hlist : (g.refit ws ts).listOf = g.listOf := rfl
  cases r <;> simp only [grant]
  case write =>
    rw [hobject, hvalue, write_refit]
    split <;> rfl
  case notify => rw [holder_refit, round_refit]
  case unsubscribe =>
    rw [ownedByCode_refit, unsubscribe_refit]
    split <;> rfl
  case newTree plan => exact absurd rfl (hnew plan)
  case attach | dispose | drop => cases hr
  case newObject | newCollection | nameCommand | subscribe | subscribeChanges =>
    simp only [hobject, hvalue]
    split <;> rfl
  case push | insert =>
    simp only [hobject, hlist]
    split
    · split <;> rfl
    · rfl
  case remove =>
    simp only [hlist]
    split
    · split <;> rfl
    · rfl
  case clear =>
    simp only [hlist]
    split
    · split <;> rfl
    · rfl
  case report c items change =>
    simp only [hobject]
    have hcollections : (g.refit ws ts).collections = g.collections := rfl
    simp only [hcollections]
    split
    · split <;> rfl
    · rfl
  case unsubscribeChanges c id =>
    have howned : (g.refit ws ts).changeOwnedByCode c id = g.changeOwnedByCode c id := rfl
    simp only [howned]
    split <;> rfl
  all_goals rfl

end

end World

/-! ### Scenes that look alike -/

/-- Client code cannot tell the scenes apart. -/
structure Scene.Alike (scene scene' : Scene κ) : Prop where
  world : scene'.world = scene.world.refit scene'.world.watchers scene'.world.trees
  alive : ∀ o, scene'.alive o = scene.alive o
  trees : scene'.world.trees.size = scene.world.trees.size
  attached : ∀ t, scene'.world.isAttached t = scene.world.isAttached t
  count : ∀ t, scene'.world.subscriptionCount t = scene.world.subscriptionCount t

theorem Scene.Alike.outline {scene scene' : Scene κ} (h : scene.Alike scene') :
    scene'.world.outline = scene.world.outline := by
  rw [h.world]
  exact World.outline_refit ..

theorem Scene.Alike.commands {scene scene' : Scene κ} (h : scene.Alike scene') :
    scene'.world.commands = scene.world.commands := by
  rw [h.world]
  rfl

/-- **Client code that is discreet** does the same in scenes it cannot tell apart. -/
structure Language.Discreet (L : Language κ σ) : Prop where
  run : ∀ {scene scene'}, scene.Alike scene' → ∀ k signal s, L.run k signal scene' s = L.run k signal scene s
  value : ∀ {scene scene'}, scene.Alike scene' → ∀ k o s, L.value k o scene' s = L.value k o scene s
  test : ∀ {scene scene'}, scene.Alike scene' → ∀ k o n s, L.test k o n scene' s = L.test k o n scene s

namespace World

/-- Who survives depends on what things hold. -/
theorem survivors_congr {g g' : World κ} (h : ∀ v, g'.valueHolds v = g.valueHolds v) (roots : List Value) (n : Nat)
    (vs : List Value) : g'.survivors roots n vs = g.survivors roots n vs := by
  have hsupported : ∀ vs, g'.supported roots vs = g.supported roots vs := by
    intro vs
    have hinside : vs.flatMap g'.valueHolds = vs.flatMap g.valueHolds := by rw [funext h]
    simp only [supported, hinside]
  induction n generalizing vs with
  | zero => rfl
  | succ n ih => simp only [survivors, hsupported, ih]

variable (g : World κ) (commands : Array (Command κ))

theorem nodes_commands : ({ g with commands } : World κ).nodes = g.nodes := by
  have hwatchers : ({ g with commands } : World κ).watchers = g.watchers := rfl
  exact funext (nodes_congr hwatchers)

/-- Commands hold nothing. -/
theorem alive_commands (agenda : List (Task κ)) (o : ObjectId) :
    Scene.alive { world := { g with commands }, agenda } o = Scene.alive { world := g, agenda } o := by
  have hroots : ∀ held, ({ g with commands } : World κ).rootValues held = g.rootValues held := by
    intro held
    simp only [rootValues, planted, heldNodes, nodes_commands]
    rfl
  have hholds : ∀ v, ({ g with commands } : World κ).valueHolds v = g.valueHolds v := fun v => rfl
  simp only [Scene.alive, isHeld, Scene.held, hroots, survivors_congr hholds]
  rfl

theorem subscriptionCount_commands (t : TreeId) :
    ({ g with commands } : World κ).subscriptionCount t = g.subscriptionCount t := by
  simp only [subscriptionCount, nodes_commands]
  rfl

end World

/-- Another command changes nothing of it. -/
theorem Scene.Alike.withCommands {scene scene' : Scene κ} (h : scene.Alike scene') (commands : Array (Command κ)) :
    Scene.Alike { scene with world := { scene.world with commands } }
      { scene' with world := { scene'.world with commands } } where
  world := congrArg (fun g : World κ => { g with commands }) h.world
  alive o := by
    exact (World.alive_commands scene'.world commands scene'.agenda o).trans
      ((h.alive o).trans (World.alive_commands scene.world commands scene.agenda o).symm)
  trees := h.trees
  attached := h.attached
  count t := by
    exact (World.subscriptionCount_commands scene'.world commands t).trans
      ((h.count t).trans (World.subscriptionCount_commands scene.world commands t).symm)

/-! ### Actions -/

namespace Language.Discreet

variable (hL : L.Discreet) {scene scene' : Scene κ} (h : scene.Alike scene') (s : σ)

include hL h

theorem canRun (c : CommandId) (argument : Int64) : L.canRun scene' s c argument = L.canRun scene s c argument := by
  have hcommands := h.commands
  unfold Language.canRun
  rw [hcommands]
  split
  · rfl
  · rw [h.alive, hL.test h]

theorem settle (c : CommandId) : L.settle scene' s c =
    ((L.settle scene s c).1.refit scene'.world.watchers scene'.world.trees, (L.settle scene s c).2) := by
  have hcommands := h.commands
  unfold Language.settle
  simp only [hcommands, hL.canRun h]
  rw [h.world]
  split
  · split <;> rfl
  · rfl

theorem refresh (c : CommandId) : L.refresh scene' s c =
    { L.refresh scene s c with
      world := (L.refresh scene s c).world.refit scene'.world.watchers scene'.world.trees } := by
  have hcommands := h.commands
  have hround : scene'.world.round (.command c) canExecute = scene.world.round (.command c) canExecute := by
    rw [h.world, World.round_refit]
  unfold Language.refresh
  simp only [hcommands, hround, hL.canRun h]
  rw [h.world]
  split
  · split <;> rfl
  · rfl

/-- **Actions** do the same in scenes that look alike. -/
theorem perform (a : Action κ) (context : ObjectId) : L.perform scene' s a context =
    { L.perform scene s a context with
      world := (L.perform scene s a context).world.refit scene'.world.watchers scene'.world.trees } := by
  have hread : scene'.world.read = scene.world.read := by
    funext o p
    exact World.read_congr h.outline o p
  have hcommands := h.commands
  have hcommandIn : scene'.world.commandIn = scene.world.commandIn := by
    funext o p takesArgument
    simp only [World.commandIn, hread, hcommands]
  cases a with
  | code k =>
    unfold Language.perform
    rw [← h.world]
  | assign source target =>
    have hvalue : scene'.world.hasValue = scene.world.hasValue := funext (World.hasValue_congr h.outline)
    have hset : ∀ v, scene'.world.set context target v =
        ((scene.world.set context target v).1.refit scene'.world.watchers scene'.world.trees,
          (scene.world.set context target v).2) := by
      intro v
      conv_lhs => rw [h.world]
      exact World.set_refit ..
    unfold Language.perform
    simp only [hL.value h, hvalue, hset]
    split
    · rfl
    · simp only [← h.world]
  | create binding target =>
    have hmade := h.withCommands (scene.world.commands.push
      { takesArgument := binding.takesArgument, bound := some (binding, context) })
    unfold Language.perform
    simp only [hcommands, hL.settle hmade, World.set_refit]
  | refresh takesArgument target =>
    unfold Language.perform
    simp only [hcommandIn]
    split
    · exact hL.refresh h s _
    · simp only [← h.world]
  | settle takesArgument target =>
    unfold Language.perform
    simp only [hcommandIn]
    split
    · simp only [hL.settle h]
    · simp only [← h.world]
  | onBase inner =>
    have hbase : scene'.world.baseOf context = scene.world.baseOf context := World.baseOf_congr h.outline context
    unfold Language.perform
    simp only [hbase, ← h.world]

end Language.Discreet
end LiveRules
