/-
# What lasts

Things are made and never unmade. Whatever step the machine takes, the objects,
collections, commands and trees that were there are there afterwards, and some of what
they were made with stays: what an object is based on, whether a collection is free,
what a command does and for whom, and the plan of a tree. What a command has cached
changes only when it is evaluated.

Key definitions: `Keeps`, `World.Lasts`.
Key theorems: `Language.step_lasts`, `Resumes.outlives`.
-/
import LiveRules.Proofs.Machine.Strides

namespace LiveRules

variable {κ σ : Type} {L : Language κ σ}

/-! ### Places that keep what they hold -/

/-- Whatever is at a place of `a` is at that place of `a'` too, up to `r`. -/
def Keeps {α : Type} (r : Nat → α → α → Prop) (a a' : Array α) : Prop :=
  ∀ (i : Nat) x, a[i]? = some x → ∃ x', a'[i]? = some x' ∧ r i x x'

namespace Keeps

variable {α : Type} {r : Nat → α → α → Prop} {a a' a'' : Array α}

theorem refl (hr : ∀ i x, r i x x) (a : Array α) : Keeps r a a :=
  fun i x hx => ⟨x, hx, hr i x⟩

theorem trans (hr : ∀ {i x x' x''}, r i x x' → r i x' x'' → r i x x'') (h : Keeps r a a') (h' : Keeps r a' a'') :
    Keeps r a a'' := by
  intro i x hx
  obtain ⟨x', hx', hr'⟩ := h i x hx
  obtain ⟨x'', hx'', hr''⟩ := h' i x' hx'
  exact ⟨x'', hx'', hr hr' hr''⟩

theorem push (hr : ∀ i x, r i x x) (a : Array α) (y : α) : Keeps r a (a.push y) := by
  intro i x hx
  refine ⟨x, ?_, hr i x⟩
  rw [Array.getElem?_push, if_neg (ne_of_lt (Array.getElem?_eq_some_iff.mp hx).1), hx]

theorem modify (hr : ∀ i x, r i x x) {f : α → α} {k : Nat} (hf : ∀ x, r k x (f x)) (a : Array α) :
    Keeps r a (a.modify k f) := by
  intro i x hx
  rw [Array.getElem?_modify, hx]
  by_cases hik : k = i
  · subst hik
    exact ⟨f x, by simp, hf x⟩
  · exact ⟨x, by simp [hik], hr i x⟩

/-- What is new may still change. -/
theorem modify_new (h : Keeps r a a') {k : Nat} (hk : a.size ≤ k) (f : α → α) : Keeps r a (a'.modify k f) := by
  intro i x hx
  obtain ⟨x', hx', hr⟩ := h i x hx
  have hik : k ≠ i := (lt_of_lt_of_le (Array.getElem?_eq_some_iff.mp hx).1 hk).ne'
  exact ⟨x', by simp [Array.getElem?_modify, hik, hx'], hr⟩

/-- What `f` shows of the things is the same. -/
theorem of_map {β : Type} {f : α → β} (h : a'.map f = a.map f) (hr : ∀ {i x x'}, f x' = f x → r i x x') :
    Keeps r a a' := by
  intro i x hx
  have hmap := congrArg (·[i]?) h
  simp only [Array.getElem?_map, hx, Option.map_some] at hmap
  obtain ⟨x', hx', hf⟩ := Option.map_eq_some_iff.mp hmap
  exact ⟨x', hx', hr hf⟩

end Keeps

/-- `f` shows the same of both things. -/
def SameBy {α β : Type} (f : α → β) (_ : Nat) (x x' : α) : Prop :=
  f x' = f x

theorem SameBy.refl {α β : Type} (f : α → β) (i : Nat) (x : α) : SameBy f i x x :=
  rfl

theorem SameBy.trans {α β : Type} {f : α → β} {i : Nat} {x x' x'' : α} (h : SameBy f i x x') (h' : SameBy f i x' x'') :
    SameBy f i x x'' :=
  Eq.trans h' h

/-- The command does the same for the same context, and has cached what it had or what
`judged` allows. -/
structure Command.Lasts (judged : CommandId → Bool → Prop) (c : CommandId) (x x' : Command κ) : Prop where
  takesArgument : x'.takesArgument = x.takesArgument
  bound : x'.bound = x.bound
  enabled : x'.enabled = x.enabled ∨ judged c x'.enabled

theorem Command.Lasts.refl (judged : CommandId → Bool → Prop) (c : CommandId) (x : Command κ) : x.Lasts judged c x :=
  ⟨rfl, rfl, Or.inl rfl⟩

theorem Command.Lasts.trans {judged : CommandId → Bool → Prop} {c : CommandId} {x x' x'' : Command κ}
    (h : x.Lasts judged c x') (h' : x'.Lasts judged c x'') : x.Lasts judged c x'' := by
  refine ⟨h'.takesArgument.trans h.takesArgument, h'.bound.trans h.bound, ?_⟩
  rcases h'.enabled with heq | hjudged
  · rw [heq]
    exact h.enabled
  · exact Or.inr hjudged

namespace World

/-- See the head of this file. -/
structure Lasts (judged : CommandId → Bool → Prop) (g g' : World κ) : Prop where
  objects : Keeps (SameBy Object.base) g.objects g'.objects
  collections : Keeps (SameBy Collection.free) g.collections g'.collections
  commands : Keeps (Command.Lasts judged) g.commands g'.commands
  trees : Keeps (SameBy Tree.plan) g.trees g'.trees

section

variable {judged : CommandId → Bool → Prop}

theorem Lasts.refl (g : World κ) : g.Lasts judged g :=
  ⟨.refl (SameBy.refl _) _, .refl (SameBy.refl _) _, .refl (Command.Lasts.refl judged) _, .refl (SameBy.refl _) _⟩

theorem Lasts.trans {g₁ g₂ g₃ : World κ} (h : g₁.Lasts judged g₂) (h' : g₂.Lasts judged g₃) : g₁.Lasts judged g₃ :=
  ⟨h.objects.trans SameBy.trans h'.objects, h.collections.trans SameBy.trans h'.collections,
    h.commands.trans Command.Lasts.trans h'.commands, h.trees.trans SameBy.trans h'.trees⟩

theorem Lasts.mono {judged' : CommandId → Bool → Prop} {g g' : World κ} (h : g.Lasts judged g')
    (hsub : ∀ c b, judged c b → judged' c b) : g.Lasts judged' g' := by
  refine ⟨h.objects, h.collections, fun c x hx => ?_, h.trees⟩
  obtain ⟨x', hx', hlasts⟩ := h.commands c x hx
  exact ⟨x', hx', hlasts.takesArgument, hlasts.bound, hlasts.enabled.imp id (hsub c _)⟩

theorem Lasts.hasObject {g g' : World κ} (h : g.Lasts judged g') {o : ObjectId} (ho : g.hasObject o = true) :
    g'.hasObject o = true := by
  simp only [World.hasObject, decide_eq_true_eq] at ho ⊢
  obtain ⟨x', hx', -⟩ := h.objects o _ (Array.getElem?_eq_getElem ho)
  exact (Array.getElem?_eq_some_iff.mp hx').1

/-- If no collection is free afterwards, none was before. -/
theorem Lasts.unfree {g g' : World κ} (h : g.Lasts judged g') (hfree : ∀ x ∈ g'.collections, x.free = false) :
    ∀ x ∈ g.collections, x.free = false := by
  intro x hx
  obtain ⟨c, hc⟩ := Array.getElem?_of_mem hx
  obtain ⟨x', hx', heq⟩ := h.collections c x hc
  rw [← heq]
  exact hfree x' (Array.mem_of_getElem? hx')

/-- Nothing but watchers, listeners and the tops of trees changes. -/
def Watches (g g' : World κ) : Prop :=
  g'.outline = g.outline ∧ g'.trees.map (·.plan) = g.trees.map (·.plan)

theorem Watches.refl (g : World κ) : g.Watches g :=
  ⟨rfl, rfl⟩

theorem Watches.trans {g₁ g₂ g₃ : World κ} (h : g₁.Watches g₂) (h' : g₂.Watches g₃) : g₁.Watches g₃ :=
  ⟨h'.1.trans h.1, h'.2.trans h.2⟩

theorem Watches.lasts {g g' : World κ} (h : g.Watches g') : g.Lasts judged g' := by
  obtain ⟨houtline, htrees⟩ := h
  have hobjects := congrArg World.objects houtline
  have hcollections := congrArg World.collections houtline
  have hcommands := congrArg World.commands houtline
  refine ⟨.of_map hobjects fun {_ x x'} heq => ?_, .of_map hcollections fun {_ x x'} heq => ?_,
    .of_map hcommands fun {_ x x'} heq => ?_, .of_map htrees fun heq => heq⟩
  · exact (congrArg Object.base heq :)
  · exact (congrArg Collection.free heq :)
  · exact ⟨(congrArg Command.takesArgument heq :), (congrArg Command.bound heq :),
      Or.inl (congrArg Command.enabled heq :)⟩

end

/-! ### Steps that watch -/

theorem unbind_watches (g : World κ) (w : WatcherId) : g.Watches (g.unbind w) :=
  ⟨g.unbind_outline w, congrArg _ (g.unbind_trees w)⟩

theorem foldl_unbind_watches (ws : List WatcherId) (g : World κ) : g.Watches (ws.foldl unbind g) := by
  induction ws generalizing g with
  | nil => exact .refl g
  | cons w ws ih => exact (g.unbind_watches w).trans (ih _)

theorem modifyTree_watches (g : World κ) (t : TreeId) {f : Tree κ → Tree κ} (hf : ∀ x, (f x).plan = x.plan) :
    g.Watches (g.modifyTree t f) :=
  ⟨g.modifyTree_outline t f, map_modify_eq g.trees t f _ hf⟩

theorem dispose_watches (g : World κ) (t : TreeId) : g.Watches (g.dispose t) := by
  unfold dispose
  split
  · have hmodified : g.Watches (g.modifyTree t fun x => { x with root := none }) := g.modifyTree_watches t fun _ => rfl
    exact hmodified.trans (unbind_watches _ _)
  · exact .refl g

theorem bury_watches (scene : Scene κ) (t : TreeId) : scene.world.Watches (scene.bury t) := by
  rcases Scene.bury_cases scene t with hbury | hbury
  · exact hbury ▸ scene.world.dispose_watches t
  · exact hbury ▸ .refl _

theorem addWatcher_watches (g : World κ) (x : Watcher κ) : g.Watches (g.addWatcher x) :=
  ⟨g.addWatcher_outline x, rfl⟩

theorem enterListener_watches (g : World κ) (s : Subject) (p : String) (l : Listener κ) :
    g.Watches (g.enterListener s p l) :=
  ⟨g.enterListener_outline s p l, congrArg _ (g.enterListener_trees s p l)⟩

theorem enterChangeListener_watches (g : World κ) (c : CollectionId) (l : ChangeListener κ) :
    g.Watches (g.enterChangeListener c l) :=
  ⟨g.enterChangeListener_outline c l, rfl⟩

theorem bindCollection_watches (g : World κ) (w : WatcherId) (b : BoundCollection) : g.Watches (g.bindCollection w b) :=
  ⟨g.bindCollection_outline w b, rfl⟩

theorem bind_watches (g : World κ) (w : WatcherId) (v : Value) : g.Watches (g.bind w v).1 := by
  have hunbind := g.unbind_watches w
  unfold World.bind
  simp only
  split
  · split <;> exact hunbind
  · split
    · exact hunbind.trans (enterChangeListener_watches _ _ _)
    · exact hunbind
  · exact hunbind

theorem bindMembers_watches (g : World κ) (b : Binding κ) : g.Watches (g.bindMembers b).1 := by
  unfold World.bindMembers
  simp only
  split
  · exact ⟨g.bindObject_outline _ _, rfl⟩
  all_goals exact .refl g

theorem bindChild_watches (g : World κ) (b : Binding κ) (id : SubscriptionId) : g.Watches (g.bindChild b id).1 := by
  unfold World.bindChild
  simp only
  split
  · exact .refl g
  · exact .refl g
  all_goals exact g.addWatcher_watches _

theorem enrol_watches (g : World κ) (e : Enrolment κ) : g.Watches (g.enrol e).1 := by
  unfold World.enrol
  split
  · exact g.addWatcher_watches _
  · split
    · exact g.bindCollection_watches _ _
    · split
      · exact g.bindCollection_watches _ _
      · exact foldl_unbind_watches _ g

theorem register_watches (g : World κ) (s : Subject) (p : String) (l : Listener κ) (r : Receiver κ) :
    g.Watches (g.register s p l r).1 := by
  have hhere : g.Watches ((g.enterListener s p l).answer g.nextSubscription r).1 := by
    cases r with
    | code k => exact g.enterListener_watches s p l
    | binding b => exact (g.enterListener_watches s p l).trans (bindChild_watches _ b _)
  unfold World.register
  simp only
  split
  · split
    · split
      · exact hhere
      · exact .refl g
    · exact hhere
  · exact hhere

theorem deliverChange_watches (scene : Scene κ) (c : CollectionId) (id : SubscriptionId) (l : ChangeListener κ)
    (change : Change) : scene.world.Watches (scene.deliverChange c id l change).1 := by
  unfold Scene.deliverChange
  simp only
  split
  · split
    · exact .refl _
    · split
      · unfold World.membershipChanged
        split
        · exact (bindCollection_watches _ _ _).trans (foldl_unbind_watches _ _)
        · exact .refl _
      · exact .refl _
  · exact .refl _

theorem unsubscribe_watches (g : World κ) (s : Subject) (id : SubscriptionId) : g.Watches (g.unsubscribe s id) :=
  ⟨g.unsubscribe_outline s id, congrArg _ (g.unsubscribe_watchers s id).2⟩

theorem unsubscribeChanges_watches (g : World κ) (c : CollectionId) (id : SubscriptionId) :
    g.Watches (g.unsubscribeChanges c id) :=
  ⟨g.unsubscribeChanges_outline c id, rfl⟩

theorem attach_watches (g : World κ) (t : TreeId) (context : ObjectId) : g.Watches (g.attach t context).1 := by
  unfold World.attach
  simp only
  split
  · exact (g.dispose_watches t).trans (addWatcher_watches _ _)
  · exact g.dispose_watches t

theorem giveUp_watches (g : World κ) (t : TreeId) : g.Watches (g.modifyTree t fun x => { x with dropped := true }) :=
  g.modifyTree_watches t fun _ => rfl

/-- Attaching a tree and taking one down. -/
theorem grant_watches (g : World κ) (rest : List (Task κ)) {r : Request κ} (hr : r.plants = true) :
    g.Watches (g.grant rest r).1 := by
  cases r
  case attach t context =>
    simp only [World.grant]
    split
    · exact g.attach_watches t context
    · exact .refl g
  case dispose t => exact g.dispose_watches t
  case drop t =>
    exact (g.giveUp_watches t).trans (bury_watches
      { world := g.modifyTree t fun x => { x with dropped := true }, agenda := rest } t)
  all_goals cases hr

/-! ### Steps that make and change things -/

section

variable {judged : CommandId → Bool → Prop}

theorem Lasts.named {g g' : World κ} (h : g.Lasts judged g') (objectNames : Table String ObjectId)
    (collectionNames : Table String CollectionId) (commandNames : Table String CommandId) :
    g.Lasts judged { g' with objectNames, collectionNames, commandNames } :=
  ⟨h.objects, h.collections, h.commands, h.trees⟩

theorem lasts_pushObject (g : World κ) (x : Object κ) : g.Lasts judged { g with objects := g.objects.push x } :=
  { Lasts.refl g with objects := .push (SameBy.refl _) _ x }

theorem lasts_pushCollection (g : World κ) (x : Collection κ) :
    g.Lasts judged { g with collections := g.collections.push x } :=
  { Lasts.refl g with collections := .push (SameBy.refl _) _ x }

theorem lasts_pushCommand (g : World κ) (x : Command κ) : g.Lasts judged { g with commands := g.commands.push x } :=
  { (Lasts.refl g : g.Lasts judged g) with commands := .push (Command.Lasts.refl judged) _ x }

theorem lasts_modifyObject (g : World κ) (o : ObjectId) {f : Object κ → Object κ} (hf : ∀ x, (f x).base = x.base) :
    g.Lasts judged (g.modifyObject o f) :=
  { Lasts.refl g with objects := .modify (SameBy.refl _) hf _ }

theorem lasts_modifyCollection (g : World κ) (c : CollectionId) {f : Collection κ → Collection κ}
    (hf : ∀ x, (f x).free = x.free) : g.Lasts judged (g.modifyCollection c f) :=
  { Lasts.refl g with collections := .modify (SameBy.refl _) hf _ }

theorem lasts_write (g : World κ) (o : ObjectId) (p : String) (v : Value) : g.Lasts judged (g.write o p v).1 :=
  g.lasts_modifyObject _ fun _ => rfl

theorem lasts_set (g : World κ) (o : ObjectId) (p : String) (v : Value) : g.Lasts judged (g.set o p v).1 := by
  unfold World.set
  split
  · exact .refl g
  · exact g.lasts_write o p v

theorem lasts_changeItems (g : World κ) (c : CollectionId) (items : List ObjectId) (change : Change) :
    g.Lasts judged (g.changeItems c items change).1 :=
  g.lasts_modifyCollection c fun _ => rfl

theorem lasts_subscribe (g : World κ) (s : Subject) (p : String) (l : Listener κ) (r : Receiver κ) :
    g.Lasts judged (g.subscribe s p l r).1 := by
  unfold World.subscribe
  split
  · split
    · rename_i hhook
      unfold takeHook at hhook
      simp only [Option.bind_eq_bind, Option.bind_eq_some_iff, Option.pure_def, Option.some.injEq,
        Prod.mk.injEq] at hhook
      obtain ⟨x, -, i, -, e, -, -, rfl⟩ := hhook
      exact g.lasts_modifyObject _ fun _ => rfl
    · exact .refl g
  · exact .refl g

theorem lasts_grant (g : World κ) (rest : List (Task κ)) (r : Request κ) : g.Lasts judged (g.grant rest r).1 := by
  have hsame : g.Lasts judged g := .refl g
  have hedit : ∀ {c}, r.edits = some c → g.Lasts judged (g.grant rest r).1 := by
    intro c hc
    rcases g.grant_edit_cases hc rest with heq | ⟨items, change, -, -, heq⟩ <;> rw [heq]
    · exact hsame
    · exact g.lasts_changeItems _ _ _
  cases r
  case push | insert | remove | clear => exact hedit rfl
  case attach | dispose | drop => exact (g.grant_watches rest rfl).lasts
  all_goals simp only [World.grant]
  case newObject =>
    split
    · exact (g.lasts_pushObject _).named _ _ _
    · exact hsame
  case newCollection =>
    split
    · exact (g.lasts_pushCollection _).named _ _ _
    · exact hsame
  case newCommand => exact (g.lasts_pushCommand _).named _ _ _
  case nameCommand =>
    split
    · exact hsame.named _ _ _
    · exact hsame
  case forgetObject => exact hsame.named _ _ _
  case forgetCollection => exact hsame.named _ _ _
  case write =>
    split
    · exact g.lasts_write _ _ _
    · exact hsame
  case notify => exact hsame
  case hook => exact g.lasts_modifyObject _ fun _ => rfl
  case subscribe => split <;> exact hsame
  case unsubscribe s id =>
    split
    · exact (g.unsubscribe_watches s id).lasts
    · exact hsame
  case subscribeChanges =>
    split
    · exact (g.enterChangeListener_watches _ _).lasts
    · exact hsame
  case unsubscribeChanges c id =>
    split
    · exact (g.unsubscribeChanges_watches c id).lasts
    · exact hsame
  case report =>
    split
    · split
      · exact g.lasts_changeItems _ _ _
      · exact hsame
    · exact hsame
  case perform => exact hsame
  case newTree => exact { hsame with trees := .push (SameBy.refl _) _ _ }
  case call => exact hsame
  case hold => exact hsame

end

end World

/-! ### Every step -/

/-- What the evaluation of a command says in a scene. -/
def Language.judges (L : Language κ σ) (scene : Scene κ) (s : σ) (c : CommandId) (enabled : Bool) : Prop :=
  enabled = (L.canRun scene s c 0).1

theorem Language.lasts_enable (L : Language κ σ) (scene : Scene κ) (s : σ) (c : CommandId) :
    scene.world.Lasts (L.judges scene s)
      (scene.world.modifyCommand c fun x => { x with enabled := (L.canRun scene s c 0).1 }) :=
  have hjudged : ∀ x : Command κ, Command.Lasts (L.judges scene s) c x { x with enabled := (L.canRun scene s c 0).1 } :=
    fun _ => ⟨rfl, rfl, Or.inr rfl⟩
  { (World.Lasts.refl scene.world : scene.world.Lasts (L.judges scene s) _) with
    commands := .modify (Command.Lasts.refl _) hjudged _ }

theorem Language.lasts_settle (L : Language κ σ) (scene : Scene κ) (s : σ) (c : CommandId) :
    scene.world.Lasts (L.judges scene s) (L.settle scene s c).1 := by
  unfold Language.settle
  simp only
  split
  · split
    · exact L.lasts_enable scene s c
    · exact .refl _
  · exact .refl _

theorem Language.lasts_refresh (L : Language κ σ) (scene : Scene κ) (s : σ) (c : CommandId) :
    scene.world.Lasts (L.judges scene s) (L.refresh scene s c).world := by
  unfold Language.refresh
  simp only
  split
  · split
    · exact L.lasts_enable scene s c
    · exact .refl _
  · exact .refl _

theorem Language.lasts_perform (L : Language κ σ) (scene : Scene κ) (s : σ) (a : Action κ) (context : ObjectId) :
    scene.world.Lasts (L.judges scene s) (L.perform scene s a context).world := by
  cases a <;> simp only [Language.perform]
  case code => exact .refl _
  case assign =>
    split
    · exact World.lasts_set _ _ _ _
    · exact .refl _
  case create binding target =>
    -- what is evaluated is the command that has just been made
    set made : World κ := { scene.world with
      commands := scene.world.commands.push { takesArgument := binding.takesArgument
                                              bound := some (binding, context) } } with hmade
    have hpushed : scene.world.Lasts (L.judges scene s) made := scene.world.lasts_pushCommand _
    have hsettled : scene.world.Lasts (L.judges scene s)
        (L.settle { scene with world := made } s scene.world.commands.size).1 := by
      unfold Language.settle
      simp only
      split
      · split
        · exact { hpushed with commands := hpushed.commands.modify_new (le_refl _) _ }
        · exact hpushed
      · exact hpushed
    exact hsettled.trans (World.lasts_set _ _ _ _)
  case refresh =>
    split
    · exact L.lasts_refresh scene s _
    · exact .refl _
  case settle =>
    split
    · exact L.lasts_settle scene s _
    · exact .refl _
  case onBase => exact .refl _

/-- What grants no request, performs nothing and subscribes nobody before a hook. -/
def Task.isWatching : Task κ → Bool
  | .request _ => false
  | .perform _ _ => false
  | .subscribe _ _ _ _ => false
  | _ => true

theorem Language.carry_watches (L : Language κ σ) (g : World κ) (s : σ) {t : Task κ} (ht : t.isWatching = true)
    (rest : List (Task κ)) : g.Watches (L.carry g s t rest).world := by
  cases t with
  | request r => cases ht
  | perform a context => cases ht
  | subscribe subject p l r => cases ht
  | fire site batch => exact .refl g
  | deliver subject id l => exact .refl g
  | deliverChange c id l change =>
    exact World.deliverChange_watches { world := g, agenda := .deliverChange c id l change :: rest } c id l change
  | bind w v => exact g.bind_watches w v
  | bindMembers b => exact g.bindMembers_watches b
  | enrol e => exact g.enrol_watches e
  | register subject p l r => exact g.register_watches subject p l r
  | plant t w => exact g.modifyTree_watches t fun _ => rfl
  | release held =>
    cases held with
    | tree t => exact World.bury_watches { world := g, agenda := rest } t
    | value v => exact .refl g
    | watcher w => exact .refl g

theorem Language.lasts_carry (L : Language κ σ) (g : World κ) (s : σ) (t : Task κ) (rest : List (Task κ)) :
    g.Lasts (L.judges { world := g, agenda := t :: rest } s) (L.carry g s t rest).world := by
  cases t with
  | request r =>
    cases r with
    | call k signal => exact .refl g
    | _ => exact g.lasts_grant rest _
  | perform a context => exact L.lasts_perform { world := g, agenda := .perform a context :: rest } s a context
  | subscribe subject p l r => exact g.lasts_subscribe subject p l r
  | _ => exact (L.carry_watches g s rfl rest).lasts

/-- **Every step** keeps what there is. What a command has cached stays, or is what its
evaluation says now. -/
theorem Language.step_lasts (L : Language κ σ) (m : Machine κ σ) :
    m.world.Lasts (L.judges m.toScene m.state) (L.step m).world := by
  obtain ⟨⟨g, agenda⟩, s⟩ := m
  cases agenda with
  | nil => exact .refl g
  | cons t rest => exact L.lasts_carry g s t rest

/-- Things last, whatever is cached meanwhile. -/
def World.Outlives (g g' : World κ) : Prop :=
  g.Lasts (fun _ _ => True) g'

/-- **Whatever happens**, what there is stays. -/
theorem Resumes.outlives {later : List (Machine κ σ)} {m₀ m : Machine κ σ} (h : Resumes L m₀ later m) :
    m₀.world.Outlives m.world ∧ ∀ n ∈ later, m₀.world.Outlives n.world ∧ n.world.Outlives m.world := by
  induction h with
  | here => exact ⟨.refl _, by simp⟩
  | ask _ requests s' ih => exact ih
  | @step later m _ ih =>
    have hstep : m.world.Outlives (L.step m).world := (L.step_lasts m).mono fun _ _ _ => trivial
    refine ⟨ih.1.trans hstep, fun n hn => ?_⟩
    rcases List.mem_cons.mp hn with rfl | hn
    · exact ⟨ih.1, hstep⟩
    · exact ⟨(ih.2 n hn).1, (ih.2 n hn).2.trans hstep⟩

end LiveRules
