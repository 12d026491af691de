/-
# Everybody is told

A step that touches no watcher and no tree may still change what is watched: a property,
or the members of a collection. Whatever client code asks for and whatever an action
does, everybody who listens there is on the list of those to be told.

Key definitions: `Task.isFire`, `Tells`.
Key theorems: `Stable.tells_grant`, `Stable.tells_perform`.
-/
import LiveRules.Proofs.Machine.Sequence

namespace LiveRules

variable {κ σ : Type}

/-! ### Steps that touch no watcher -/

def Task.isFire : Task κ → Bool
  | .fire _ _ => true
  | _ => false

/-- From `g` to `g'` no watcher is touched and no tree attached or taken down. Where a
property or the members of a collection are not what they were, everybody who listens
is told by `tasks`. -/
structure Tells (g g' : World κ) (tasks : List (Task κ)) : Prop where
  watchers : g'.watchers = g.watchers
  roots : ∀ t, g'.treeRoot t = g.treeRoot t
  fires : ∀ u ∈ tasks, u.isFire = false
  value : ∀ s p, g.hasValue s.value = true →
    g'.memberValue s p = g.memberValue s p ∨ ∀ u ∈ g.round (g.home s p) p, u ∈ tasks
  members : ∀ c items, g.listOf c = some items →
    g'.listOf c = some items ∨ ∃ change, change.isEmpty = false ∧ ∀ u ∈ g.changeRound c change, u ∈ tasks

theorem Tells.of_outline {g g' : World κ} {tasks : List (Task κ)} (houtline : g'.outline = g.outline)
    (hwatchers : g'.watchers = g.watchers) (hroots : ∀ t, g'.treeRoot t = g.treeRoot t)
    (hfires : ∀ u ∈ tasks, u.isFire = false) : Tells g g' tasks where
  watchers := hwatchers
  roots := hroots
  fires := hfires
  value s p _ := Or.inl (World.memberValue_congr houtline s p)
  members c _ hitems := Or.inl ((World.listOf_congr houtline c).trans hitems)

theorem Tells.idle (g : World κ) {tasks : List (Task κ)} (hfires : ∀ u ∈ tasks, u.isFire = false) : Tells g g tasks :=
  .of_outline rfl rfl (fun _ => rfl) hfires

theorem Tells.round (g : World κ) (s : Subject) (p : String) : Tells g g (g.round s p) := by
  refine .idle g fun u hu => ?_
  obtain ⟨e, -, rfl⟩ := World.mem_round.mp hu
  rfl

section

variable {g g' : World κ} (hg : g.Sane) (h : World.Tended g g')
  (hobjects : ∀ o p, g.hasObject o = true → g'.ownValue o p = g.ownValue o p)
  (hlist : ∀ c, g.hasValue (.collection c) = true → g'.listOf c = g.listOf c)

include hg h hobjects hlist

/-- What is made silently does not keep what comes next from telling. -/
theorem World.Tended.before {g'' : World κ} {tasks : List (Task κ)} (h' : Tells g' g'' tasks) : Tells g g'' tasks where
  watchers := h'.watchers.trans h.watchers
  roots t := (h'.roots t).trans (World.treeRoot_congr h.trees t)
  fires := h'.fires
  value s p hs := by
    have hsame : g'.memberValue s p = g.memberValue s p := by
      refine h.memberValue hg hs fun o ho => hobjects o p ?_
      have hhome := hg.hasValue_home hs p
      rwa [ho] at hhome
    refine (h'.value s p (h.known hs)).imp (·.trans hsame) fun htold => ?_
    unfold World.round at htold ⊢
    rwa [h.home hg p hs, h.notifiers] at htold
  members c items hitems := by
    rw [← hlist c (World.hasValue_of_listOf hitems)] at hitems
    refine (h'.members c items hitems).imp id fun ⟨change, hne, htold⟩ => ⟨change, hne, ?_⟩
    unfold World.changeRound at htold ⊢
    rwa [h.changes] at htold

theorem World.Tended.tells : Tells g g' [] :=
  h.before hg hobjects hlist (.idle g' (by simp))

end

section

variable {g : World κ} (hg : g.Sane)

include hg

/-- Everybody who listens is told of a write. -/
theorem World.Sane.tells_write (o : ObjectId) (p : String) {v : Value} (hv : g.hasValue v = true) :
    Tells g (g.write o p v).1 (g.write o p v).2 := by
  have htended := hg.store o p hv
  have hround := Tells.round g (.object (g.holder o p)) p
  refine ⟨htended.watchers, World.treeRoot_congr htended.trees, hround.fires, fun s q hs => ?_,
    fun c _ hitems => Or.inl hitems⟩
  by_cases hplace : g.home s q = .object (g.holder o p) ∧ p = q
  · obtain ⟨hhome, rfl⟩ := hplace
    rw [hhome]
    exact Or.inr fun u hu => hu
  · refine Or.inl (htended.memberValue hg hs fun n hn => World.ownValue_store g o p v ?_)
    rintro ⟨rfl, rfl⟩
    exact hplace ⟨hn, rfl⟩

theorem World.Sane.tells_set (o : ObjectId) (p : String) {v : Value} (hv : g.hasValue v = true) :
    Tells g (g.set o p v).1 (g.set o p v).2 := by
  unfold World.set
  split
  · exact .idle g (by simp)
  · exact hg.tells_write o p hv

/-- Everybody who listens is told of a change. -/
theorem World.Sane.tells_changeItems {c : CollectionId} {items : List ObjectId} {change : Change}
    (hitems : ∀ o ∈ items, g.hasObject o = true) (hne : ∀ old, g.listOf c = some old → change.isEmpty = false) :
    Tells g (g.changeItems c items change).1 (g.changeItems c items change).2 := by
  have htended := hg.changeItems c hitems
  refine ⟨htended.watchers, World.treeRoot_congr htended.trees, fun u hu => ?_, fun s q hs => ?_,
    fun d old hold => ?_⟩
  · rcases World.mem_changeRound.mp hu with ⟨e, -, rfl⟩ | ⟨o, -, rfl⟩ <;> rfl
  · exact Or.inl (htended.memberValue hg hs fun _ _ => rfl)
  · by_cases hcd : c = d
    · subst hcd
      exact Or.inr ⟨change, hne old hold, fun u hu => hu⟩
    · refine Or.inl ?_
      unfold World.changeItems
      rw [World.listOf_changeItems, if_neg hcd]
      exact hold

end

section

variable {g : World κ} {agenda : List (Task κ)} {missed : SubscriptionId → List ObjectId} (h : Stable g agenda missed)

include h

/-- Where a collection gets other members, everybody who listens is told. -/
theorem Stable.tells_edit {r : Request κ} {c : CollectionId} (hr : r.edits = some c) (rest : List (Task κ)) :
    Tells g (g.grant rest r).1 (g.grant rest r).2 := by
  rcases g.grant_edit_cases hr rest with heq | ⟨items, change, hitems, hchange, heq⟩ <;> rw [heq]
  · exact .idle g (by simp)
  · have hold := World.hasObject_of_listOf h.grown.sane.items hitems
    exact h.grown.sane.tells_changeItems (fun o => Request.hasObject_of_members hchange hold)
      fun _ _ => Request.change_nonempty hchange

omit h in
theorem World.tells_register (s : Subject) (p : String) (k : κ) (context : Option ObjectId) (receiver : κ) :
    Tells g (g.register s p (.code k context) (.code receiver)).1
      (g.register s p (.code k context) (.code receiver)).2 := by
  have hhere : Tells g (g.enterListener s p (.code k context))
      [.request (.call receiver (.subscribed g.nextSubscription))] :=
    .of_outline (g.enterListener_outline s p _) (by cases s <;> rfl)
      (World.treeRoot_congr (g.enterListener_trees s p _)) (by simp [Task.isFire])
  unfold World.register
  cases s with
  | command c => exact hhere
  | object o =>
    simp only
    split
    · split
      · exact hhere
      · exact .idle g (by simp [Task.isFire])
    · exact hhere

theorem Stable.tells_subscribe (s : Subject) (p : String) (k : κ) (context : Option ObjectId) (receiver : κ) :
    Tells g (g.subscribe s p (.code k context) (.code receiver)).1
      (g.subscribe s p (.code k context) (.code receiver)).2 := by
  have hregister : Tells g g [.register s p (.code k context) (.code receiver)] := .idle g (by simp [Task.isFire])
  cases s with
  | command c => exact hregister
  | object o =>
    simp only [World.subscribe, h.grown.sane.takeHook o p]
    exact hregister

/-- What is asked for attaches a tree or takes one down. -/
def Request.plants : Request κ → Bool
  | .attach _ _ => true
  | .dispose _ => true
  | .drop _ => true
  | _ => false

/-- **Whatever is asked for**, everybody who listens is told. -/
theorem Stable.tells_grant {r : Request κ} (hhook : ∀ o p k, r ≠ .hook o p k) (hr : r.plants = false)
    (rest : List (Task κ)) : Tells g (g.grant rest r).1 (g.grant rest r).2 := by
  have hsane := h.grown.sane
  have hidle : Tells g g [] := .idle g (by simp)
  have hrenamed : ∀ {g' : World κ} (objectNames : Table String ObjectId) (collectionNames : Table String CollectionId)
      (commandNames : Table String CommandId), g'.Sane →
        Tells g' { g' with objectNames, collectionNames, commandNames } [] :=
    fun _ _ _ hs => (hs.renamed _ _ _).tells hs (fun _ _ _ => rfl) fun _ _ => rfl
  cases r with
  | attach t context => cases hr
  | dispose t => cases hr
  | drop t => cases hr
  | hook o p k => exact absurd rfl (hhook o p k)
  | newObject name properties base own =>
    simp only [World.grant]
    split
    · rename_i hexist
      rw [Bool.and_eq_true, List.all_eq_true] at hexist
      have htended := hsane.pushObject (x := { label := name, properties, base, own }) rfl rfl
        (fun b hb => by
          have hbase : base = some b := hb
          simpa [hbase] using hexist.1) hexist.2
      refine htended.before hsane (fun o p ho => ?_) (fun _ _ => rfl) (hrenamed _ _ _ htended.sane)
      simp only [World.hasObject, decide_eq_true_eq] at ho
      simp only [World.ownValue, Array.getElem?_push, if_neg (ne_of_lt ho)]
    · exact hidle
  | newCollection name items free =>
    simp only [World.grant]
    split
    · rename_i hexist
      have htended := hsane.pushCollection (x := { label := name, items, free }) rfl (List.all_eq_true.mp hexist)
      refine htended.before hsane (fun _ _ _ => rfl) (fun c hc => ?_) (hrenamed _ _ _ htended.sane)
      simp only [World.hasValue, decide_eq_true_eq] at hc
      simp only [World.listOf, Array.getElem?_push, if_neg (ne_of_lt hc)]
    · exact hidle
  | newCommand name takesArgument =>
    have htended := hsane.pushCommand (x := { takesArgument }) rfl
    exact htended.before hsane (fun _ _ _ => rfl) (fun _ _ => rfl) (hrenamed _ _ _ htended.sane)
  | nameCommand name c =>
    simp only [World.grant]
    split
    · exact hrenamed _ _ _ hsane
    · exact hidle
  | forgetObject name => exact hrenamed _ _ _ hsane
  | forgetCollection name => exact hrenamed _ _ _ hsane
  | write o p v =>
    simp only [World.grant]
    split
    · rename_i hexist
      rw [Bool.and_eq_true] at hexist
      exact hsane.tells_write o p hexist.2
    · exact hidle
  | notify o p => exact .round g _ p
  | subscribe s p k context receiver =>
    simp only [World.grant]
    split
    · exact .idle g (by simp [Task.isFire])
    · exact hidle
  | unsubscribe s id =>
    simp only [World.grant]
    split
    · exact .of_outline (g.unsubscribe_outline s id) (World.unsubscribe_watchers g s id).1
        (World.treeRoot_congr (World.unsubscribe_watchers g s id).2) (by simp)
    · exact hidle
  | subscribeChanges c k receiver =>
    simp only [World.grant]
    split
    · exact .of_outline (g.enterChangeListener_outline c _) rfl (fun _ => rfl) (by simp [Task.isFire])
    · exact hidle
  | unsubscribeChanges c id =>
    simp only [World.grant]
    split
    · exact .of_outline (g.unsubscribeChanges_outline c id) rfl (fun _ => rfl) (by simp)
    · exact hidle
  | push | insert | remove | clear => exact h.tells_edit rfl rest
  | report c items change =>
    simp only [World.grant]
    split
    · rename_i x hx
      split
      · rename_i hexist
        rw [Bool.and_eq_true, List.all_eq_true] at hexist
        refine hsane.tells_changeItems (fun o ho => ?_) fun old hold => ?_
        · cases items with
          | none =>
            refine hsane.items c o ?_
            simpa [World.itemsOf, hx] using ho
          | some items => exact hexist.2 o (List.mem_append_left _ (List.mem_append_left _ ho))
        · simp [World.listOf, hx, hexist.1] at hold
      · exact hidle
    · exact hidle
  | perform a context =>
    simp only [World.grant]
    split
    · exact .idle g (by simp [Task.isFire])
    · exact hidle
  | newTree plan =>
    exact Tells.of_outline (g := g) rfl rfl
      (World.treeRoot_newTree g plan) fun u hu => absurd hu List.not_mem_nil
  | call k signal => exact hidle
  | hold v => exact hidle

omit h in
/-- Evaluating a command is silent. -/
theorem World.Sane.settle {scene : Scene κ} (hsane : scene.world.Sane) (L : Language κ σ) (st : σ) (c : CommandId) :
    scene.world.Tended (L.settle scene st c).1 ∧
      (∀ o p, (L.settle scene st c).1.ownValue o p = scene.world.ownValue o p) ∧
      (∀ d, (L.settle scene st c).1.listOf d = scene.world.listOf d) ∧
      (L.settle scene st c).1.commands.size = scene.world.commands.size := by
  have hrefl := hsane.renamed scene.world.objectNames scene.world.collectionNames scene.world.commandNames
  unfold Language.settle
  simp only
  split
  · split
    · exact ⟨hsane.enableCommand c _, fun _ _ => rfl, fun _ => rfl, by simp [World.modifyCommand]⟩
    · exact ⟨hrefl, fun _ _ => rfl, fun _ => rfl, rfl⟩
  · exact ⟨hrefl, fun _ _ => rfl, fun _ => rfl, rfl⟩

/-- **Whatever an action does**, everybody who listens is told. -/
theorem Stable.tells_perform (L : Language κ σ) (scene : Scene κ) (hscene : scene.world = g) (st : σ) (a : Action κ)
    (context : ObjectId) : Tells g (L.perform scene st a context).world (L.perform scene st a context).tasks := by
  subst hscene
  have hsane := h.grown.sane
  cases a with
  | code k => exact .idle _ (by simp [Language.perform, Task.isFire])
  | assign source target =>
    simp only [Language.perform]
    split
    · rename_i hv
      exact hsane.tells_set context target hv
    · exact .idle _ (by simp)
  | create binding target =>
    simp only [Language.perform]
    have htended := hsane.pushCommand
      (x := { takesArgument := binding.takesArgument, bound := some (binding, context) }) rfl
    set g₁ : World κ := { scene.world with
      commands := scene.world.commands.push
        { takesArgument := binding.takesArgument, bound := some (binding, context) } } with hg₁
    have hsane₁ : ({ scene with world := g₁ } : Scene κ).world.Sane := htended.sane
    obtain ⟨hsettled, hown, hlist, hsize⟩ := hsane₁.settle L st scene.world.commands.size
    refine htended.before hsane (fun _ _ _ => rfl) (fun _ _ => rfl) ?_
    refine hsettled.before htended.sane (fun o p _ => hown o p) (fun d _ => hlist d) ?_
    refine hsettled.sane.tells_set context target ?_
    -- settling a command does not make it go away
    simp only [World.hasValue, decide_eq_true_eq]
    rw [hsize]
    simp [hg₁]
  | refresh takesArgument target =>
    simp only [Language.perform]
    split
    · rename_i c _
      unfold Language.refresh
      simp only
      split
      · split
        · rename_i x hx hself
          have htended := hsane.enableCommand c (L.canRun scene st c 0).1
          have hround : ∀ g' : World κ, (∀ s, g'.notifierOf s = scene.world.notifierOf s) →
              g'.round (.command c) canExecute = scene.world.round (.command c) canExecute := by
            intro g' hg'
            unfold World.round
            rw [hg']
          rw [← hround _ htended.notifiers]
          refine htended.before hsane (fun _ _ _ => rfl) (fun _ _ => rfl) ?_
          split
          · exact .idle _ (by simp)
          · exact .round _ _ _
        · exact .round _ _ _
      · exact .idle _ (by simp)
    · exact .idle _ (by simp)
  | settle takesArgument target =>
    simp only [Language.perform]
    split
    · obtain ⟨hsettled, hown, hlist, -⟩ := hsane.settle L st _
      exact hsettled.tells hsane (fun o p _ => hown o p) fun d _ => hlist d
    · exact .idle _ (by simp)
  | onBase inner => exact .idle _ (by simp [Language.perform, Task.isFire])

end

end LiveRules
