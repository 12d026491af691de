/-
# What client code does to the world

Whatever client code asks for and whatever actions do, if it attaches no tree and takes
none down, comes to a few kinds of alterations, one after the other: a name is given,
a thing is made, a value is stored, the members of a collection change, a command is
evaluated, and client code starts or stops to listen. None of them touches a watcher.
They are the same alterations in a world without hooks.

Key definitions: `World.Alters`.
Key theorems: `World.altered_grant`, `Language.altered_perform`, `World.Alters.dressed`,
`World.Alters.retold`, `Run.sane`.
-/
import LiveRules.Proofs.Machine.Lasting
import LiveRules.Proofs.Machine.Tells
import LiveRules.Proofs.World.Hooks

namespace LiveRules

variable {κ σ : Type} {L : Language κ σ}

namespace World

/-- One alteration that client code makes. -/
inductive Alters (g : World κ) : World κ → Prop
  | rename (objectNames : Table String ObjectId) (collectionNames : Table String CollectionId)
      (commandNames : Table String CommandId) : Alters g { g with objectNames, collectionNames, commandNames }
  | makeObject (x : Object κ) (hnotifier : x.notifier = {}) (hhooks : x.hooks = [])
      (hbase : ∀ b, x.base = some b → g.hasObject b = true) (hvalues : ∀ e ∈ x.properties, g.hasValue e.2 = true) :
      Alters g { g with objects := g.objects.push x }
  | makeCollection (x : Collection κ) (hlisteners : x.listeners = []) (hitems : ∀ o ∈ x.items, g.hasObject o = true) :
      Alters g { g with collections := g.collections.push x }
  | makeCommand (x : Command κ) (hnotifier : x.notifier = {}) : Alters g { g with commands := g.commands.push x }
  | enable (c : CommandId) (enabled : Bool) : Alters g (g.modifyCommand c fun x => { x with enabled })
  | store (o : ObjectId) (p : String) {v : Value} (hv : g.hasValue v = true) : Alters g (g.store o p v)
  | changeItems (c : CollectionId) {items : List ObjectId} (hitems : ∀ o ∈ items, g.hasObject o = true) :
      Alters g (g.modifyCollection c fun x => { x with items })
  | listen (s : Subject) (p : String) (k : κ) (context : Option ObjectId) :
      Alters g (g.enterListener s p (.code k context))
  | unlisten {s : Subject} {id : SubscriptionId} (howned : g.ownedByCode s id = true) : Alters g (g.unsubscribe s id)
  | follow {c : CollectionId} (hc : g.hasValue (.collection c) = true) (k : κ) :
      Alters g (g.enterChangeListener c (.code k))
  | unfollow {c : CollectionId} {id : SubscriptionId} (howned : g.changeOwnedByCode c id = true) :
      Alters g (g.unsubscribeChanges c id)
  | makeTree (plan : WatchPlan κ) : Alters g { g with trees := g.trees.push { plan } }
  | giveUp (t : TreeId) : Alters g (g.modifyTree t fun x => { x with dropped := true })

/-- Any number of alterations. -/
def Altered : World κ → World κ → Prop :=
  Relation.ReflTransGen Alters

variable {g g' : World κ}

theorem Alters.altered (h : g.Alters g') : g.Altered g' :=
  .single h

/-! ### What they leave -/

theorem Alters.watchers (h : g.Alters g') : g'.watchers = g.watchers := by
  cases h with
  | listen s p k context => exact g.enterListener_watchers s p (.code k context)
  | unlisten => exact (g.unsubscribe_watchers _ _).1
  | _ => rfl

/-- No tree goes, or changes its plan, and none gets a top or loses it. -/
theorem Alters.trees (h : g.Alters g') :
    Keeps (SameBy Tree.plan) g.trees g'.trees ∧ ∀ t, g'.treeRoot t = g.treeRoot t := by
  have hsame : ∀ {g' : World κ}, g'.trees = g.trees →
      Keeps (SameBy Tree.plan) g.trees g'.trees ∧ ∀ t, g'.treeRoot t = g.treeRoot t :=
    fun h => ⟨h ▸ .refl (SameBy.refl _) _, treeRoot_congr h⟩
  cases h with
  | listen s p k context => exact hsame (g.enterListener_trees s p (.code k context))
  | unlisten => exact hsame (g.unsubscribe_watchers _ _).2
  | makeTree plan => exact ⟨.push (SameBy.refl _) _ _, treeRoot_newTree g plan⟩
  | giveUp t =>
    exact ⟨.of_map (g.giveUp_watches t).2 fun h => h, treeRoot_giveUp g t⟩
  | _ => exact hsame rfl

theorem Alters.sane (h : g.Alters g') (hg : g.Sane) : g'.Sane := by
  cases h with
  | rename => exact (hg.renamed _ _ _).sane
  | makeObject x hnotifier hhooks hbase hvalues => exact (hg.pushObject hnotifier hhooks hbase hvalues).sane
  | makeCollection x hlisteners hitems => exact (hg.pushCollection hlisteners hitems).sane
  | makeCommand x hnotifier => exact (hg.pushCommand hnotifier).sane
  | enable c enabled => exact (hg.enableCommand c enabled).sane
  | store o p hv => exact (hg.store o p hv).sane
  | changeItems c hitems => exact (hg.changeItems c hitems).sane
  | listen s p k context => exact hg.congr (g.enterListener_outline s p _)
  | unlisten => exact hg.congr (g.unsubscribe_outline _ _)
  | follow => exact hg.congr (g.enterChangeListener_outline _ _)
  | unfollow => exact hg.congr (g.unsubscribeChanges_outline _ _)
  | makeTree => exact hg.congr rfl
  | giveUp => exact hg.congr rfl

/-- Hooks and watchers are of no concern to an alteration. -/
theorem Alters.dressed (h : g.Alters g') (ws : Array (Watcher κ)) : (g.dressed ws).Alters (g'.dressed ws) := by
  have hvalue : ∀ {v}, g.hasValue v = true → (g.dressed ws).hasValue v = true := fun hv =>
    (g.hasValue_dressed ws _).trans hv
  cases h with
  | rename => exact .rename _ _ _
  | makeObject x hnotifier hhooks hbase hvalues =>
    have hsame : x.unhooked = x := by
      unfold Object.unhooked
      rw [← hhooks]
    have hpush : World.dressed { g with objects := g.objects.push x } ws =
        { g.dressed ws with objects := (g.dressed ws).objects.push x } := by
      simp only [World.dressed, Array.map_push, hsame]
    rw [hpush]
    exact .makeObject x hnotifier hhooks (fun b hb => hvalue (v := .object b) (hbase b hb)) fun e he =>
      hvalue (hvalues e he)
  | makeCollection x hlisteners hitems =>
    exact .makeCollection x hlisteners fun o ho => hvalue (v := .object o) (hitems o ho)
  | makeCommand x hnotifier => exact .makeCommand x hnotifier
  | enable c enabled => exact .enable c enabled
  | store o p hv =>
    rw [dressed_store]
    exact .store o p (hvalue hv)
  | changeItems c hitems => exact .changeItems c fun o ho => hvalue (v := .object o) (hitems o ho)
  | listen s p k context =>
    rw [dressed_enterListener]
    exact .listen s p k context
  | @unlisten s id howned =>
    rw [dressed_unsubscribe]
    refine .unlisten ?_
    unfold ownedByCode at howned ⊢
    simp only [reach_dressed, notifierOf_dressed]
    exact howned
  | follow hc k => exact .follow (hvalue hc) k
  | unfollow howned => exact .unfollow howned
  | makeTree plan => exact .makeTree plan
  | giveUp t => exact .giveUp t

theorem Altered.watchers (h : g.Altered g') : g'.watchers = g.watchers := by
  induction h with
  | refl => rfl
  | tail _ h ih => exact h.watchers.trans ih

theorem Altered.trees (h : g.Altered g') :
    Keeps (SameBy Tree.plan) g.trees g'.trees ∧ ∀ t, g'.treeRoot t = g.treeRoot t := by
  induction h with
  | refl => exact ⟨.refl (SameBy.refl _) _, fun _ => rfl⟩
  | tail _ h ih => exact ⟨ih.1.trans SameBy.trans h.trees.1, fun t => (h.trees.2 t).trans (ih.2 t)⟩

theorem Altered.sane (h : g.Altered g') (hg : g.Sane) : g'.Sane := by
  induction h with
  | refl => exact hg
  | tail _ h ih => exact h.sane ih

theorem Altered.dressed (h : g.Altered g') (ws : Array (Watcher κ)) : (g.dressed ws).Altered (g'.dressed ws) := by
  induction h with
  | refl => exact .refl
  | tail _ h ih => exact ih.tail (h.dressed ws)

/-- Watchers are subscribed as they were. -/
theorem Alters.retold {tops : List WatcherId} (h : g.Alters g') (hg : g.Grown tops) : Retold g g' := by
  cases h with
  | rename => exact (hg.sane.renamed _ _ _).retold hg
  | makeObject x hnotifier hhooks hbase hvalues => exact (hg.sane.pushObject hnotifier hhooks hbase hvalues).retold hg
  | makeCollection x hlisteners hitems => exact (hg.sane.pushCollection hlisteners hitems).retold hg
  | makeCommand x hnotifier => exact (hg.sane.pushCommand hnotifier).retold hg
  | enable c enabled => exact (hg.sane.enableCommand c enabled).retold hg
  | store o p hv => exact (hg.sane.store o p hv).retold hg
  | changeItems c hitems => exact (hg.sane.changeItems c hitems).retold hg
  | listen s p k context => exact hg.enterListener s p k context
  | unlisten howned => exact hg.unsubscribe howned
  | follow hc k => exact hg.enterChangeListener hc k
  | unfollow howned => exact hg.unsubscribeChanges howned
  | makeTree plan => exact hg.newTree plan
  | giveUp t => exact hg.giveUp t

theorem Retold.refl {tops : List WatcherId} (hg : g.Grown tops) : Retold g g where
  watchers := rfl
  trees := rfl
  rooted := id
  next := le_refl _
  filed := hg.filed
  sane := hg.sane
  member := Iff.rfl
  membership := Iff.rfl
  old := Or.inl
  oldChanges := Or.inl
  known := id
  home _ _ := rfl

theorem Retold.trans {g'' : World κ} (h : Retold g g') (h' : Retold g' g'') : Retold g g'' where
  watchers := h'.watchers.trans h.watchers
  trees := h'.trees.trans h.trees
  rooted := h'.rooted ∘ h.rooted
  next := h.next.trans h'.next
  filed := h'.filed
  sane := h'.sane
  member := h'.member.trans h.member
  membership := h'.membership.trans h.membership
  old he := (h'.old he).elim h.old fun hnew => Or.inr (h.next.trans hnew)
  oldChanges he := (h'.oldChanges he).elim h.oldChanges fun hnew => Or.inr (h.next.trans hnew)
  known := h'.known ∘ h.known
  home p hs := (h'.home p (h.known hs)).trans (h.home p hs)

theorem Altered.retold {tops : List WatcherId} (h : g.Altered g') (hg : g.Grown tops) : Retold g g' := by
  induction h with
  | refl => exact .refl hg
  | tail _ h ih => exact ih.trans (h.retold (ih.grown hg))

/-! ### Requests and actions -/

theorem altered_changeItems (c : CollectionId) {items : List ObjectId} (change : Change)
    (hitems : ∀ o ∈ items, g.hasObject o = true) : g.Altered (g.changeItems c items change).1 :=
  (Alters.changeItems c hitems).altered

theorem altered_set (o : ObjectId) (p : String) {v : Value} (hv : g.hasValue v = true) :
    g.Altered (g.set o p v).1 := by
  unfold World.set
  split
  · exact .refl
  · exact (Alters.store o p hv).altered

/-- **Whatever is asked for**, other than to hook code on subscriptions, to attach a tree
or to take one down, is a number of alterations. -/
theorem altered_grant (hitems : ∀ c, ∀ o ∈ g.itemsOf c, g.hasObject o = true) {r : Request κ}
    (hhook : ∀ o p k, r ≠ .hook o p k) (hr : r.plants = false) (rest : List (Task κ)) :
    g.Altered (g.grant rest r).1 := by
  have hedit : ∀ {c}, r.edits = some c → g.Altered (g.grant rest r).1 := by
    intro c hc
    rcases g.grant_edit_cases hc rest with heq | ⟨items, change, hold, hchange, heq⟩ <;> rw [heq]
    · exact .refl
    · exact altered_changeItems c change fun o => Request.hasObject_of_members hchange (hasObject_of_listOf hitems hold)
  cases r
  case push | insert | remove | clear => exact hedit rfl
  all_goals simp only [World.grant]
  case newObject name properties base own =>
    split
    · rename_i hexist
      rw [Bool.and_eq_true, List.all_eq_true] at hexist
      refine .tail (Alters.makeObject { label := name, properties, base, own } rfl rfl
        (fun b hb => ?_) hexist.2).altered
        (.rename _ _ _)
      have hbase : base = some b := hb
      simpa [hbase] using hexist.1
    · exact .refl
  case newCollection name items free =>
    split
    · rename_i hexist
      exact .tail (Alters.makeCollection { label := name, items, free } rfl (List.all_eq_true.mp hexist)).altered
        (.rename _ _ _)
    · exact .refl
  case newCommand name takesArgument =>
    exact .tail (Alters.makeCommand { takesArgument } rfl).altered (.rename _ _ _)
  case nameCommand =>
    split
    · exact (Alters.rename _ _ _).altered
    · exact .refl
  case forgetObject => exact (Alters.rename _ _ _).altered
  case forgetCollection => exact (Alters.rename _ _ _).altered
  case write o p v =>
    split
    · rename_i hexist
      rw [Bool.and_eq_true] at hexist
      exact (Alters.store o p hexist.2).altered
    · exact .refl
  case notify => exact .refl
  case hook o p k => exact absurd rfl (hhook o p k)
  case subscribe => split <;> exact .refl
  case unsubscribe =>
    split
    · rename_i howned
      exact (Alters.unlisten howned).altered
    · exact .refl
  case subscribeChanges =>
    split
    · rename_i hexist
      exact (Alters.follow hexist _).altered
    · exact .refl
  case unsubscribeChanges =>
    split
    · rename_i howned
      exact (Alters.unfollow howned).altered
    · exact .refl
  case report c items change =>
    split
    · rename_i x hx
      split
      · rename_i hexist
        rw [Bool.and_eq_true, List.all_eq_true] at hexist
        refine altered_changeItems _ _ fun o ho => ?_
        cases items with
        | none => exact hitems c o (by simpa [World.itemsOf, hx] using ho)
        | some items => exact hexist.2 o (List.mem_append_left _ (List.mem_append_left _ ho))
      · exact .refl
    · exact .refl
  case perform => exact .refl
  case newTree => exact (Alters.makeTree _).altered
  case attach => cases hr
  case dispose => cases hr
  case drop => cases hr
  case call => exact .refl
  case hold => exact .refl

end World

theorem Language.altered_settle (L : Language κ σ) (scene : Scene κ) (s : σ) (c : CommandId) :
    scene.world.Altered (L.settle scene s c).1 := by
  unfold Language.settle
  simp only
  split
  · split
    · exact (World.Alters.enable c _).altered
    · exact .refl
  · exact .refl

theorem Language.altered_refresh (L : Language κ σ) (scene : Scene κ) (s : σ) (c : CommandId) :
    scene.world.Altered (L.refresh scene s c).world := by
  unfold Language.refresh
  simp only
  split
  · split
    · exact (World.Alters.enable c _).altered
    · exact .refl
  · exact .refl

/-- **Whatever an action does** is a number of alterations. -/
theorem Language.altered_perform (L : Language κ σ) (scene : Scene κ) (s : σ) (a : Action κ) (context : ObjectId) :
    scene.world.Altered (L.perform scene s a context).world := by
  cases a <;> simp only [Language.perform]
  case code => exact .refl
  case assign source target =>
    split
    · rename_i hv
      exact World.altered_set context target hv
    · exact .refl
  case create binding target =>
    set x : Command κ := { takesArgument := binding.takesArgument, bound := some (binding, context) } with hx
    set g₁ : World κ := { scene.world with commands := scene.world.commands.push x } with hg₁
    have hsettled : scene.world.Altered (L.settle { scene with world := g₁ } s scene.world.commands.size).1 :=
      .trans (World.Alters.makeCommand x rfl).altered (L.altered_settle { scene with world := g₁ } s _)
    refine .trans hsettled (World.altered_set context target ?_)
    -- evaluating a command does not make it go away
    simp only [Language.settle, hg₁, World.hasValue, decide_eq_true_eq]
    split
    · split
      · simp [World.modifyCommand]
      · simp
    · simp
  case refresh =>
    split
    · exact L.altered_refresh scene s _
    · exact .refl
  case settle =>
    split
    · exact L.altered_settle scene s _
    · exact .refl
  case onBase => exact .refl

/-! ### Every step -/

namespace World

variable {g g' : World κ} (hg : g.unhooked.Sane)

include hg

theorem Sane.of_watches (h : g.Watches g') : g'.unhooked.Sane :=
  hg.congr (outline_dressed h.1 _ _)

theorem Sane.of_altered (h : g.Altered g') : g'.unhooked.Sane := by
  have hsane := (h.dressed g.watchers).sane hg
  rwa [← h.watchers] at hsane

theorem Sane.hasObject_items (c : CollectionId) : ∀ o ∈ g.itemsOf c, g.hasObject o = true := by
  intro o ho
  rw [← g.hasObject_dressed g.watchers]
  exact hg.items c o ho

theorem Sane.of_subscribe (s : Subject) (p : String) (l : Listener κ) (r : Receiver κ) :
    (g.subscribe s p l r).1.unhooked.Sane := by
  unfold World.subscribe
  split
  · split
    · rename_i o k g' hhook
      show (g'.dressed g'.watchers).Sane
      rw [dressed_takeHook hhook, takeHook_watchers hhook]
      exact hg
    · exact hg
  · exact hg

theorem Sane.of_grant (r : Request κ) (rest : List (Task κ)) : (g.grant rest r).1.unhooked.Sane := by
  by_cases hr : r.plants = false
  · by_cases hhook : ∃ o p k, r = .hook o p k
    · obtain ⟨o, p, k, rfl⟩ := hhook
      have hsame : (g.grant rest (.hook o p k)).1.unhooked = g.unhooked :=
        dressed_hooks g o (fun hooks => hooks ++ [(p, k)]) g.watchers
      rw [hsame]
      exact hg
    · exact hg.of_altered (altered_grant hg.hasObject_items (fun o p k heq => hhook ⟨o, p, k, heq⟩) hr rest)
  · exact hg.of_watches (g.grant_watches rest (Bool.eq_true_of_not_eq_false hr))

end World

/-- **Every step** leaves the world sane, hooks apart. -/
theorem Language.sane_step (L : Language κ σ) {m : Machine κ σ} (h : m.world.unhooked.Sane) :
    (L.step m).world.unhooked.Sane := by
  obtain ⟨⟨g, agenda⟩, s⟩ := m
  cases agenda with
  | nil => exact h
  | cons t rest =>
    show (L.carry g s t rest).world.unhooked.Sane
    have hg : g.unhooked.Sane := h
    cases t with
    | request r =>
      cases r with
      | call k signal => exact hg
      | _ => exact hg.of_grant _ rest
    | perform a context =>
      exact hg.of_altered (L.altered_perform { world := g, agenda := .perform a context :: rest } s a context)
    | subscribe subject p l r => exact hg.of_subscribe subject p l r
    | _ => exact hg.of_watches (L.carry_watches g s rfl rest)

/-- **In every run**, with whatever hooks, bases are older and what is held exists. -/
theorem Run.sane {past : List (Machine κ σ)} {m : Machine κ σ} (h : Run L past m) : m.world.unhooked.Sane := by
  induction h with
  | start s =>
    have hempty : ({} : World κ).unhooked = {} := by simp [World.unhooked, World.dressed]
    show ({} : World κ).unhooked.Sane
    rw [hempty]
    exact stable_empty.grown.sane
  | ask _ requests s' ih => exact ih
  | step _ ih => exact L.sane_step ih

end LiveRules
