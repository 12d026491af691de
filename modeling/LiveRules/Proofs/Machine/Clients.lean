/-
# Clients

What client code asks for leaves the watchers in step: it cannot take back what
watchers have subscribed to, and what it subscribes to itself tells nobody else.
So do actions, which write properties and evaluate commands.

Key theorems: `Stable.grant`, `Stable.register`, `Stable.perform`.
-/
import LiveRules.Proofs.Machine.Telling
import LiveRules.Proofs.Machine.Trees
import LiveRules.Proofs.World.Edits

namespace LiveRules

variable {κ σ : Type}

/-! ### Listening -/

namespace World

theorem enterListener_trees (g : World κ) (s : Subject) (p : String) (l : Listener κ) :
    (g.enterListener s p l).trees = g.trees := by
  cases s <;> rfl

/-- Subscribing to what does not exist enters nobody anywhere. -/
theorem notifierOf_enterListener_absent (g : World κ) {s : Subject} (hs : g.hasValue s.value ≠ true) (p : String)
    (l : Listener κ) (t : Subject) : (g.enterListener s p l).notifierOf t = g.notifierOf t := by
  have h : (g.enterListener s p l).notifierOf t = _ :=
    g.notifierOf_modifyNotifier s t (·.subscribe p g.nextSubscription l)
  rw [h, if_neg fun hst => hs hst.2]

theorem enterListener_absent_filed {g : World κ} (hg : g.Filed) {s : Subject} (hs : g.hasValue s.value ≠ true)
    (p : String) (l : Listener κ) : (g.enterListener s p l).Filed := by
  have hlisteners : ∀ t q, (g.enterListener s p l).listeners t q = g.listeners t q := by
    intro t q
    unfold listeners
    rw [g.notifierOf_enterListener_absent hs]
  constructor
  case agrees =>
    intro t
    rw [g.notifierOf_enterListener_absent hs]
    exact hg.agrees t
  case older =>
    intro t q e he
    rw [hlisteners] at he
    exact Nat.lt_succ_of_lt (hg.older t q e he)
  case single =>
    intro t u q r id k m hk hm
    rw [hlisteners] at hk hm
    exact hg.single hk hm
  case changesOlder =>
    intro c e he
    rw [listenersOfCollection_enterListener] at he
    exact Nat.lt_succ_of_lt (hg.changesOlder c e he)
  case changesAscending =>
    intro c
    rw [listenersOfCollection_enterListener]
    exact hg.changesAscending c
  case changesSingle =>
    intro c d id k m hk hm
    rw [listenersOfCollection_enterListener] at hk hm
    exact hg.changesSingle hk hm

/-- Who is told after a subscription: those before, and maybe the one who subscribed. -/
theorem Filed.enterListener {g : World κ} (hg : g.Filed) (s : Subject) (p : String) (l : Listener κ) :
    (g.enterListener s p l).Filed ∧
      (∀ {t q e}, e ∈ (g.enterListener s p l).listeners t q → e ∈ g.listeners t q ∨ e = (g.nextSubscription, l)) ∧
      ∀ {t q e}, e ∈ g.listeners t q → e ∈ (g.enterListener s p l).listeners t q := by
  by_cases hs : g.hasValue s.value = true
  · refine ⟨enterListener_filed hg hs p l, fun {t q e} he => ?_, fun {t q e} he => ?_⟩
    · rw [listeners_enterListener g hs] at he
      split at he
      · exact (List.mem_append.mp he).imp id List.mem_singleton.mp
      · exact Or.inl he
    · rw [listeners_enterListener g hs]
      split
      · exact List.mem_append_left _ he
      · exact he
  · have hlisteners : ∀ t q, (g.enterListener s p l).listeners t q = g.listeners t q := by
      intro t q
      unfold listeners
      rw [g.notifierOf_enterListener_absent hs]
    refine ⟨enterListener_absent_filed hg hs p l, fun {t q e} he => Or.inl ?_, fun {t q e} he => ?_⟩
    · rwa [hlisteners] at he
    · rwa [hlisteners]

end World

namespace World

section

variable {g g' : World κ} {tops : List WatcherId} (hg : g.Grown tops)

include hg

/-- Client code may come and go among the listeners. -/
theorem Grown.heard (houtline : g'.outline = g.outline) (hwatchers : g'.watchers = g.watchers)
    (htrees : g'.trees = g.trees) (hnext : g.nextSubscription ≤ g'.nextSubscription) (hfiled : g'.Filed)
    (hmember : ∀ {s p} {id : SubscriptionId} {w i : Nat}, (id, Listener.member w i) ∈ g'.listeners s p ↔
      (id, Listener.member w i) ∈ g.listeners s p)
    (hmembership : ∀ {c} {id : SubscriptionId} {w : Nat},
      (id, ChangeListener.membership w) ∈ g'.listenersOfCollection c ↔
        (id, ChangeListener.membership w) ∈ g.listenersOfCollection c)
    (hold : ∀ {s p e}, e ∈ g'.listeners s p → e ∈ g.listeners s p ∨ g.nextSubscription ≤ e.1)
    (holdChanges : ∀ {c e}, e ∈ g'.listenersOfCollection c →
      e ∈ g.listenersOfCollection c ∨ g.nextSubscription ≤ e.1) : Retold g g' := by
  constructor
  case watchers => exact hwatchers
  case trees =>
    unfold World.roots
    rw [htrees]
  case rooted =>
    intro hrooted t x r hx hr
    rw [htrees] at hx
    rw [hwatchers]
    exact hrooted t x r hx hr
  case next => exact hnext
  case filed => exact hfiled
  case sane => exact hg.sane.congr houtline
  case member => exact hmember
  case membership => exact hmembership
  case old => exact hold
  case oldChanges => exact holdChanges
  case known =>
    intro v hv
    rwa [World.hasValue_congr houtline]
  case home => exact fun p _ => World.home_congr houtline _ p

theorem Grown.enterListener (s : Subject) (p : String) (k : κ) (context : Option ObjectId) :
    Retold g (g.enterListener s p (.code k context)) := by
  obtain ⟨hfiled, hmem, hkeep⟩ := hg.filed.enterListener s p (.code k context)
  refine hg.heard (g.enterListener_outline _ _ _) (g.enterListener_watchers _ _ _) (g.enterListener_trees _ _ _)
    (Nat.le_succ _) hfiled ⟨fun hm => ?_, hkeep⟩
    (fun {_ _ _} => by rw [World.listenersOfCollection_enterListener]) (fun he => ?_) fun he => ?_
  · rcases hmem hm with hm | heq
    · exact hm
    · cases heq
  · rcases hmem he with he | rfl
    · exact Or.inl he
    · exact Or.inr (le_refl _)
  · rw [World.listenersOfCollection_enterListener] at he
    exact Or.inl he

theorem Grown.enterChangeListener {c : CollectionId} (hc : g.hasValue (.collection c) = true) (k : κ) :
    Retold g (g.enterChangeListener c (.code k)) := by
  have hfiled := hg.filed
  have hmem : ∀ {d e}, e ∈ (g.enterChangeListener c (.code k)).listenersOfCollection d ↔
      e ∈ g.listenersOfCollection d ∨ c = d ∧ e = (g.nextSubscription, .code k) := by
    intro d e
    rw [World.listenersOfCollection_enterChangeListener hfiled hc]
    split
    · rename_i heq
      simp [heq]
    · rename_i hne
      simp [hne]
  refine hg.heard (g.enterChangeListener_outline _ _) rfl rfl (Nat.le_succ _)
    (World.enterChangeListener_filed hfiled hc _) (fun {_ _ _ _ _} => by rw [World.listeners_enterChangeListener])
    ⟨fun hm => ?_, fun hm => hmem.mpr (Or.inl hm)⟩ (fun he => ?_) fun he => ?_
  · rcases hmem.mp hm with hm | ⟨-, heq⟩
    · exact hm
    · cases heq
  · rw [World.listeners_enterChangeListener] at he
    exact Or.inl he
  · rcases hmem.mp he with he | ⟨-, rfl⟩
    · exact Or.inl he
    · exact Or.inr (le_refl _)

/-- A client can take back a subscription of its own only. -/
theorem Grown.unsubscribe {s : Subject} {id : SubscriptionId} (howned : g.ownedByCode s id = true) :
    Retold g (g.unsubscribe s id) := by
  have hfiled := hg.filed
  have hlisteners : ∀ t q, (g.unsubscribe s id).listeners t q =
      if t ∈ g.reach s then (g.listeners t q).filter (·.1 ≠ id) else g.listeners t q :=
    (World.notifierOf_foldl_unsubscribe id (g.reach s) g hfiled.agrees).2
  have hsub : ∀ {t q e}, e ∈ (g.unsubscribe s id).listeners t q → e ∈ g.listeners t q := by
    intro t q e he
    rw [hlisteners] at he
    split at he
    · exact List.mem_of_mem_filter he
    · exact he
  obtain ⟨hwatchers, htrees⟩ := g.unsubscribe_watchers s id
  refine hg.heard (g.unsubscribe_outline s id) hwatchers htrees (g.nextSubscription_unsubscribe s id).ge
    (World.unsubscribe_filed hfiled s id) ⟨hsub, fun hm => ?_⟩
    (fun {_ _ _} => by rw [World.listenersOfCollection_unsubscribe]) (fun he => Or.inl (hsub he)) fun he => ?_
  · rename_i t p k w i
    rw [hlisteners]
    split
    · rename_i ht
      refine List.mem_filter.mpr ⟨hm, ?_⟩
      simp only [decide_eq_true_eq]
      rintro rfl
      have := List.all_eq_true.mp howned t ht
      rw [Notifier.listener?_of_mem (hfiled.agrees t) hm] at this
      cases this
    · exact hm
  · rw [World.listenersOfCollection_unsubscribe] at he
    exact Or.inl he

theorem Grown.unsubscribeChanges {c : CollectionId} {id : SubscriptionId} (howned : g.changeOwnedByCode c id = true) :
    Retold g (g.unsubscribeChanges c id) := by
  have hfiled := hg.filed
  have hlisteners := g.listenersOfCollection_unsubscribeChanges c id
  have hsub : ∀ {d e}, e ∈ (g.unsubscribeChanges c id).listenersOfCollection d → e ∈ g.listenersOfCollection d := by
    intro d e he
    rw [hlisteners] at he
    split at he
    · exact List.mem_of_mem_filter he
    · exact he
  refine hg.heard (g.unsubscribeChanges_outline c id) rfl rfl (le_refl _) (World.unsubscribeChanges_filed hfiled c id)
    (fun {_ _ _ _ _} => by rw [World.listeners_unsubscribeChanges]) ⟨hsub, fun hm => ?_⟩ (fun he => ?_) fun he =>
      Or.inl (hsub he)
  · rw [hlisteners]
    split
    · rename_i heq
      subst heq
      refine List.mem_filter.mpr ⟨hm, ?_⟩
      simp only [decide_eq_true_eq]
      rintro rfl
      have hnodup : ((g.listenersOfCollection c).map (·.1)).Nodup := by
        rw [List.Nodup, List.pairwise_map]
        exact (hfiled.changesAscending c).imp fun hab => ne_of_lt hab
      unfold World.changeOwnedByCode at howned
      rw [Table.get?_of_mem hnodup hm] at howned
      cases howned
    · exact hm
  · rw [World.listeners_unsubscribeChanges] at he
    exact Or.inl he

end

end World

section

variable {g g' : World κ} {agenda : List (Task κ)} {missed : SubscriptionId → List ObjectId}
  (h : Stable g agenda missed)

include h

theorem Stable.heard (hr : World.Retold g g') (houtline : g'.outline = g.outline) : Stable g' agenda missed :=
  h.retold hr (fun s p _ => World.memberValue_congr houtline s p) fun c _ => World.listOf_congr houtline c

theorem Stable.enterListener (s : Subject) (p : String) (k : κ) (context : Option ObjectId) :
    Stable (g.enterListener s p (.code k context)) agenda missed :=
  h.heard (h.grown.enterListener s p k context) (g.enterListener_outline _ _ _)

theorem Stable.enterChangeListener {c : CollectionId} (hc : g.hasValue (.collection c) = true) (k : κ) :
    Stable (g.enterChangeListener c (.code k)) agenda missed :=
  h.heard (h.grown.enterChangeListener hc k) (g.enterChangeListener_outline _ _)

theorem Stable.unsubscribe {s : Subject} {id : SubscriptionId} (howned : g.ownedByCode s id = true) :
    Stable (g.unsubscribe s id) agenda missed :=
  h.heard (h.grown.unsubscribe howned) (g.unsubscribe_outline s id)

theorem Stable.unsubscribeChanges {c : CollectionId} {id : SubscriptionId} (howned : g.changeOwnedByCode c id = true) :
    Stable (g.unsubscribeChanges c id) agenda missed :=
  h.heard (h.grown.unsubscribeChanges howned) (g.unsubscribeChanges_outline c id)

/-- Client code subscribes: at the object, or at its base if the base answers. -/
theorem Stable.register (s : Subject) (p : String) (k : κ) (context : Option ObjectId) (receiver : κ) :
    Stable (g.register s p (.code k context) (.code receiver)).1
      ((g.register s p (.code k context) (.code receiver)).2 ++ agenda) missed := by
  have hhere : Stable (g.enterListener s p (.code k context))
      ([.request (.call receiver (.subscribed g.nextSubscription))] ++ agenda) missed :=
    (h.enterListener s p k context).prepend (by simp [Task.isDelivery, Task.isBinding])
  unfold World.register
  cases s with
  | command c => exact hhere
  | object o =>
    simp only
    split
    · split
      · exact hhere
      · exact h.prepend (by simp [Task.isDelivery, Task.isBinding, Receiver.isBinding, Listener.watcher?])
    · exact hhere

theorem Stable.subscribe (s : Subject) (p : String) (k : κ) (context : Option ObjectId) (receiver : κ) :
    Stable (g.subscribe s p (.code k context) (.code receiver)).1
      ((g.subscribe s p (.code k context) (.code receiver)).2 ++ agenda) missed := by
  have hregister : Stable g ([.register s p (.code k context) (.code receiver)] ++ agenda) missed :=
    h.prepend (by simp [Task.isDelivery, Task.isBinding, Receiver.isBinding, Listener.watcher?])
  cases s with
  | command c => exact hregister
  | object o =>
    simp only [World.subscribe, h.grown.sane.takeHook o p]
    exact hregister

/-! ### Requests -/

theorem Stable.tended (ht : World.Tended g g')
    (hobjects : ∀ o p, g.hasObject o = true → g'.ownValue o p = g.ownValue o p)
    (hlist : ∀ c, g.hasValue (.collection c) = true → g'.listOf c = g.listOf c) : Stable g' agenda missed := by
  refine h.retold (ht.retold h.grown) (fun s p hs => ht.memberValue h.grown.sane hs fun o ho => hobjects o p ?_) hlist
  have := h.grown.sane.hasValue_home hs p
  rwa [ho] at this

theorem Stable.renamed (objectNames : Table String ObjectId) (collectionNames : Table String CollectionId)
    (commandNames : Table String CommandId) :
    Stable { g with objectNames, collectionNames, commandNames } agenda missed :=
  h.tended (h.grown.sane.renamed _ _ _) (fun _ _ _ => rfl) fun _ _ => rfl

theorem Stable.pushObject {x : Object κ} (hnotifier : x.notifier = {}) (hhooks : x.hooks = [])
    (hbase : ∀ b, x.base = some b → g.hasObject b = true) (hvalues : ∀ e ∈ x.properties, g.hasValue e.2 = true) :
    Stable { g with objects := g.objects.push x } agenda missed := by
  refine h.tended (h.grown.sane.pushObject hnotifier hhooks hbase hvalues) (fun o p ho => ?_) fun _ _ => rfl
  simp only [World.hasObject, decide_eq_true_eq] at ho
  simp only [World.ownValue, Array.getElem?_push, if_neg (ne_of_lt ho)]

theorem Stable.pushCollection {x : Collection κ} (hlisteners : x.listeners = [])
    (hitems : ∀ o ∈ x.items, g.hasObject o = true) :
    Stable { g with collections := g.collections.push x } agenda missed := by
  refine h.tended (h.grown.sane.pushCollection hlisteners hitems) (fun _ _ _ => rfl) fun c hc => ?_
  simp only [World.hasValue, decide_eq_true_eq] at hc
  simp only [World.listOf, Array.getElem?_push, if_neg (ne_of_lt hc)]

theorem Stable.pushCommand {x : Command κ} (hnotifier : x.notifier = {}) :
    Stable { g with commands := g.commands.push x } agenda missed :=
  h.tended (h.grown.sane.pushCommand hnotifier) (fun _ _ _ => rfl) fun _ _ => rfl

theorem Stable.enableCommand (c : CommandId) (enabled : Bool) :
    Stable (g.modifyCommand c fun x => { x with enabled }) agenda missed :=
  h.tended (h.grown.sane.enableCommand c enabled) (fun _ _ _ => rfl) fun _ _ => rfl

/-- Granting a request for other members. -/
theorem Stable.grant_edit {r : Request κ} {c : CollectionId} (hr : r.edits = some c) :
    Stable (g.grant agenda r).1 ((g.grant agenda r).2 ++ agenda) missed := by
  rcases g.grant_edit_cases hr agenda with heq | ⟨items, change, hitems, hchange, heq⟩ <;> rw [heq]
  · exact h
  · have hexist := World.hasObject_of_listOf h.grown.sane.items hitems
    refine h.changeItems c (fun o => Request.hasObject_of_members hchange hexist)
      (fun o => Request.hasObject_of_added hchange) fun old hold => ?_
    rw [hitems] at hold
    exact Option.some.inj hold ▸ Request.count_members hchange

/-- **Granting** a request of client code. -/
theorem Stable.grant (r : Request κ) (hhook : ∀ o p k, r ≠ .hook o p k) (hattach : ∀ t context, r ≠ .attach t context) :
    Stable (g.grant agenda r).1 ((g.grant agenda r).2 ++ agenda) missed := by
  cases r with
  | newObject name properties base own =>
    simp only [World.grant]
    split
    · rename_i hexist
      rw [Bool.and_eq_true, List.all_eq_true] at hexist
      refine (h.pushObject (x := { label := name, properties, base, own }) rfl rfl
        (fun b hb => ?_) hexist.2).renamed _ _ _
      have hbase : base = some b := hb
      simpa [hbase] using hexist.1
    · exact h
  | newCollection name items free =>
    simp only [World.grant]
    split
    · rename_i hexist
      exact (h.pushCollection (x := { label := name, items, free }) rfl (List.all_eq_true.mp hexist)).renamed _ _ _
    · exact h
  | newCommand name takesArgument => exact (h.pushCommand (x := { takesArgument }) rfl).renamed _ _ _
  | nameCommand name c =>
    simp only [World.grant]
    split
    · exact h.renamed _ _ _
    · exact h
  | forgetObject name => exact h.renamed _ _ _
  | forgetCollection name => exact h.renamed _ _ _
  | write o p v =>
    simp only [World.grant]
    split
    · rename_i hexist
      rw [Bool.and_eq_true] at hexist
      exact h.write o p hexist.2
    · exact h
  | notify o p => exact h.round _ p
  | hook o p k => exact absurd rfl (hhook o p k)
  | subscribe s p k context receiver =>
    simp only [World.grant]
    split
    · exact h.prepend (by simp [Task.isDelivery, Task.isBinding, Receiver.isBinding, Listener.watcher?])
    · exact h
  | unsubscribe s id =>
    simp only [World.grant]
    split
    · rename_i howned
      exact h.unsubscribe howned
    · exact h
  | subscribeChanges c k receiver =>
    simp only [World.grant]
    split
    · rename_i hexist
      exact (h.enterChangeListener hexist k).prepend (by simp [Task.isDelivery, Task.isBinding])
    · exact h
  | unsubscribeChanges c id =>
    simp only [World.grant]
    split
    · rename_i howned
      exact h.unsubscribeChanges howned
    · exact h
  | push | insert | remove | clear => exact h.grant_edit rfl
  | report c items change =>
    simp only [World.grant]
    split
    · rename_i x hx
      split
      · rename_i hexist
        rw [Bool.and_eq_true, List.all_eq_true] at hexist
        refine h.changeItems c (fun o ho => ?_) (fun o ho => ?_) fun old hold => ?_
        · cases items with
          | none =>
            refine h.grown.sane.items c o ?_
            simpa [World.itemsOf, hx] using ho
          | some items => exact hexist.2 o (List.mem_append_left _ (List.mem_append_left _ ho))
        · exact hexist.2 o (List.mem_append_left _ (List.mem_append_right _ ho))
        · simp [World.listOf, hx, hexist.1] at hold
      · exact h
    · exact h
  | perform a context =>
    simp only [World.grant]
    split
    · exact h.prepend (by simp [Task.isDelivery, Task.isBinding])
    · exact h
  | newTree plan => exact h.newTree plan
  | attach t context => exact absurd rfl (hattach t context)
  | dispose t => exact h.dispose t
  | drop t => exact (h.giveUp t).bury _ rfl t
  | call k signal => exact h
  | hold v => exact h

/-! ### Actions -/

theorem Stable.set (o : ObjectId) (p : String) {v : Value} (hv : g.hasValue v = true) :
    Stable (g.set o p v).1 ((g.set o p v).2 ++ agenda) missed := by
  unfold World.set
  split
  · exact h
  · exact h.write o p hv

theorem Stable.settle (L : Language κ σ) (scene : Scene κ) (hscene : scene.world = g) (st : σ) (c : CommandId) :
    Stable (L.settle scene st c).1 agenda missed := by
  subst hscene
  unfold Language.settle
  simp only
  split
  · split
    · exact h.enableCommand c _
    · exact h
  · exact h

theorem Stable.refresh (L : Language κ σ) (scene : Scene κ) (hscene : scene.world = g) (st : σ) (c : CommandId) :
    Stable (L.refresh scene st c).world ((L.refresh scene st c).tasks ++ agenda) missed := by
  subst hscene
  unfold Language.refresh
  simp only
  split
  · split
    · rename_i x hx hself
      simp only
      split
      · exact h.enableCommand c _
      · have hround := (h.enableCommand c (L.canRun scene st c 0).1).round (.command c) canExecute
        have hnotifiers := (h.grown.sane.enableCommand c (L.canRun scene st c 0).1).notifiers (.command c)
        unfold World.round at hround ⊢
        rwa [hnotifiers] at hround
    · exact h.round (.command c) canExecute
  · exact h

/-- **Performing** an action. -/
theorem Stable.perform (L : Language κ σ) (scene : Scene κ) (hscene : scene.world = g) (st : σ) (a : Action κ)
    (context : ObjectId) :
    Stable (L.perform scene st a context).world ((L.perform scene st a context).tasks ++ agenda) missed := by
  subst hscene
  cases a with
  | code k => exact h.prepend (by simp [Language.perform, Task.isDelivery, Task.isBinding])
  | assign source target =>
    simp only [Language.perform]
    split
    · rename_i hv
      exact h.set context target hv
    · exact h
  | create binding target =>
    simp only [Language.perform]
    set x : Command κ := { takesArgument := binding.takesArgument, bound := some (binding, context) } with hx
    set g₁ : World κ := { scene.world with commands := scene.world.commands.push x } with hg₁
    have hsettled : Stable (L.settle { scene with world := g₁ } st scene.world.commands.size).1 agenda missed :=
      (h.pushCommand (x := x) rfl).settle L { scene with world := g₁ } rfl st _
    refine hsettled.set context target ?_
    -- settling a command does not make it go away
    simp only [Language.settle, hg₁, World.hasValue, decide_eq_true_eq]
    split
    · split
      · simp [World.modifyCommand]
      · simp
    · simp
  | refresh takesArgument target =>
    simp only [Language.perform]
    split
    · exact h.refresh L scene rfl st _
    · exact h
  | settle takesArgument target =>
    simp only [Language.perform]
    split
    · exact h.settle L scene rfl st _
    · exact h
  | onBase inner => exact h.prepend (by simp [Language.perform, Task.isDelivery, Task.isBinding])

end

end LiveRules
