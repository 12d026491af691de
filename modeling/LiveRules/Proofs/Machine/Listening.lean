/-
# Who listens

A step may add to those who listen to an object, to a command or to a collection, under
ids that were never given out before, and it may take some of them back. So a subscription
that is still there after any number of steps has been there all the while, once, and at
the same place.

Key definitions: `Notifier.Amended`, `Table.Amended`, `World.Relists`.
Key theorems: `Notifier.Amended.keeps`, `Table.Amended.keeps`, `Language.step_relists`.
-/
import LiveRules.Proofs.Machine.Alterations

namespace LiveRules

variable {κ σ : Type} {L : Language κ σ}

/-! ### One notifier -/

namespace Notifier

variable {α : Type} {first bound bound' : SubscriptionId} {n n' n'' : Notifier α}

/-- Subscriptions have been entered, under ids from `first` on and below `bound`, each larger
than those before, and taken back. -/
inductive Amended (first : SubscriptionId) (n : Notifier α) : SubscriptionId → Notifier α → Prop
  | refl {bound : SubscriptionId} (hbound : first ≤ bound) : Amended first n bound n
  | subscribe {bound bound' : SubscriptionId} {n' : Notifier α} (h : Amended first n bound n') (p : String)
      {id : SubscriptionId} (hid : bound ≤ id) (hbound : id < bound') (l : α) :
      Amended first n bound' (n'.subscribe p id l)
  | unsubscribe {bound : SubscriptionId} {n' : Notifier α} (h : Amended first n bound n') (id : SubscriptionId) :
      Amended first n bound (n'.unsubscribe id)

namespace Amended

theorem le (h : Amended first n bound n') : first ≤ bound := by
  induction h with
  | refl hbound => exact hbound
  | subscribe _ _ hid hlt _ ih => exact (ih.trans hid).trans hlt.le
  | unsubscribe _ _ ih => exact ih

theorem trans (h : Amended first n bound n') (h' : Amended bound n' bound' n'') : Amended first n bound' n'' := by
  have mono : ∀ {bound bound' n'}, Amended first n bound n' → bound ≤ bound' → Amended first n bound' n' := by
    intro bound bound' n' h hle
    induction h with
    | refl hbound => exact .refl (hbound.trans hle)
    | subscribe h p hid hlt l _ => exact h.subscribe p hid (lt_of_lt_of_le hlt hle) l
    | unsubscribe _ id ih => exact (ih hle).unsubscribe id
  induction h' with
  | refl hbound => exact mono h hbound
  | subscribe _ p hid hlt l ih => exact ih.subscribe p hid hlt l
  | unsubscribe _ id ih => exact ih.unsubscribe id

theorem older (h : Amended first n bound n') (hn : ∀ p, ∀ e ∈ n.listenersOf p, e.1 < first) :
    ∀ p, ∀ e ∈ n'.listenersOf p, e.1 < bound := by
  induction h with
  | refl hbound => exact fun p e he => lt_of_lt_of_le (hn p e he) hbound
  | subscribe _ q hid hlt l ih =>
    intro p e he
    rw [listenersOf_subscribe] at he
    split at he
    · rcases List.mem_append.mp he with he | he
      · exact (lt_of_lt_of_le (ih p e he) hid).trans hlt
      · exact List.mem_singleton.mp he ▸ hlt
    · exact (lt_of_lt_of_le (ih p e he) hid).trans hlt
  | unsubscribe _ id ih =>
    intro p e he
    rw [listenersOf_unsubscribe_of_owner] at he
    split at he
    · exact ih p e (List.mem_of_mem_filter he)
    · exact ih p e he

/-- **An old subscription that is still there** was there before, and stands on the list
as it did. -/
theorem keeps (h : Amended first n bound n') {id : SubscriptionId} (hid : id < first) {p : String}
    (howner : n'.owners.get? id = some p) : n.owners.get? id = some p ∧
      (n'.listenersOf p).filter (·.1 = id) = (n.listenersOf p).filter (·.1 = id) := by
  induction h with
  | refl => exact ⟨howner, rfl⟩
  | @subscribe _ _ n' h q i hi _ l ih =>
    have hne : i ≠ id := (lt_of_lt_of_le hid (h.le.trans hi)).ne'
    have hget : (n'.subscribe q i l).owners.get? id = if i = id then some q else n'.owners.get? id := Table.get?_set ..
    rw [hget, if_neg hne] at howner
    obtain ⟨hold, hsame⟩ := ih howner
    refine ⟨hold, ?_⟩
    rw [listenersOf_subscribe, ← hsame]
    split
    · simp [hne]
    · rfl
  | @unsubscribe _ n' _ i ih =>
    rw [owners_unsubscribe] at howner
    by_cases hne : i = id
    · rw [if_pos hne] at howner
      cases howner
    · rw [if_neg hne] at howner
      obtain ⟨hold, hsame⟩ := ih howner
      refine ⟨hold, ?_⟩
      rw [listenersOf_unsubscribe_of_owner, ← hsame]
      split
      · rw [List.filter_filter]
        refine List.filter_congr fun e _ => ?_
        by_cases he : e.1 = id <;> simp [he, Ne.symm hne]
      · rfl

end Amended
end Notifier

/-! ### One collection -/

namespace Table

variable {α : Type} {first bound : SubscriptionId} {t t' t'' : Table SubscriptionId α}

/-- Listeners have been entered, under ids from `first` on and below `bound`, and taken
back. -/
inductive Amended (first bound : SubscriptionId) (t : Table SubscriptionId α) : Table SubscriptionId α → Prop
  | refl : Amended first bound t t
  | enter {t' : Table SubscriptionId α} (h : Amended first bound t t') {id : SubscriptionId} (hfirst : first ≤ id)
      (hbound : id < bound) (l : α) : Amended first bound t (t'.set id l)
  | erase {t' : Table SubscriptionId α} (h : Amended first bound t t') (id : SubscriptionId) :
      Amended first bound t (t'.erase id)

theorem filter_set_of_ne (t : Table SubscriptionId α) {i id : SubscriptionId} (hne : i ≠ id) (l : α) :
    (t.set i l).filter (·.1 = id) = t.filter (·.1 = id) := by
  induction t with
  | nil => simp [set, hne]
  | cons e t ih =>
    rw [set]
    split
    · rename_i heq
      simp [hne, heq]
    · rw [List.filter_cons, List.filter_cons, ih]

theorem filter_of_mem (h : (t.map (·.1)).Nodup) {e : SubscriptionId × α} (he : e ∈ t) :
    t.filter (·.1 = e.1) = [e] := by
  induction t with
  | nil => cases he
  | cons d t ih =>
    rw [List.map_cons, List.nodup_cons] at h
    rcases List.mem_cons.mp he with rfl | he
    · have hnone : t.filter (·.1 = e.1) = [] := List.filter_eq_nil_iff.mpr fun d hd heq =>
        h.1 (of_decide_eq_true heq ▸ List.mem_map_of_mem hd)
      rw [List.filter_cons_of_pos (by simp), hnone]
    · have hne : d.1 ≠ e.1 := fun heq => h.1 (heq ▸ List.mem_map_of_mem he)
      rw [List.filter_cons_of_neg (by simpa using hne), ih h.2 he]

namespace Amended

theorem mono {first' bound' : SubscriptionId} (h : Amended first bound t t') (hfirst : first' ≤ first)
    (hbound : bound ≤ bound') : Amended first' bound' t t' := by
  induction h with
  | refl => exact .refl
  | enter _ hid hlt l ih => exact ih.enter (hfirst.trans hid) (lt_of_lt_of_le hlt hbound) l
  | erase _ id ih => exact ih.erase id

theorem trans (h : Amended first bound t t') (h' : Amended first bound t' t'') : Amended first bound t t'' := by
  induction h' with
  | refl => exact h
  | enter _ hid hlt l ih => exact ih.enter hid hlt l
  | erase _ id ih => exact ih.erase id

theorem older (h : Amended first bound t t') (ht : ∀ e ∈ t, e.1 < bound) : ∀ e ∈ t', e.1 < bound := by
  induction h with
  | refl => exact ht
  | @enter t' _ id _ hlt l ih =>
    intro e he
    have hkey : e.1 ∈ (t'.set id l).map (·.1) := List.mem_map_of_mem he
    rw [← isSome_get?, get?_set] at hkey
    split at hkey
    · rename_i heq
      exact heq ▸ hlt
    · obtain ⟨d, hd, heq⟩ := List.mem_map.mp (isSome_get?.mp hkey)
      exact heq ▸ ih d hd
  | erase _ id ih => exact fun e he => ih e (List.mem_of_mem_filter he)

theorem nodup (h : Amended first bound t t') (ht : (t.map (·.1)).Nodup) : (t'.map (·.1)).Nodup := by
  induction h with
  | refl => exact ht
  | enter _ _ _ l ih => exact nodup_set ih _ l
  | erase _ id ih => exact nodup_erase ih id

/-- **An old listener that is still there** was there before, and stands in the table as it
did. -/
theorem keeps (h : Amended first bound t t') {id : SubscriptionId} (hid : id < first) (hhas : t'.has id = true) :
    t.has id = true ∧ t'.filter (·.1 = id) = t.filter (·.1 = id) := by
  induction h with
  | refl => exact ⟨hhas, rfl⟩
  | @enter t' _ i hfirst _ l ih =>
    have hne : i ≠ id := (lt_of_lt_of_le hid hfirst).ne'
    rw [has, get?_set, if_neg hne] at hhas
    obtain ⟨hold, hsame⟩ := ih hhas
    exact ⟨hold, (t'.filter_set_of_ne hne l).trans hsame⟩
  | @erase t' _ i ih =>
    have hget := get?_erase t' i id
    by_cases hne : i = id
    · rw [has, hget, if_pos hne] at hhas
      cases hhas
    · rw [has, hget, if_neg hne] at hhas
      obtain ⟨hold, hsame⟩ := ih hhas
      refine ⟨hold, Eq.trans ?_ hsame⟩
      rw [Table.erase, List.filter_filter]
      refine List.filter_congr fun e _ => ?_
      by_cases he : e.1 = id <;> simp [he, Ne.symm hne]

end Amended
end Table

/-! ### One step -/

namespace World

variable {g g' g'' : World κ}

/-- The listeners of everything are amended by ids that are given out meanwhile. -/
structure Relists (g g' : World κ) : Prop where
  next : g.nextSubscription ≤ g'.nextSubscription
  subject : ∀ s, (g.notifierOf s).Amended g.nextSubscription g'.nextSubscription (g'.notifierOf s)
  collection : ∀ c, (g.listenersOfCollection c).Amended g.nextSubscription g'.nextSubscription
    (g'.listenersOfCollection c)

theorem Relists.notifier (h : g.Relists g') (c : CommandId) : (g.notifierOf (.command c)).Amended g.nextSubscription
    g'.nextSubscription (g'.notifierOf (.command c)) :=
  h.subject (.command c)

theorem Relists.of_listeners (hnext : g.nextSubscription ≤ g'.nextSubscription)
    (hsubjects : ∀ s, g'.notifierOf s = g.notifierOf s)
    (hcollections : ∀ c, g'.listenersOfCollection c = g.listenersOfCollection c) : g.Relists g' :=
  ⟨hnext, fun s => hsubjects s ▸ .refl hnext, fun c => hcollections c ▸ .refl⟩

theorem Relists.of_things (hnext : g.nextSubscription ≤ g'.nextSubscription) (hobjects : g'.objects = g.objects)
    (hcommands : g'.commands = g.commands) (hcollections : g'.collections = g.collections) : g.Relists g' :=
  .of_listeners hnext (fun s => by cases s <;> simp only [notifierOf, hobjects, hcommands])
    fun c => by simp only [listenersOfCollection, hcollections]

theorem Relists.refl (g : World κ) : g.Relists g :=
  .of_things (le_refl _) rfl rfl rfl

theorem Relists.trans (h : g.Relists g') (h' : g'.Relists g'') : g.Relists g'' where
  next := h.next.trans h'.next
  subject s := (h.subject s).trans (h'.subject s)
  collection c := ((h.collection c).mono (le_refl _) h'.next).trans ((h'.collection c).mono h.next (le_refl _))

theorem relists_modifyNotifier (g : World κ) (s : Subject) {f : Notifier (Listener κ) → Notifier (Listener κ)}
    (hf : ∀ n, Notifier.Amended g.nextSubscription n g.nextSubscription (f n)) : g.Relists (g.modifyNotifier s f) := by
  have hnext : (g.modifyNotifier s f).nextSubscription = g.nextSubscription := by cases s <;> rfl
  refine ⟨hnext.ge, fun t => ?_, fun c => ?_⟩
  · rw [hnext, notifierOf_modifyNotifier]
    split
    · exact hf _
    · exact .refl (le_refl _)
  · rw [listenersOfCollection_modifyNotifier]
    exact .refl

theorem relists_unsubscribe (g : World κ) (s : Subject) (id : SubscriptionId) : g.Relists (g.unsubscribe s id) := by
  unfold World.unsubscribe
  generalize g.reach s = ss
  induction ss generalizing g with
  | nil => exact .refl g
  | cons s ss ih => exact (g.relists_modifyNotifier s fun n => .unsubscribe (.refl (le_refl _)) id).trans (ih _)

theorem relists_enterListener (g : World κ) (s : Subject) (p : String) (l : Listener κ) :
    g.Relists (g.enterListener s p l) := by
  refine ⟨Nat.le_succ _, fun t => ?_, fun c => ?_⟩
  · have hentered : (g.enterListener s p l).notifierOf t = _ :=
      g.notifierOf_modifyNotifier s t (·.subscribe p g.nextSubscription l)
    rw [hentered]
    split
    · exact .subscribe (.refl (le_refl _)) p (le_refl _) (Nat.lt_succ_self _) l
    · exact .refl (Nat.le_succ _)
  · rw [listenersOfCollection_enterListener]
    exact .refl

theorem relists_modifyListeners (g : World κ) (c : CollectionId)
    (f : Table SubscriptionId (ChangeListener κ) → Table SubscriptionId (ChangeListener κ)) {next : SubscriptionId}
    (hnext : g.nextSubscription ≤ next) (hf : ∀ t, Table.Amended g.nextSubscription next t (f t)) :
    g.Relists { g.modifyCollection c fun x => { x with listeners := f x.listeners } with
      nextSubscription := next } := by
  refine ⟨hnext, fun s => ?_, fun d => ?_⟩
  · cases s <;> exact .refl hnext
  · have hmodified := g.listenersOfCollection_modifyCollection c d f
    split at hmodified
    · exact (show _ = f _ from hmodified) ▸ hf _
    · exact (show _ = g.listenersOfCollection d from hmodified) ▸ .refl

theorem relists_enterChangeListener (g : World κ) (c : CollectionId) (l : ChangeListener κ) :
    g.Relists (g.enterChangeListener c l) :=
  g.relists_modifyListeners c (·.set g.nextSubscription l) (Nat.le_succ _)
    fun _ => .enter .refl (le_refl _) (Nat.lt_succ_self _) l

theorem relists_unsubscribeChanges (g : World κ) (c : CollectionId) (id : SubscriptionId) :
    g.Relists (g.unsubscribeChanges c id) :=
  g.relists_modifyListeners c (·.erase id) (le_refl _) fun _ => .erase .refl id

theorem relists_release (g : World κ) (w : WatcherId) : g.Relists (g.release w) := by
  unfold World.release
  split
  · rename_i plan site b _
    simp only
    generalize hg : ({ g with watchers := g.watchers.setIfInBounds w (.object plan site none) } : World κ) = g₀
    have h₀ : g.Relists g₀ := hg ▸ .of_things (le_refl _) rfl rfl rfl
    clear hg
    induction b.subscriptions generalizing g₀ with
    | nil => exact h₀
    | cons id ids ih => exact ih _ (h₀.trans (g₀.relists_unsubscribe _ id))
  · rename_i item membership site b _
    have hdormant : g.Relists { g with
        watchers := g.watchers.setIfInBounds w (.collection item membership site none) } :=
      .of_things (le_refl _) rfl rfl rfl
    exact hdormant.trans (relists_unsubscribeChanges _ b.collection b.subscription)
  · exact .refl g

theorem relists_unbind (g : World κ) (w : WatcherId) : g.Relists (g.unbind w) := by
  unfold World.unbind
  generalize g.nodes w = ws
  induction ws generalizing g with
  | nil => exact .refl g
  | cons w ws ih => exact (g.relists_release w).trans (ih _)

theorem relists_foldl_unbind (ws : List WatcherId) (g : World κ) : g.Relists (ws.foldl World.unbind g) := by
  induction ws generalizing g with
  | nil => exact .refl g
  | cons w ws ih => exact (g.relists_unbind w).trans (ih _)

theorem relists_dispose (g : World κ) (t : TreeId) : g.Relists (g.dispose t) := by
  unfold World.dispose
  split
  · have hmodified : g.Relists (g.modifyTree t fun x => { x with root := none }) := .of_things (le_refl _) rfl rfl rfl
    exact hmodified.trans (relists_unbind _ _)
  · exact .refl g

theorem relists_bury (scene : Scene κ) (t : TreeId) : scene.world.Relists (scene.bury t) := by
  rcases scene.bury_cases t with hbury | hbury
  · exact hbury ▸ scene.world.relists_dispose t
  · exact hbury ▸ .refl _

theorem relists_bindCollection (g : World κ) (w : WatcherId) (b : BoundCollection) : g.Relists (g.bindCollection w b) :=
  .of_things (le_refl _) rfl rfl rfl

theorem relists_bind (g : World κ) (w : WatcherId) (v : Value) : g.Relists (g.bind w v).1 := by
  have hunbind := g.relists_unbind w
  unfold World.bind
  simp only
  split
  · split <;> exact hunbind
  · split
    · exact hunbind.trans (relists_enterChangeListener _ _ _)
    · exact hunbind
  · exact hunbind

theorem relists_enrol (g : World κ) (e : Enrolment κ) : g.Relists (g.enrol e).1 := by
  unfold World.enrol
  split
  · exact .of_things (le_refl _) rfl rfl rfl
  · split
    · exact .of_things (le_refl _) rfl rfl rfl
    · split
      · exact .of_things (le_refl _) rfl rfl rfl
      · exact relists_foldl_unbind _ g

theorem relists_bindMembers (g : World κ) (b : Binding κ) : g.Relists (g.bindMembers b).1 := by
  unfold World.bindMembers
  simp only
  split
  · exact .of_things (le_refl _) rfl rfl rfl
  all_goals exact .refl g

theorem relists_deliverChange (scene : Scene κ) (c : CollectionId) (id : SubscriptionId) (l : ChangeListener κ)
    (change : Change) : scene.world.Relists (scene.deliverChange c id l change).1 := by
  unfold Scene.deliverChange
  simp only
  split
  · split
    · exact .refl _
    · split
      · unfold World.membershipChanged
        split
        · exact (relists_bindCollection _ _ _).trans (relists_foldl_unbind _ _)
        · exact .refl _
      · exact .refl _
  · exact .refl _

theorem relists_attach (g : World κ) (t : TreeId) (context : ObjectId) : g.Relists (g.attach t context).1 := by
  have hdispose := g.relists_dispose t
  unfold World.attach
  simp only
  split
  · exact hdispose.trans (.of_things (le_refl _) rfl rfl rfl)
  · exact hdispose

/-- What is done to an object apart from its notifier is of no concern. -/
theorem relists_modifyObject (g : World κ) (o : ObjectId) {f : Object κ → Object κ}
    (hf : ∀ x, (f x).notifier = x.notifier) : g.Relists (g.modifyObject o f) := by
  refine .of_listeners (le_refl _) (fun s => ?_) fun c => rfl
  cases s with
  | command c => rfl
  | object o' =>
    simp only [notifierOf, modifyObject, Array.getElem?_modify]
    split
    · cases g.objects[o']? <;> simp [hf]
    · rfl

theorem relists_subscribe (g : World κ) (s : Subject) (p : String) (l : Listener κ) (r : Receiver κ) :
    g.Relists (g.subscribe s p l r).1 := by
  unfold World.subscribe
  split
  · split
    · rename_i hhook
      obtain ⟨i, rfl⟩ := takeHook_eq hhook
      exact g.relists_modifyObject _ fun _ => rfl
    · exact .refl g
  · exact .refl g

theorem relists_register (g : World κ) (s : Subject) (p : String) (l : Listener κ) (r : Receiver κ) :
    g.Relists (g.register s p l r).1 := by
  have hhere : g.Relists ((g.enterListener s p l).answer g.nextSubscription r).1 := by
    refine (g.relists_enterListener s p l).trans ?_
    cases r with
    | code k => exact .refl _
    | binding b =>
      unfold World.answer World.bindChild
      simp only
      split
      · exact .refl _
      · exact .refl _
      all_goals exact .of_things (le_refl _) rfl rfl rfl
  unfold World.register
  simp only
  split
  · split
    · split
      · exact hhere
      · exact .refl g
    · exact hhere
  · exact hhere

/-- What is made has no listeners. -/
theorem relists_pushObject (g : World κ) (x : Object κ) (hx : x.notifier = {}) :
    g.Relists { g with objects := g.objects.push x } := by
  refine .of_listeners (le_refl _) (fun s => ?_) fun _ => rfl
  cases s with
  | command c => rfl
  | object o =>
    simp only [notifierOf, Array.getElem?_push]
    split
    · rename_i ho
      simp [ho, hx]
    · rfl

theorem relists_pushCollection (g : World κ) (x : Collection κ) (hx : x.listeners = []) :
    g.Relists { g with collections := g.collections.push x } := by
  refine .of_listeners (le_refl _) (fun s => by cases s <;> rfl) fun c => ?_
  simp only [listenersOfCollection, Array.getElem?_push]
  split
  · rename_i hc
    simp [hc, hx]
  · rfl

theorem relists_pushCommand (g : World κ) (x : Command κ) (hx : x.notifier = {}) :
    g.Relists { g with commands := g.commands.push x } := by
  refine .of_listeners (le_refl _) (fun s => ?_) fun _ => rfl
  cases s with
  | object o => rfl
  | command c =>
    simp only [notifierOf, Array.getElem?_push]
    split
    · rename_i hc
      simp [hc, hx]
    · rfl

/-- Evaluating a command touches no listener. -/
theorem relists_enable (g : World κ) (c : CommandId) (enabled : Bool) :
    g.Relists (g.modifyCommand c fun x => { x with enabled }) := by
  refine .of_listeners (le_refl _) (fun s => ?_) fun _ => rfl
  cases s with
  | object o => rfl
  | command d =>
    simp only [notifierOf, modifyCommand, Array.getElem?_modify]
    split
    · cases g.commands[d]? <;> rfl
    · rfl

theorem relists_write (g : World κ) (o : ObjectId) (p : String) (v : Value) : g.Relists (g.write o p v).1 :=
  g.relists_modifyObject _ fun _ => rfl

theorem relists_set (g : World κ) (o : ObjectId) (p : String) (v : Value) : g.Relists (g.set o p v).1 := by
  unfold World.set
  split
  · exact .refl g
  · exact g.relists_write o p v

/-- Who is a member makes no difference to who listens. -/
theorem listenersOfCollection_changeItems (g : World κ) (c d : CollectionId) (items : List ObjectId) (change : Change) :
    (g.changeItems c items change).1.listenersOfCollection d = g.listenersOfCollection d := by
  simp only [changeItems, listenersOfCollection, modifyCollection, Array.getElem?_modify]
  split
  · cases g.collections[d]? <;> rfl
  · rfl

theorem relists_changeItems (g : World κ) (c : CollectionId) (items : List ObjectId) (change : Change) :
    g.Relists (g.changeItems c items change).1 :=
  .of_listeners (le_refl _) (fun s => by cases s <;> rfl) fun d => g.listenersOfCollection_changeItems c d items change

theorem relists_grant (g : World κ) (rest : List (Task κ)) (r : Request κ) : g.Relists (g.grant rest r).1 := by
  have hsame : g.Relists g := .refl g
  have hnamed : ∀ {g' : World κ} (objectNames : Table String ObjectId) (collectionNames : Table String CollectionId)
      (commandNames : Table String CommandId), g.Relists g' →
        g.Relists { g' with objectNames, collectionNames, commandNames } :=
    fun _ _ _ h => h.trans (.of_things (le_refl _) rfl rfl rfl)
  cases r <;> simp only [World.grant]
  case newObject =>
    split
    · exact hnamed _ _ _ (g.relists_pushObject _ rfl)
    · exact hsame
  case newCollection =>
    split
    · exact hnamed _ _ _ (g.relists_pushCollection _ rfl)
    · exact hsame
  case newCommand => exact hnamed _ _ _ (g.relists_pushCommand _ rfl)
  case nameCommand =>
    split
    · exact hnamed _ _ _ hsame
    · exact hsame
  case forgetObject | forgetCollection => exact hnamed _ _ _ hsame
  case write =>
    split
    · exact g.relists_write _ _ _
    · exact hsame
  case hook => exact g.relists_modifyObject _ fun _ => rfl
  case subscribe => split <;> exact hsame
  case unsubscribe =>
    split
    · exact g.relists_unsubscribe _ _
    · exact hsame
  case subscribeChanges =>
    split
    · exact g.relists_enterChangeListener _ _
    · exact hsame
  case unsubscribeChanges =>
    split
    · exact g.relists_unsubscribeChanges _ _
    · exact hsame
  case push | insert | remove | clear | report =>
    split
    · split
      all_goals first | exact hsame | exact g.relists_changeItems _ _ _
    · exact hsame
  case newTree => exact .of_things (le_refl _) rfl rfl rfl
  case attach =>
    split
    · exact g.relists_attach _ _
    · exact hsame
  case dispose t => exact g.relists_dispose t
  case drop t =>
    have hgiven : g.Relists (g.modifyTree t fun x => { x with dropped := true }) := .of_things (le_refl _) rfl rfl rfl
    exact hgiven.trans (relists_bury { world := g.modifyTree t fun x => { x with dropped := true }, agenda := rest } t)
  all_goals exact hsame

end World

theorem Language.relists_settle (L : Language κ σ) (scene : Scene κ) (s : σ) (c : CommandId) :
    scene.world.Relists (L.settle scene s c).1 := by
  unfold Language.settle
  simp only
  split
  · split
    · exact World.relists_enable _ c _
    · exact .refl _
  · exact .refl _

theorem Language.relists_refresh (L : Language κ σ) (scene : Scene κ) (s : σ) (c : CommandId) :
    scene.world.Relists (L.refresh scene s c).world := by
  unfold Language.refresh
  simp only
  split
  · split
    · exact World.relists_enable _ c _
    · exact .refl _
  · exact .refl _

theorem Language.relists_perform (L : Language κ σ) (scene : Scene κ) (s : σ) (a : Action κ) (context : ObjectId) :
    scene.world.Relists (L.perform scene s a context).world := by
  cases a <;> simp only [Language.perform]
  case code => exact .refl _
  case assign =>
    split
    · exact World.relists_set _ _ _ _
    · exact .refl _
  case create binding target =>
    set x : Command κ := { takesArgument := binding.takesArgument, bound := some (binding, context) } with hx
    have hmade := scene.world.relists_pushCommand x rfl
    have hsettled :=
      L.relists_settle { scene with world := { scene.world with commands := scene.world.commands.push x } }
      s scene.world.commands.size
    exact (hmade.trans hsettled).trans (World.relists_set _ _ _ _)
  case refresh =>
    split
    · exact L.relists_refresh scene s _
    · exact .refl _
  case settle =>
    split
    · exact L.relists_settle scene s _
    · exact .refl _
  case onBase => exact .refl _

theorem Language.relists_carry (L : Language κ σ) (g : World κ) (s : σ) (t : Task κ) (rest : List (Task κ)) :
    g.Relists (L.carry g s t rest).world := by
  cases t with
  | request r =>
    cases r with
    | call k signal => exact .refl g
    | _ => exact g.relists_grant rest _
  | perform a context => exact L.relists_perform { world := g, agenda := .perform a context :: rest } s a context
  | fire site batch => exact .refl g
  | deliver subject id l => exact .refl g
  | deliverChange c id l change =>
    exact World.relists_deliverChange { world := g, agenda := .deliverChange c id l change :: rest } c id l change
  | bind w v => exact g.relists_bind w v
  | bindMembers b => exact g.relists_bindMembers b
  | enrol e => exact g.relists_enrol e
  | subscribe subject p l r => exact g.relists_subscribe subject p l r
  | register subject p l r => exact g.relists_register subject p l r
  | plant t w => exact .of_things (le_refl _) rfl rfl rfl
  | release held =>
    cases held with
    | tree t => exact World.relists_bury { world := g, agenda := rest } t
    | value v => exact .refl g
    | watcher w => exact .refl g

/-- **Every step** amends the listeners there are. -/
theorem Language.step_relists (L : Language κ σ) (m : Machine κ σ) : m.world.Relists (L.step m).world := by
  obtain ⟨⟨g, agenda⟩, s⟩ := m
  cases agenda with
  | nil => exact .refl g
  | cons t rest => exact L.relists_carry g s t rest

theorem Resumes.relists {later : List (Machine κ σ)} {m₀ m : Machine κ σ} (h : Resumes L m₀ later m) :
    m₀.world.Relists m.world := by
  induction h with
  | here => exact .refl _
  | ask _ requests s' ih => exact ih
  | @step later m _ ih => exact ih.trans (L.step_relists m)

end LiveRules
