/-
# Who is subscribed where

The listeners of a property of one object or command, and those of a
collection, after subscribing and after taking subscriptions back. In a world
where everything is `Filed`, each notifier's indexes agree, ids are given out in
ascending order, and a subscription is in one place only; then subscribing puts
one listener at the end of one list, and taking a subscription back takes it out
of the one list it is in.

Key definitions: `World.listeners`, `World.Filed`.
Key theorems: `World.listeners_enterListener`, `World.enterListener_filed`,
`World.listeners_unsubscribe`, `World.unsubscribe_filed`.
-/
import LiveRules.Proofs.Notifier
import LiveRules.Proofs.World.Outline

namespace LiveRules
namespace World

variable {κ : Type}

/-- The listeners of a property at this very object or command. -/
def listeners (g : World κ) (s : Subject) (property : String) : List (SubscriptionId × Listener κ) :=
  (g.notifierOf s).listenersOf property

/-- Each subscription is in one place, under an id that was given out. -/
structure Filed (g : World κ) : Prop where
  agrees : ∀ s, (g.notifierOf s).Agrees
  older : ∀ s p, ∀ e ∈ g.listeners s p, e.1 < g.nextSubscription
  single : ∀ {s t p q} {id : SubscriptionId} {l k : Listener κ},
    (id, l) ∈ g.listeners s p → (id, k) ∈ g.listeners t q → s = t
  changesOlder : ∀ c, ∀ e ∈ g.listenersOfCollection c, e.1 < g.nextSubscription
  changesAscending : ∀ c, (g.listenersOfCollection c).Pairwise fun a b => a.1 < b.1
  changesSingle : ∀ {c d} {id : SubscriptionId} {l k : ChangeListener κ},
    (id, l) ∈ g.listenersOfCollection c → (id, k) ∈ g.listenersOfCollection d → c = d

/-- The whole entry of a subscription is known by its id. -/
theorem Filed.entry {g : World κ} (hg : g.Filed) {s t p q} {id : SubscriptionId} {l k : Listener κ}
    (hl : (id, l) ∈ g.listeners s p) (hk : (id, k) ∈ g.listeners t q) : s = t ∧ p = q ∧ l = k := by
  have hst := hg.single hl hk
  subst hst
  exact ⟨rfl, (hg.agrees s).single hl hk⟩

theorem Filed.changesEntry {g : World κ} (hg : g.Filed) {c d} {id : SubscriptionId}
    {l k : ChangeListener κ} (hl : (id, l) ∈ g.listenersOfCollection c)
    (hk : (id, k) ∈ g.listenersOfCollection d) : c = d ∧ l = k := by
  have hcd := hg.changesSingle hl hk
  subst hcd
  have hnodup : ((g.listenersOfCollection c).map (·.1)).Nodup := by
    rw [List.Nodup, List.pairwise_map]
    exact (hg.changesAscending c).imp fun hab => ne_of_lt hab
  exact ⟨rfl, (Prod.mk.inj (List.inj_on_of_nodup_map hnodup hl hk rfl)).2⟩

/-! ### Notifiers -/

theorem notifierOf_modifyNotifier (g : World κ) (s t : Subject)
    (f : Notifier (Listener κ) → Notifier (Listener κ)) :
    (g.modifyNotifier s f).notifierOf t =
      if s = t ∧ g.hasValue s.value = true then f (g.notifierOf t) else g.notifierOf t := by
  cases s with
  | object o =>
    cases t with
    | command c => simp [modifyNotifier, modifyObject, notifierOf]
    | object o' =>
      simp only [modifyNotifier, modifyObject, notifierOf, Array.getElem?_modify, Subject.object.injEq,
        Subject.value, hasValue, hasObject, decide_eq_true_eq]
      by_cases h : o = o'
      · subst h
        by_cases hlt : o < g.objects.size
        · simp [hlt]
        · simp [hlt]
      · simp [h]
  | command c =>
    cases t with
    | object o => simp [modifyNotifier, modifyCommand, notifierOf]
    | command c' =>
      simp only [modifyNotifier, modifyCommand, notifierOf, Array.getElem?_modify, Subject.command.injEq,
        Subject.value, hasValue, decide_eq_true_eq]
      by_cases h : c = c'
      · subst h
        by_cases hlt : c < g.commands.size
        · simp [hlt]
        · simp [hlt]
      · simp [h]

theorem listenersOfCollection_modifyNotifier (g : World κ) (s : Subject)
    (f : Notifier (Listener κ) → Notifier (Listener κ)) (c : CollectionId) :
    (g.modifyNotifier s f).listenersOfCollection c = g.listenersOfCollection c := by
  cases s <;> rfl

theorem listenersOfCollection_modifyCollection (g : World κ) (c d : CollectionId)
    (f : Table SubscriptionId (ChangeListener κ) → Table SubscriptionId (ChangeListener κ)) :
    (g.modifyCollection c fun x => { x with listeners := f x.listeners }).listenersOfCollection d =
      if c = d ∧ g.hasValue (.collection c) = true then f (g.listenersOfCollection d)
        else g.listenersOfCollection d := by
  simp only [modifyCollection, listenersOfCollection, Array.getElem?_modify, hasValue, decide_eq_true_eq]
  by_cases hcd : c = d
  · subst hcd
    by_cases hlt : c < g.collections.size
    · simp [hlt]
    · simp [hlt]
  · simp [hcd]

/-! ### Subscribing to a property -/

theorem listeners_enterListener (g : World κ) {s : Subject} (hs : g.hasValue s.value = true)
    (p : String) (l : Listener κ) (t : Subject) (q : String) :
    (g.enterListener s p l).listeners t q =
      if s = t ∧ p = q then g.listeners t q ++ [(g.nextSubscription, l)] else g.listeners t q := by
  have h : (g.enterListener s p l).notifierOf t = _ :=
    g.notifierOf_modifyNotifier s t (·.subscribe p g.nextSubscription l)
  unfold listeners
  rw [h]
  by_cases hst : s = t
  · subst hst
    by_cases hpq : p = q <;> simp [hs, hpq]
  · simp [hst]

theorem listenersOfCollection_enterListener (g : World κ) (s : Subject) (p : String) (l : Listener κ)
    (c : CollectionId) : (g.enterListener s p l).listenersOfCollection c = g.listenersOfCollection c :=
  g.listenersOfCollection_modifyNotifier s _ c

theorem enterListener_filed {g : World κ} (hg : g.Filed) {s : Subject} (hs : g.hasValue s.value = true)
    (p : String) (l : Listener κ) : (g.enterListener s p l).Filed := by
  have hmem : ∀ {t q e}, e ∈ (g.enterListener s p l).listeners t q →
      e ∈ g.listeners t q ∨ s = t ∧ e = (g.nextSubscription, l) := by
    intro t q e he
    rw [listeners_enterListener g hs] at he
    split at he
    · rename_i h
      rcases List.mem_append.mp he with he | he
      · exact Or.inl he
      · exact Or.inr ⟨h.1, List.mem_singleton.mp he⟩
    · exact Or.inl he
  have hnew : ∀ {t q k}, (g.nextSubscription, k) ∉ g.listeners t q :=
    fun hm => lt_irrefl _ (hg.older _ _ _ hm)
  constructor
  case agrees =>
    intro t
    have h : (g.enterListener s p l).notifierOf t = _ :=
      g.notifierOf_modifyNotifier s t (·.subscribe p g.nextSubscription l)
    rw [h]
    split
    · exact Notifier.subscribe_agrees (hg.agrees t) (fun q e he => hg.older t q e he) p l
    · exact hg.agrees t
  case older =>
    intro t q e he
    rcases hmem he with he | ⟨-, rfl⟩
    · exact Nat.lt_succ_of_lt (hg.older t q e he)
    · exact Nat.lt_succ_self _
  case single =>
    intro t u q r id k m hk hm
    rcases hmem hk with hk | ⟨h₁, hk⟩ <;> rcases hmem hm with hm | ⟨h₂, hm⟩
    · exact hg.single hk hm
    · rw [(Prod.mk.inj hm).1] at hk
      exact absurd hk hnew
    · rw [(Prod.mk.inj hk).1] at hm
      exact absurd hm hnew
    · rw [← h₁, ← h₂]
  case changesOlder =>
    intro c e he
    rw [listenersOfCollection_enterListener] at he
    exact Nat.lt_succ_of_lt (hg.changesOlder c e he)
  case changesAscending =>
    intro c
    rw [listenersOfCollection_enterListener]
    exact hg.changesAscending c
  case changesSingle =>
    intro c d id k m hk hm
    rw [listenersOfCollection_enterListener] at hk hm
    exact hg.changesSingle hk hm

/-! ### Taking a subscription back -/

/-- The fold over the places where a subscription can be. -/
theorem notifierOf_foldl_unsubscribe (id : SubscriptionId) (ss : List Subject) :
    ∀ (g : World κ), (∀ s, (g.notifierOf s).Agrees) →
      (∀ t, ((ss.foldl (fun g s => g.modifyNotifier s (·.unsubscribe id)) g).notifierOf t).Agrees) ∧
      ∀ t q, (ss.foldl (fun g s => g.modifyNotifier s (·.unsubscribe id)) g).listeners t q =
        if t ∈ ss then (g.listeners t q).filter (·.1 ≠ id) else g.listeners t q := by
  induction ss with
  | nil => exact fun g hg => ⟨hg, fun t q => by simp⟩
  | cons s ss ih =>
    intro g hg
    have hstep : ∀ t, ((g.modifyNotifier s (·.unsubscribe id)).notifierOf t).Agrees := by
      intro t
      rw [notifierOf_modifyNotifier]
      split
      · exact Notifier.unsubscribe_agrees (hg t) id
      · exact hg t
    obtain ⟨h₁, h₂⟩ := ih _ hstep
    refine ⟨h₁, fun t q => ?_⟩
    rw [List.foldl_cons, h₂]
    have hone : (g.modifyNotifier s (·.unsubscribe id)).listeners t q =
        if s = t then (g.listeners t q).filter (·.1 ≠ id) else g.listeners t q := by
      unfold listeners
      rw [notifierOf_modifyNotifier]
      by_cases hst : s = t
      · subst hst
        by_cases hv : g.hasValue s.value = true
        · simp only [hv, and_self, ↓reduceIte]
          exact Notifier.listenersOf_unsubscribe (hg s) id q
        · -- nothing is subscribed at what does not exist
          have hnone : g.notifierOf s = {} := by
            cases s with
            | object o =>
              simp only [Subject.value, hasValue, hasObject, decide_eq_true_eq] at hv
              simp [notifierOf, hv]
            | command c =>
              simp only [Subject.value, hasValue, decide_eq_true_eq] at hv
              simp [notifierOf, hv]
          simp [hv, hnone, Notifier.listenersOf, Table.get?]
      · simp [hst]
    rw [hone]
    by_cases hst : s = t
    · by_cases hts : t ∈ ss <;> simp [hts, hst]
    · simp [hst, Ne.symm hst]

/-- **Unsubscribing** through an object reaches the place where the subscription is,
and takes it off there. -/
theorem listeners_unsubscribe {g : World κ} (hg : g.Filed) {s : Subject} {id : SubscriptionId}
    (hs : ∀ t q l, (id, l) ∈ g.listeners t q → t ∈ g.reach s) (t : Subject) (q : String) :
    (g.unsubscribe s id).listeners t q = (g.listeners t q).filter (·.1 ≠ id) := by
  unfold unsubscribe
  rw [(notifierOf_foldl_unsubscribe id (g.reach s) g hg.agrees).2 t q]
  split
  · rfl
  · rename_i ht
    refine (List.filter_eq_self.mpr fun e he => ?_).symm
    rw [decide_eq_true_eq]
    rintro rfl
    exact ht (hs t q e.2 he)

theorem listenersOfCollection_unsubscribe (g : World κ) (s : Subject) (id : SubscriptionId)
    (c : CollectionId) : (g.unsubscribe s id).listenersOfCollection c = g.listenersOfCollection c := by
  unfold unsubscribe
  generalize g.reach s = ss
  induction ss generalizing g with
  | nil => rfl
  | cons s ss ih => rw [List.foldl_cons, ih, listenersOfCollection_modifyNotifier]

theorem nextSubscription_unsubscribe (g : World κ) (s : Subject) (id : SubscriptionId) :
    (g.unsubscribe s id).nextSubscription = g.nextSubscription := by
  unfold unsubscribe
  generalize g.reach s = ss
  induction ss generalizing g with
  | nil => rfl
  | cons s ss ih =>
    rw [List.foldl_cons, ih]
    cases s <;> rfl

theorem unsubscribe_filed {g : World κ} (hg : g.Filed) (s : Subject) (id : SubscriptionId) :
    (g.unsubscribe s id).Filed := by
  obtain ⟨hagrees, hlist⟩ := notifierOf_foldl_unsubscribe id (g.reach s) g hg.agrees
  have hsub : ∀ {t q e}, e ∈ (g.unsubscribe s id).listeners t q → e ∈ g.listeners t q := by
    intro t q e he
    unfold unsubscribe at he
    rw [hlist] at he
    split at he
    · exact List.mem_of_mem_filter he
    · exact he
  constructor
  case agrees => exact hagrees
  case older =>
    intro t q e he
    rw [nextSubscription_unsubscribe]
    exact hg.older t q e (hsub he)
  case single => exact fun hk hm => hg.single (hsub hk) (hsub hm)
  case changesOlder =>
    intro c e he
    rw [nextSubscription_unsubscribe]
    rw [listenersOfCollection_unsubscribe] at he
    exact hg.changesOlder c e he
  case changesAscending =>
    intro c
    rw [listenersOfCollection_unsubscribe]
    exact hg.changesAscending c
  case changesSingle =>
    intro c d i k m hk hm
    rw [listenersOfCollection_unsubscribe] at hk hm
    exact hg.changesSingle hk hm

/-! ### Collections -/

theorem listenersOfCollection_enterChangeListener {g : World κ} (hg : g.Filed) {c : CollectionId}
    (hc : g.hasValue (.collection c) = true) (l : ChangeListener κ) (d : CollectionId) :
    (g.enterChangeListener c l).listenersOfCollection d =
      if c = d then g.listenersOfCollection d ++ [(g.nextSubscription, l)]
      else g.listenersOfCollection d := by
  have hnew : ∀ d, g.nextSubscription ∉ (g.listenersOfCollection d).map (·.1) := by
    intro d hm
    obtain ⟨e, he, heq⟩ := List.mem_map.mp hm
    exact lt_irrefl _ (heq ▸ hg.changesOlder d e he)
  have hset := hnew c
  simp only [hasValue, decide_eq_true_eq] at hc
  simp only [enterChangeListener, modifyCollection, listenersOfCollection, Array.getElem?_modify] at hset ⊢
  by_cases hcd : c = d
  · subst hcd
    simp only [hc, Array.getElem?_eq_getElem, ↓reduceIte, Option.map_some, Option.getD_some] at hset ⊢
    exact Table.set_of_not_mem hset
  · simp [hcd]

theorem listeners_enterChangeListener (g : World κ) (c : CollectionId) (l : ChangeListener κ)
    (s : Subject) (p : String) : (g.enterChangeListener c l).listeners s p = g.listeners s p := by
  cases s <;> rfl

theorem enterChangeListener_filed {g : World κ} (hg : g.Filed) {c : CollectionId}
    (hc : g.hasValue (.collection c) = true) (l : ChangeListener κ) : (g.enterChangeListener c l).Filed := by
  have hmem : ∀ {d e}, e ∈ (g.enterChangeListener c l).listenersOfCollection d →
      e ∈ g.listenersOfCollection d ∨ c = d ∧ e = (g.nextSubscription, l) := by
    intro d e he
    rw [listenersOfCollection_enterChangeListener hg hc] at he
    split at he
    · rename_i h
      rcases List.mem_append.mp he with he | he
      · exact Or.inl he
      · exact Or.inr ⟨h, List.mem_singleton.mp he⟩
    · exact Or.inl he
  have hnew : ∀ {d k}, (g.nextSubscription, k) ∉ g.listenersOfCollection d :=
    fun hm => lt_irrefl _ (hg.changesOlder _ _ hm)
  constructor
  case agrees =>
    intro s
    have := hg.agrees s
    cases s <;> exact this
  case older =>
    intro s p e he
    rw [listeners_enterChangeListener] at he
    exact Nat.lt_succ_of_lt (hg.older s p e he)
  case single =>
    intro s t p q id k m hk hm
    rw [listeners_enterChangeListener] at hk hm
    exact hg.single hk hm
  case changesOlder =>
    intro d e he
    rcases hmem he with he | ⟨-, rfl⟩
    · exact Nat.lt_succ_of_lt (hg.changesOlder d e he)
    · exact Nat.lt_succ_self _
  case changesAscending =>
    intro d
    rw [listenersOfCollection_enterChangeListener hg hc]
    split
    · refine List.pairwise_append.mpr
        ⟨hg.changesAscending d, List.pairwise_singleton _ _, fun a ha b hb => ?_⟩
      rw [List.mem_singleton.mp hb]
      exact hg.changesOlder d a ha
    · exact hg.changesAscending d
  case changesSingle =>
    intro d e id k m hk hm
    rcases hmem hk with hk | ⟨h₁, hk⟩ <;> rcases hmem hm with hm | ⟨h₂, hm⟩
    · exact hg.changesSingle hk hm
    · rw [(Prod.mk.inj hm).1] at hk
      exact absurd hk hnew
    · rw [(Prod.mk.inj hk).1] at hm
      exact absurd hm hnew
    · rw [← h₁, ← h₂]

theorem listenersOfCollection_unsubscribeChanges (g : World κ) (c : CollectionId) (id : SubscriptionId)
    (d : CollectionId) :
    (g.unsubscribeChanges c id).listenersOfCollection d =
      if c = d then (g.listenersOfCollection d).filter (·.1 ≠ id) else g.listenersOfCollection d := by
  simp only [unsubscribeChanges, modifyCollection, listenersOfCollection, Array.getElem?_modify]
  by_cases hcd : c = d
  · subst hcd
    cases hx : g.collections[c]? <;> simp [Table.erase]
  · simp [hcd]

theorem listeners_unsubscribeChanges (g : World κ) (c : CollectionId) (id : SubscriptionId)
    (s : Subject) (p : String) : (g.unsubscribeChanges c id).listeners s p = g.listeners s p := by
  cases s <;> rfl

theorem unsubscribeChanges_filed {g : World κ} (hg : g.Filed) (c : CollectionId) (id : SubscriptionId) :
    (g.unsubscribeChanges c id).Filed := by
  have hsub : ∀ {d e}, e ∈ (g.unsubscribeChanges c id).listenersOfCollection d →
      e ∈ g.listenersOfCollection d := by
    intro d e he
    rw [listenersOfCollection_unsubscribeChanges] at he
    split at he
    · exact List.mem_of_mem_filter he
    · exact he
  constructor
  case agrees =>
    intro s
    have := hg.agrees s
    cases s <;> exact this
  case older => exact fun s p e he => hg.older s p e (by rwa [listeners_unsubscribeChanges] at he)
  case single =>
    intro s t p q i k m hk hm
    rw [listeners_unsubscribeChanges] at hk hm
    exact hg.single hk hm
  case changesOlder => exact fun d e he => hg.changesOlder d e (hsub he)
  case changesAscending =>
    intro d
    rw [listenersOfCollection_unsubscribeChanges]
    split
    · exact (hg.changesAscending d).filter _
    · exact hg.changesAscending d
  case changesSingle => exact fun hk hm => hg.changesSingle (hsub hk) (hsub hm)

end World
end LiveRules
