/-
# Changes of things

Objects, collections and commands are made and changed under the eyes of the
watchers. What is new nobody watches. When a property or the members of a
collection change, all who watch are on the list of those to be told, so
whatever is stale is awaited.

Key definitions: `World.Tended`.
Key theorems: `World.Tended.retold`, `Stable.write`, `Stable.changeItems`,
`Stable.round`.
-/
import LiveRules.Proofs.Machine.Stable

namespace LiveRules

variable {κ σ : Type}

namespace World

/-- No listener, watcher or tree is touched, and what was there is based on what it
was based on before. -/
structure Tended (g g' : World κ) : Prop where
  watchers : g'.watchers = g.watchers
  trees : g'.trees = g.trees
  next : g'.nextSubscription = g.nextSubscription
  notifiers : ∀ s, g'.notifierOf s = g.notifierOf s
  changes : ∀ c, g'.listenersOfCollection c = g.listenersOfCollection c
  sane : g'.Sane
  known : ∀ {v}, g.hasValue v = true → g'.hasValue v = true
  bases : ∀ o, g.hasObject o = true → g'.baseOf o = g.baseOf o ∧ ∀ p, g'.answersFor p o = g.answersFor p o

section

variable {g g' : World κ} (h : Tended g g')

include h

theorem Tended.listeners (s : Subject) (p : String) : g'.listeners s p = g.listeners s p := by
  unfold World.listeners
  rw [h.notifiers]

theorem Tended.holder (hg : g.Sane) {o : ObjectId} (p : String) (ho : g.hasObject o = true) :
    g'.holder o p = g.holder o p := by
  induction o using Nat.strong_induction_on with
  | _ o ih =>
    obtain ⟨hbase, hanswers⟩ := h.bases o ho
    rw [hg.holder_eq, h.sane.holder_eq, hbase, hanswers]
    split
    · rfl
    · cases hb : g.baseOf o with
      | none => rfl
      | some b =>
        have hlt : b < o := hg.older o b hb
        refine ih b hlt ?_
        simp only [hasObject, decide_eq_true_eq] at ho ⊢
        exact lt_trans hlt ho

theorem Tended.home (hg : g.Sane) {s : Subject} (p : String) (hs : g.hasValue s.value = true) :
    g'.home s p = g.home s p := by
  cases s with
  | object o => exact congrArg Subject.object (h.holder hg p hs)
  | command c => rfl

theorem Tended.memberValue (hg : g.Sane) {s : Subject} {p : String} (hs : g.hasValue s.value = true)
    (hown : ∀ o, g.home s p = .object o → g'.ownValue o p = g.ownValue o p) :
    g'.memberValue s p = g.memberValue s p := by
  cases s with
  | object o =>
    have hholder := h.holder hg p hs
    unfold World.memberValue read
    simp only
    rw [hholder]
    exact hown _ rfl
  | command c => rfl

theorem Tended.filed (hg : g.Filed) : g'.Filed := by
  constructor
  case agrees =>
    intro s
    rw [h.notifiers]
    exact hg.agrees s
  case older =>
    intro s p e he
    rw [h.listeners] at he
    rw [h.next]
    exact hg.older s p e he
  case single =>
    intro s t p q id l k hl hk
    rw [h.listeners] at hl hk
    exact hg.single hl hk
  case changesOlder =>
    intro c e he
    rw [h.changes] at he
    rw [h.next]
    exact hg.changesOlder c e he
  case changesAscending =>
    intro c
    rw [h.changes]
    exact hg.changesAscending c
  case changesSingle =>
    intro c d id l k hl hk
    rw [h.changes] at hl hk
    exact hg.changesSingle hl hk

theorem Tended.retold {tops : List WatcherId} (hg : g.Grown tops) : Retold g g' := by
  constructor
  case watchers => exact h.watchers
  case trees =>
    unfold roots
    rw [h.trees]
  case rooted =>
    intro hrooted t x r hx hr
    rw [h.trees] at hx
    rw [h.watchers]
    exact hrooted t x r hx hr
  case next => exact h.next.ge
  case filed => exact h.filed hg.filed
  case sane => exact h.sane
  case member => exact fun {s p id w i} => by rw [h.listeners]
  case membership => exact fun {c id w} => by rw [h.changes]
  case old =>
    intro s p e he
    rw [h.listeners] at he
    exact Or.inl he
  case oldChanges =>
    intro c e he
    rw [h.changes] at he
    exact Or.inl he
  case known => exact h.known
  case home => exact fun p hs => h.home hg.sane p hs

end

/-! ### What is new -/

/-- Names do not matter to watchers. -/
theorem Sane.renamed {g : World κ} (hg : g.Sane) (objectNames : Table String ObjectId)
    (collectionNames : Table String CollectionId) (commandNames : Table String CommandId) :
    Tended g { g with objectNames, collectionNames, commandNames } := by
  have hvalue : ∀ v, hasValue { g with objectNames, collectionNames, commandNames } v = g.hasValue v := by
    intro v
    cases v <;> rfl
  constructor
  case watchers => rfl
  case trees => rfl
  case next => rfl
  case notifiers =>
    intro s
    cases s <;> rfl
  case changes => exact fun c => rfl
  case sane =>
    refine ⟨hg.unhooked, hg.older, fun o x hx e he => ?_, hg.items⟩
    rw [hvalue]
    exact hg.values o x hx e he
  case known =>
    intro v hv
    rwa [hvalue]
  case bases => exact fun o ho => ⟨rfl, fun p => rfl⟩

/-- A new object stands apart. -/
theorem Sane.pushObject {g : World κ} (hg : g.Sane) {x : Object κ} (hnotifier : x.notifier = {}) (hhooks : x.hooks = [])
    (hbase : ∀ b, x.base = some b → g.hasObject b = true) (hvalues : ∀ e ∈ x.properties, g.hasValue e.2 = true) :
    Tended g { g with objects := g.objects.push x } := by
  set g' : World κ := { g with objects := g.objects.push x } with hg'
  have hget : ∀ o : Nat, g'.objects[o]? = if o = g.objects.size then some x else g.objects[o]? :=
    fun o => Array.getElem?_push
  have hold : ∀ o, g.hasObject o = true → g'.objects[o]? = g.objects[o]? := by
    intro o ho
    simp only [hasObject, decide_eq_true_eq] at ho
    rw [hget, if_neg (ne_of_lt ho)]
  have hknown : ∀ {v}, g.hasValue v = true → g'.hasValue v = true := by
    intro v hv
    cases v with
    | object o =>
      simp only [hasValue, hasObject, hg', Array.size_push, decide_eq_true_eq] at hv ⊢
      exact Nat.lt_succ_of_lt hv
    | _ => exact hv
  constructor
  case watchers => rfl
  case trees => rfl
  case next => rfl
  case notifiers =>
    intro s
    cases s with
    | command c => rfl
    | object o =>
      simp only [notifierOf, hget]
      split
      · rename_i heq
        simp [hnotifier, heq]
      · rfl
  case changes => exact fun c => rfl
  case sane =>
    constructor
    case unhooked =>
      intro o y hy
      rw [hget] at hy
      split at hy
      · exact Option.some.inj hy ▸ hhooks
      · exact hg.unhooked o y hy
    case older =>
      intro o b hb
      unfold baseOf at hb
      rw [hget] at hb
      split at hb
      · rename_i heq
        have := hbase b hb
        simp only [hasObject, decide_eq_true_eq] at this
        exact heq ▸ this
      · exact hg.older o b hb
    case values =>
      intro o y hy e he
      rw [hget] at hy
      split at hy
      · exact hknown (hvalues e (Option.some.inj hy ▸ he))
      · exact hknown (hg.values o y hy e he)
    case items => exact fun c o ho => hknown (v := .object o) (hg.items c o ho)
  case known => exact hknown
  case bases =>
    intro o ho
    simp only [baseOf, answersFor, hold o ho]
    exact ⟨trivial, fun p => trivial⟩

theorem Sane.pushCollection {g : World κ} (hg : g.Sane) {x : Collection κ} (hlisteners : x.listeners = [])
    (hitems : ∀ o ∈ x.items, g.hasObject o = true) :
    Tended g { g with collections := g.collections.push x } := by
  set g' : World κ := { g with collections := g.collections.push x } with hg'
  have hget : ∀ c : Nat, g'.collections[c]? = if c = g.collections.size then some x else g.collections[c]? :=
    fun c => Array.getElem?_push
  have hknown : ∀ {v}, g.hasValue v = true → g'.hasValue v = true := by
    intro v hv
    cases v with
    | collection c =>
      simp only [hasValue, hg', Array.size_push, decide_eq_true_eq] at hv ⊢
      exact Nat.lt_succ_of_lt hv
    | _ => exact hv
  constructor
  case watchers => rfl
  case trees => rfl
  case next => rfl
  case notifiers =>
    intro s
    cases s <;> rfl
  case changes =>
    intro c
    simp only [listenersOfCollection, hget]
    split
    · rename_i heq
      simp [hlisteners, heq]
    · rfl
  case sane =>
    refine ⟨hg.unhooked, hg.older, fun o y hy e he => hknown (hg.values o y hy e he), fun c o ho => ?_⟩
    simp only [itemsOf, hget] at ho
    split at ho
    · exact hitems o ho
    · exact hg.items c o ho
  case known => exact hknown
  case bases => exact fun o ho => ⟨rfl, fun p => rfl⟩

theorem Sane.pushCommand {g : World κ} (hg : g.Sane) {x : Command κ} (hnotifier : x.notifier = {}) :
    Tended g { g with commands := g.commands.push x } := by
  set g' : World κ := { g with commands := g.commands.push x } with hg'
  have hget : ∀ c : Nat, g'.commands[c]? = if c = g.commands.size then some x else g.commands[c]? :=
    fun c => Array.getElem?_push
  have hknown : ∀ {v}, g.hasValue v = true → g'.hasValue v = true := by
    intro v hv
    cases v with
    | command c =>
      simp only [hasValue, hg', Array.size_push, decide_eq_true_eq] at hv ⊢
      exact Nat.lt_succ_of_lt hv
    | _ => exact hv
  constructor
  case watchers => rfl
  case trees => rfl
  case next => rfl
  case notifiers =>
    intro s
    cases s with
    | object o => rfl
    | command c =>
      simp only [notifierOf, hget]
      split
      · rename_i heq
        simp [hnotifier, heq]
      · rfl
  case changes => exact fun c => rfl
  case sane => exact ⟨hg.unhooked, hg.older, fun o y hy e he => hknown (hg.values o y hy e he), hg.items⟩
  case known => exact hknown
  case bases => exact fun o ho => ⟨rfl, fun p => rfl⟩

/-- The cache of a command may change. -/
theorem Sane.enableCommand {g : World κ} (hg : g.Sane) (c : CommandId) (enabled : Bool) :
    Tended g (g.modifyCommand c fun x => { x with enabled }) := by
  have hvalue : ∀ v, (g.modifyCommand c fun x => { x with enabled }).hasValue v = g.hasValue v := by
    intro v
    cases v with
    | command d => simp [hasValue, modifyCommand]
    | _ => rfl
  constructor
  case watchers => rfl
  case trees => rfl
  case next => rfl
  case notifiers =>
    intro s
    cases s with
    | object o => rfl
    | command d =>
      simp only [notifierOf, modifyCommand, Array.getElem?_modify]
      split
      · cases g.commands[d]? <;> rfl
      · rfl
  case changes => exact fun c => rfl
  case sane =>
    refine ⟨hg.unhooked, hg.older, fun o x hx e he => ?_, hg.items⟩
    rw [hvalue]
    exact hg.values o x hx e he
  case known =>
    intro v hv
    rwa [hvalue]
  case bases => exact fun o ho => ⟨rfl, fun p => rfl⟩

/-! ### What is written -/

theorem Sane.store {g : World κ} (hg : g.Sane) (o : ObjectId) (p : String) {v : Value} (hv : g.hasValue v = true) :
    Tended g (g.store o p v) := by
  set g' := g.store o p v with hg'
  have hget : ∀ n : Nat, g'.objects[n]? = if g.holder o p = n
      then g.objects[n]?.map (fun x => { x with properties := x.properties.set p v }) else g.objects[n]? :=
    fun n => Array.getElem?_modify
  have hvalue : ∀ v, g'.hasValue v = g.hasValue v := by
    intro v
    cases v with
    | object n => simp [hg', hasValue, hasObject, World.store, modifyObject]
    | _ => rfl
  have hobj : ∀ (n : Nat) y, g'.objects[n]? = some y → ∃ x, g.objects[n]? = some x ∧ y.hooks = x.hooks ∧
      y.base = x.base ∧ (∀ e ∈ y.properties, e ∈ x.properties ∨ e.2 = v) := by
    intro n y hy
    rw [hget] at hy
    split at hy
    · obtain ⟨x, hx, rfl⟩ := Option.map_eq_some_iff.mp hy
      exact ⟨x, hx, rfl, rfl, fun e he => Table.mem_set he⟩
    · exact ⟨y, hy, rfl, rfl, fun e he => Or.inl he⟩
  have hbase : ∀ n, g'.baseOf n = g.baseOf n := by
    intro n
    unfold baseOf
    rw [hget]
    split
    · cases g.objects[n]? <;> rfl
    · rfl
  constructor
  case watchers => rfl
  case trees => rfl
  case next => rfl
  case notifiers =>
    intro s
    cases s with
    | command c => rfl
    | object n =>
      simp only [notifierOf, hget]
      split
      · cases g.objects[n]? <;> rfl
      · rfl
  case changes => exact fun c => rfl
  case sane =>
    constructor
    case unhooked =>
      intro n y hy
      obtain ⟨x, hx, hhooks, -, -⟩ := hobj n y hy
      exact hhooks.trans (hg.unhooked n x hx)
    case older =>
      intro n b hb
      rw [hbase] at hb
      exact hg.older n b hb
    case values =>
      intro n y hy e he
      obtain ⟨x, hx, -, -, hprops⟩ := hobj n y hy
      rw [hvalue]
      rcases hprops e he with he | he
      · exact hg.values n x hx e he
      · exact he ▸ hv
    case items =>
      intro c n hn
      have := hvalue (.object n)
      exact this.trans (hg.items c n hn)
  case known =>
    intro v hv
    rwa [hvalue]
  case bases =>
    intro n hn
    refine ⟨hbase n, fun q => ?_⟩
    by_cases hn' : g.holder o p = n
    · simp only [answersFor, hget, if_pos hn']
      cases g.objects[n]? <;> rfl
    · simp only [answersFor, hget, if_neg hn']

/-- A write is seen at the place it went to only. -/
theorem ownValue_store (g : World κ) (o : ObjectId) (p : String) (v : Value) {n : ObjectId} {q : String}
    (hne : ¬ (g.holder o p = n ∧ p = q)) : (g.store o p v).ownValue n q = g.ownValue n q := by
  simp only [ownValue, store, modifyObject, Array.getElem?_modify]
  split
  · rename_i hn
    have hpq : p ≠ q := fun hpq => hne ⟨hn, hpq⟩
    cases g.objects[n]? with
    | none => rfl
    | some x => simp only [Option.map_some, Option.bind_some, Table.get?_set, if_neg hpq]
  · rfl

/-- The members of a collection may change. -/
theorem Sane.changeItems {g : World κ} (hg : g.Sane) (c : CollectionId) {items : List ObjectId}
    (hitems : ∀ o ∈ items, g.hasObject o = true) :
    Tended g (g.modifyCollection c fun x => { x with items }) := by
  have hvalue : ∀ v, (g.modifyCollection c fun x => { x with items }).hasValue v = g.hasValue v := by
    intro v
    cases v with
    | collection d => simp [hasValue, modifyCollection]
    | _ => rfl
  constructor
  case watchers => rfl
  case trees => rfl
  case next => rfl
  case notifiers =>
    intro s
    cases s <;> rfl
  case changes =>
    intro d
    simp only [listenersOfCollection, modifyCollection, Array.getElem?_modify]
    split
    · cases g.collections[d]? <;> rfl
    · rfl
  case sane =>
    refine ⟨hg.unhooked, hg.older, fun o x hx e he => ?_, fun d o ho => ?_⟩
    · rw [hvalue]
      exact hg.values o x hx e he
    · refine (hvalue (.object o)).trans ?_
      simp only [itemsOf, modifyCollection, Array.getElem?_modify] at ho
      split at ho
      · cases hx : g.collections[d]? with
        | none => simp [hx] at ho
        | some x => exact hitems o (by simpa [hx] using ho)
      · exact hg.items d o ho
  case known =>
    intro v hv
    rwa [hvalue]
  case bases => exact fun o ho => ⟨rfl, fun p => rfl⟩

/-- Nobody but the collection itself is concerned. -/
theorem listOf_changeItems (g : World κ) (c : CollectionId) (items : List ObjectId) (d : CollectionId) :
    (g.modifyCollection c fun x => { x with items }).listOf d =
      if c = d then (g.listOf d).map fun _ => items else g.listOf d := by
  simp only [listOf, modifyCollection, Array.getElem?_modify]
  split
  · cases g.collections[d]? with
    | none => rfl
    | some x => cases h : x.free <;> simp [h]
  · rfl

end World

/-! ### Rounds -/

theorem World.mem_round {g : World κ} {s : Subject} {p : String} {t : Task κ} :
    t ∈ g.round s p ↔ ∃ e ∈ g.listeners s p, t = .deliver s e.1 e.2 := by
  simp only [World.round, World.listeners, List.mem_map, eq_comm]

theorem World.round_calm {g : World κ} {s : Subject} {p : String} : ∀ t ∈ g.round s p, t.isBinding = false := by
  intro t ht
  obtain ⟨e, -, rfl⟩ := World.mem_round.mp ht
  rfl

theorem World.round_silent (g : World κ) (s : Subject) (p : String) (id : SubscriptionId) :
    joining (g.round s p) id = [] ∧ leaving (g.round s p) id = [] := by
  constructor <;>
  · refine List.flatMap_eq_nil_iff.mpr fun t ht => ?_
    obtain ⟨e, -, rfl⟩ := World.mem_round.mp ht
    rfl

section

variable {g : World κ} {rest : List (Task κ)} {missed : SubscriptionId → List ObjectId} (h : Stable g rest missed)

include h

/-- Whoever watches the property is told. -/
theorem Stable.awaits {w i : Nat} {id : SubscriptionId} {s : Subject} {p : String} {batch : Batch κ}
    (hsub : g.Subscribed w i id s p batch) : Awaited (g.round (g.home s p) p) id :=
  ⟨_, _, World.mem_round.mpr ⟨_, h.grown.member.mpr ⟨s, batch, hsub, rfl⟩, rfl⟩⟩

theorem Stable.round (s : Subject) (p : String) : Stable g (g.round s p ++ rest) missed := by
  have hr : World.Retold g g := (h.grown.sane.renamed _ _ _).retold h.grown
  refine h.told hr World.round_calm (fun hm => ?_) (fun hm => ?_) (fun _ => Or.inr rfl) fun hw items hitems => ?_
  · obtain ⟨e, he, heq⟩ := World.mem_round.mp hm
    cases heq
    exact ⟨p, he⟩
  · obtain ⟨e, -, heq⟩ := World.mem_round.mp hm
    cases heq
  · refine ⟨items, hitems, fun o => ?_⟩
    rw [(g.round_silent s p _).1, (g.round_silent s p _).2]

/-- **Writing** a property leaves nobody unaware. -/
theorem Stable.write (o : ObjectId) (p : String) {v : Value} (hv : g.hasValue v = true) :
    Stable (g.store o p v) (g.round (.object (g.holder o p)) p ++ rest) missed := by
  have htended := h.grown.sane.store o p hv
  refine h.told (htended.retold h.grown) World.round_calm (fun hm => ?_) (fun hm => ?_) (fun hsub => ?_)
    fun hw items hitems => ?_
  · obtain ⟨e, he, heq⟩ := World.mem_round.mp hm
    cases heq
    exact ⟨p, he⟩
  · obtain ⟨e, -, heq⟩ := World.mem_round.mp hm
    cases heq
  · rename_i w i id s q batch
    by_cases hplace : g.home s q = .object (g.holder o p) ∧ p = q
    · obtain ⟨hhome, rfl⟩ := hplace
      exact Or.inl (hhome ▸ h.awaits hsub)
    · refine Or.inr ?_
      obtain ⟨plan, site, b, hw, -, -, rfl⟩ := hsub
      refine htended.memberValue h.grown.sane (h.grown.known hw rfl) fun n hn => ?_
      exact g.ownValue_store o p v fun hpq => hplace ⟨by rw [hn, hpq.1], hpq.2⟩
  · refine ⟨items, hitems, fun o => ?_⟩
    rw [(g.round_silent _ p _).1, (g.round_silent _ p _).2]

end

/-! ### Rounds of changes -/

theorem World.mem_changeRound {g : World κ} {c : CollectionId} {change : Change} {t : Task κ} :
    t ∈ g.changeRound c change ↔ (∃ e ∈ g.listenersOfCollection c, t = .deliverChange c e.1 e.2 change) ∨
      ∃ o ∈ change.added ++ change.removed, t = .release (.value (.object o)) := by
  simp only [World.changeRound, List.mem_append, List.mem_map, eq_comm]

/-- Each listener is told of the change once. -/
theorem World.Filed.changeRound {g : World κ} (hg : g.Filed) {c : CollectionId} (change : Change)
    {id : SubscriptionId} {l : ChangeListener κ} (hm : (id, l) ∈ g.listenersOfCollection c) :
    joining (g.changeRound c change) id = change.added ∧ leaving (g.changeRound c change) id = change.removed := by
  have hsplit : ∀ {α : Type} (f : Task κ → List α) (x : List α), (∀ h, f (.release h) = []) →
      (∀ i k, f (.deliverChange c i k change) = if i = id then x else []) → (g.changeRound c change).flatMap f = x := by
    intro α f x hrelease hdeliver
    have htail : ((change.added ++ change.removed).map fun o =>
        Task.release (κ := κ) (.value (.object o))).flatMap f = [] :=
      List.flatMap_eq_nil_iff.mpr fun t ht => by
        obtain ⟨o, -, rfl⟩ := List.mem_map.mp ht
        exact hrelease _
    have hnodup : ((g.listenersOfCollection c).map (·.1)).Nodup := by
      rw [List.Nodup, List.pairwise_map]
      exact (hg.changesAscending c).imp fun hab => ne_of_lt hab
    have hid : id ∈ (g.listenersOfCollection c).map (·.1) := List.mem_map_of_mem (f := (·.1)) hm
    unfold World.changeRound
    rw [List.flatMap_append, htail, List.append_nil, List.flatMap_map]
    simp only [hdeliver]
    clear hm htail
    generalize g.listenersOfCollection c = es at hnodup hid
    induction es with
    | nil => cases hid
    | cons e es ih =>
      rw [List.map_cons, List.nodup_cons] at hnodup
      rw [List.flatMap_cons]
      by_cases he : e.1 = id
      · have hes : es.flatMap (fun e => if e.1 = id then x else []) = [] := by
          refine List.flatMap_eq_nil_iff.mpr fun d hd => if_neg fun hdid : d.1 = id => hnodup.1 ?_
          rw [he, ← hdid]
          exact List.mem_map_of_mem hd
        rw [if_pos he, hes, List.append_nil]
      · rw [if_neg he, List.nil_append]
        exact ih hnodup.2 ((List.mem_cons.mp hid).resolve_left (Ne.symm he))
  exact ⟨hsplit (Task.joins id) _ (fun _ => rfl) fun _ _ => rfl,
    hsplit (Task.leaves id) _ (fun _ => rfl) fun _ _ => rfl⟩

section

variable {g : World κ} {rest : List (Task κ)} {missed : SubscriptionId → List ObjectId} (h : Stable g rest missed)

include h

/-- **Changing the members** of a collection leaves nobody unaware, if what is told is
what happened. A free collection may tell what it likes. -/
theorem Stable.changeItems (c : CollectionId) {items : List ObjectId} {change : Change}
    (hitems : ∀ o ∈ items, g.hasObject o = true) (hadded : ∀ o ∈ change.added, g.hasObject o = true)
    (hcount : ∀ old, g.listOf c = some old → ∀ o,
      items.count o + change.removed.count o = old.count o + change.added.count o) :
    Stable (g.changeItems c items change).1 ((g.changeItems c items change).2 ++ rest) missed := by
  have htended := h.grown.sane.changeItems c hitems
  refine h.told (htended.retold h.grown) (fun t ht => ?_) (fun hm => ?_) (fun hm => ?_) (fun hsub => ?_) ?_
  · rcases World.mem_changeRound.mp ht with ⟨e, -, rfl⟩ | ⟨o, -, rfl⟩ <;> rfl
  · rcases World.mem_changeRound.mp hm with ⟨e, -, heq⟩ | ⟨o, -, heq⟩ <;> cases heq
  · rcases World.mem_changeRound.mp hm with ⟨e, he, heq⟩ | ⟨o, -, heq⟩
    · cases heq
      exact ⟨he, hadded⟩
    · cases heq
  · obtain ⟨plan, site, b, hw, -, -, rfl⟩ := hsub
    exact Or.inr (htended.memberValue h.grown.sane (h.grown.known hw rfl) fun o _ => rfl)
  · intro w item batch site b hw items' hitems'
    have hm : (b.subscription, ChangeListener.membership w) ∈ g.listenersOfCollection b.collection :=
      h.grown.membership.mpr ⟨item, batch, site, b, hw, rfl, rfl⟩
    have hitems' : (g.modifyCollection c fun x => { x with items }).listOf b.collection = some items' := hitems'
    rw [World.listOf_changeItems] at hitems'
    by_cases hc : c = b.collection
    · subst hc
      rw [if_pos rfl] at hitems'
      obtain ⟨old, hold, rfl⟩ := Option.map_eq_some_iff.mp hitems'
      obtain ⟨hj, hl⟩ := h.grown.filed.changeRound change hm
      refine ⟨old, hold, fun o => ?_⟩
      have := hcount old hold o
      rwa [← hj, ← hl] at this
    · rw [if_neg hc] at hitems'
      have hsilent : ∀ t ∈ g.changeRound c change, t.joins b.subscription = [] ∧ t.leaves b.subscription = [] := by
        intro t ht
        rcases World.mem_changeRound.mp ht with ⟨e, he, rfl⟩ | ⟨o, -, rfl⟩
        · have hne : e.1 ≠ b.subscription := by
            rintro heq
            have he' : (b.subscription, e.2) ∈ g.listenersOfCollection c := heq ▸ he
            exact hc (h.grown.filed.changesSingle he' hm)
          simp [Task.joins, Task.leaves, hne]
        · exact ⟨rfl, rfl⟩
      have hj : joining (g.changeRound c change) b.subscription = [] :=
        List.flatMap_eq_nil_iff.mpr fun t ht => (hsilent t ht).1
      have hl : leaving (g.changeRound c change) b.subscription = [] :=
        List.flatMap_eq_nil_iff.mpr fun t ht => (hsilent t ht).2
      refine ⟨items', hitems', fun o => ?_⟩
      have heq : leaving (g.changeRound c change) b.subscription = joining (g.changeRound c change) b.subscription :=
        hl.trans hj.symm
      exact congrArg (items'.count o + List.count o ·) heq

end

end LiveRules
