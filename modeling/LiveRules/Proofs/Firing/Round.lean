/-
# Who fires in a round

A round tells the listeners of a property one after the other, as they were when it
started. A watcher that is told follows the new value: what hung below it at the
property is released and watched anew, under new subscriptions, so the round passes
over it afterwards. Down a tree subscriptions are younger, so whoever is released in
a round is released before its turn: in a round of inert code, a watcher fires
exactly if it does not hang, at the property, below another one that is told.

Key definitions: `World.covered`, `World.told`, `Midway`.
Key theorems: `World.Grown.younger_of_under`, `Midway.refollow`, `Midway.tell`, `Midway.run`.
-/
import LiveRules.Proofs.Firing.Idling
import LiveRules.Proofs.Firing.Triggers

namespace LiveRules

variable {κ σ : Type} {L : Language κ σ}

namespace World

/-- The watchers that hang below the value of the `i`th property of `w`. -/
def belowAt (g : World κ) (w i : Nat) : List WatcherId :=
  match g.watchers[w]? with
  | some (.object _ _ (some b)) => (b.child? i).elim [] g.nodes
  | _ => []

/-- `w` hangs below the value that the listener watches. -/
def covers (g : World κ) (l : Listener κ) (w : WatcherId) : Bool :=
  match l with
  | .member v i => (g.belowAt v i).contains w
  | .code _ _ => false

/-- `w` hangs below a value that one of the listeners watches. -/
def covered (g : World κ) (es : List (SubscriptionId × Listener κ)) (w : WatcherId) : Bool :=
  es.any fun e => g.covers e.2 w

/-- What the tree `t` runs when the listener `e` of `es` is told. -/
def told (g : World κ) (t : TreeId) (es : List (SubscriptionId × Listener κ)) (e : SubscriptionId × Listener κ) :
    Batch κ :=
  match e.2 with
  | .member w i => if g.isPart t w = true ∧ g.covered es w = false then g.batchAt w i else []
  | .code _ _ => []

theorem mem_listed_of_child {g : World κ} {w i c : Nat} {plan site b}
    (hw : g.watchers[w]? = some (.object plan site (some b))) (hc : b.children[i]? = some (some c)) :
    c ∈ g.listed w := by
  rw [listed_of_get hw]
  exact List.reduceOption_mem_iff.mpr (List.mem_of_getElem? hc)

theorem belowAt_of_get {g : World κ} {w i : Nat} {plan site b}
    (hw : g.watchers[w]? = some (.object plan site (some b))) : g.belowAt w i = (b.child? i).elim [] g.nodes := by
  simp only [belowAt, hw]

section

variable {g : World κ}

theorem Shaped.mem_belowAt (hg : g.Shaped) {v i x : Nat} : x ∈ g.belowAt v i ↔
    ∃ plan site b c, g.watchers[v]? = some (.object plan site (some b)) ∧ b.children[i]? = some (some c) ∧
      g.Under c x := by
  constructor
  · intro hx
    unfold belowAt at hx
    split at hx
    · rename_i plan site b hv
      cases hc : b.child? i with
      | none => simp [hc] at hx
      | some c =>
        have hc' := BoundObject.child?_eq_some.mp hc
        rw [hc] at hx
        exact ⟨plan, site, b, c, hv, hc', (hg.mem_nodes (hg.mem_listed_lt (mem_listed_of_child hv hc'))).mp hx⟩
    · cases hx
  · rintro ⟨plan, site, b, c, hv, hc, hx⟩
    rw [belowAt_of_get hv, BoundObject.child?_eq_some.mpr hc]
    exact (hg.mem_nodes (hg.mem_listed_lt (mem_listed_of_child hv hc))).mpr hx

/-- What hangs below what is covered is covered. -/
theorem Shaped.covered_below (hg : g.Shaped) {es : List (SubscriptionId × Listener κ)} {x y : WatcherId}
    (hx : g.covered es x = true) (h : g.Under x y) : g.covered es y = true := by
  unfold covered at hx ⊢
  rw [List.any_eq_true] at hx ⊢
  obtain ⟨⟨id, l⟩, he, hl⟩ := hx
  refine ⟨(id, l), he, ?_⟩
  cases l with
  | code k context => cases hl
  | member v i =>
    have hmem : x ∈ g.belowAt v i := by simpa [covers] using hl
    obtain ⟨plan, site, b, c, hv, hc, hunder⟩ := hg.mem_belowAt.mp hmem
    have hy : y ∈ g.belowAt v i := hg.mem_belowAt.mpr ⟨plan, site, b, c, hv, hc, hunder.trans h⟩
    simpa [covers] using hy

theorem covered_append (es : List (SubscriptionId × Listener κ)) (id : SubscriptionId) (l : Listener κ)
    (x : WatcherId) : g.covered (es ++ [(id, l)]) x = (g.covered es x || g.covers l x) := by
  simp [covered]

/-! ### Ancestors come first -/

/-- **Down a tree subscriptions are younger** than the one that watches the way down. -/
theorem Grown.younger_of_under {tops : List WatcherId} (hg : g.Grown tops) {w i c : Nat} {plan site b}
    {id : SubscriptionId} (hw : g.watchers[w]? = some (.object plan site (some b)))
    (hc : b.children[i]? = some (some c)) (hid : b.subscriptions[i]? = some id) {x : WatcherId} (h : g.Under c x) :
    ∀ k ∈ g.idsOf x, id < k := by
  induction h with
  | refl => exact hg.children_younger hw i c id hc hid
  | @tail y x _ hx ih =>
    intro k hk
    obtain ⟨z, hy, hmem⟩ := exists_of_mem_listed hx
    rw [idsOf_of_get hy] at ih
    cases z with
    | object plan' site' bound =>
      cases bound with
      | none => cases hmem
      | some b' =>
        obtain ⟨j, hj⟩ := List.getElem?_of_mem (List.reduceOption_mem_iff.mp hmem)
        have hlt : j < b'.subscriptions.length := by
          have hchild := (List.getElem?_eq_some_iff.mp hj).1
          have hpaired := hg.paired hy
          omega
        have hidj : b'.subscriptions[j]? = some b'.subscriptions[j] := List.getElem?_eq_getElem hlt
        calc id < b'.subscriptions[j] := ih _ (List.mem_of_getElem? hidj)
          _ < k := hg.children_younger hy j x _ hj hidj k hk
    | collection item batch site' bound =>
      cases bound with
      | none => cases hmem
      | some b' =>
        obtain ⟨e, he, rfl⟩ := List.mem_map.mp hmem
        calc id < b'.subscription := ih _ List.mem_cons_self
          _ < k := hg.items_younger hy e he k hk

variable {tops : List WatcherId} (hg : g.Grown tops) {s : Subject} {p : String}

include hg

/-- Who covers a listener was subscribed before it. -/
theorem Grown.lt_of_covers {id id' : SubscriptionId} {l : Listener κ} {w i : Nat}
    (hl : (id', l) ∈ g.listeners s p) (hm : (id, Listener.member w i) ∈ g.listeners s p) (h : g.covers l w = true) :
    id' < id := by
  cases l with
  | code k context => cases h
  | member v j =>
    have hmem : w ∈ g.belowAt v j := by simpa [covers] using h
    obtain ⟨plan, site, b, c, hv, hc, hunder⟩ := hg.mem_belowAt.mp hmem
    obtain ⟨t, batch, ⟨plan', site', b', hv', hid', -, -⟩, -⟩ := hg.member.mp hl
    rw [hv] at hv'
    cases hv'
    obtain ⟨u, batch', ⟨plan'', site'', b'', hw, hid, -, -⟩, -⟩ := hg.member.mp hm
    refine hg.younger_of_under hv hc hid' hunder id ?_
    rw [idsOf_of_get hw]
    exact List.mem_of_getElem? hid

/-- **Who covers a listener** is told before it. -/
theorem Grown.covered_before {done todo : List (SubscriptionId × Listener κ)} {id : SubscriptionId} {w i : Nat}
    (h : g.listeners s p = done ++ (id, .member w i) :: todo) : g.covered (g.listeners s p) w = g.covered done w := by
  have hafter : g.covered ((id, .member w i) :: todo) w = false := by
    unfold covered
    rw [List.any_eq_false]
    rintro ⟨id', l⟩ hl hcovers
    have hlt : id' < id :=
      hg.lt_of_covers (h ▸ List.mem_append_right _ hl) (h ▸ List.mem_append_right _ List.mem_cons_self) hcovers
    have hascending := (hg.filed.agrees s).ascending p
    have hlisteners : (g.notifierOf s).listenersOf p = done ++ (id, .member w i) :: todo := h
    rw [hlisteners] at hascending
    rcases List.mem_cons.mp hl with heq | hl
    · cases heq
      exact lt_irrefl _ hlt
    · have := (List.pairwise_cons.mp (List.pairwise_append.mp hascending).2.1).1 _ hl
      exact absurd hlt (not_lt.mpr (le_of_lt this))
  rw [h]
  unfold covered at hafter ⊢
  rw [List.any_append, hafter, Bool.or_false]

end

end World

/-! ### In the middle of a round -/

/-- The world `k` is `g` in the middle of the round for `p` at `s`, when those of `done`
have been told: who is covered by them has been released, and all others are as they
were. -/
structure Midway (g : World κ) (s : Subject) (p : String) (k : World κ)
    (done : List (SubscriptionId × Listener κ)) : Prop where
  trees : k.trees = g.trees
  size : g.watchers.size ≤ k.watchers.size
  next : g.nextSubscription ≤ k.nextSubscription
  kept : ∀ {x : Nat} {y : Watcher κ}, g.watchers[x]? = some y → y.target.isSome = true → g.covered done x = false →
    k.watchers[x]? = some y
  listening : ∀ {x i : Nat} {id : SubscriptionId}, (id, Listener.member x i) ∈ g.listeners s p →
    g.covered done x = false → (id, Listener.member x i) ∈ k.listeners s p
  deaf : ∀ {x i : Nat} {t q} {id : SubscriptionId}, g.covered done x = true →
    (id, Listener.member x i) ∈ k.listeners t q →
    g.nextSubscription ≤ id
  old : ∀ {t q e}, e ∈ k.listeners t q → e ∈ g.listeners t q ∨ g.nextSubscription ≤ e.1

section

variable {g k : World κ} {s : Subject} {p : String} {done : List (SubscriptionId × Listener κ)}

theorem Midway.start (g : World κ) (s : Subject) (p : String) : Midway g s p g [] where
  trees := rfl
  size := le_rfl
  next := le_rfl
  kept hx _ _ := hx
  listening hm _ := hm
  deaf hx := by cases hx
  old he := Or.inl he

theorem Midway.undisturbed (h : Midway g s p k done) {k' : World κ} (hk : k.Undisturbed k') : Midway g s p k' done where
  trees := hk.trees.trans h.trees
  size := hk.watchers ▸ h.size
  next := hk.next ▸ h.next
  kept hx ht hfree := hk.watchers ▸ h.kept hx ht hfree
  listening hm hfree := by
    rw [hk.listeners]
    exact h.listening hm hfree
  deaf hx hm := by
    rw [hk.listeners] at hm
    exact h.deaf hx hm
  old he := by
    rw [hk.listeners] at he
    exact h.old he

/-- Whoever is told makes no difference if it covers nobody else. -/
theorem Midway.skip (h : Midway g s p k done) {id : SubscriptionId} {l : Listener κ}
    (hl : ∀ x, g.covers l x = true → g.covered done x = true) : Midway g s p k (done ++ [(id, l)]) := by
  have hsame : ∀ x, g.covered (done ++ [(id, l)]) x = g.covered done x := by
    intro x
    rw [World.covered_append]
    cases hx : g.covers l x with
    | false => rw [Bool.or_false]
    | true => rw [hl x hx, Bool.or_true]
  refine { h with
    kept := fun hx ht hfree => h.kept hx ht ?_
    listening := fun hm hfree => h.listening hm ?_
    deaf := fun hx hm => h.deaf ?_ hm }
  · rwa [← hsame]
  · rwa [← hsame]
  · rwa [← hsame]

theorem Midway.roots (h : Midway g s p k done) : k.roots = g.roots := by
  unfold World.roots
  rw [h.trees]

/-- Those not covered list whom they listed. -/
theorem Midway.listed (h : Midway g s p k done) {v x : WatcherId} (hfree : g.covered done v = false)
    (hx : x ∈ g.listed v) : x ∈ k.listed v := by
  obtain ⟨y, hv, ht⟩ := World.lister_bound hx
  rw [World.listed_of_get hv] at hx
  rw [World.listed_of_get (h.kept hv ht hfree)]
  exact hx

theorem free_of_below (hg : g.Shaped) {v x : WatcherId} (hx : x ∈ g.listed v) (hfree : g.covered done x = false) :
    g.covered done v = false := by
  by_contra hv
  have hcovered := hg.covered_below (Bool.not_eq_false _ ▸ hv) (Relation.ReflTransGen.single hx)
  rw [hfree] at hcovered
  cases hcovered

/-- Who is not covered hangs where it hung, -/
theorem Midway.under (hg : g.Shaped) (h : Midway g s p k done) {c x : WatcherId} (hunder : g.Under c x)
    (hfree : g.covered done x = false) : k.Under c x := by
  induction hunder with
  | refl => exact .refl
  | @tail y x _ hx ih =>
    have hfree' := free_of_below hg hx hfree
    exact (ih hfree').tail (h.listed hfree' hx)

/-- and nobody else hangs there who was bound before. -/
theorem Midway.under_before (hg : g.Grown g.roots) (h : Midway g s p k done) (hk : k.Grown k.roots) {c x : WatcherId}
    (hunder : k.Under c x) (hbound : g.IsBound x) (hfree : g.covered done x = false) : g.Under c x := by
  induction hunder with
  | refl => exact .refl
  | @tail y x _ hx ih =>
    rcases hg.anchored hbound with hroot | ⟨v, hv⟩
    · exact absurd hx (hk.topmost (h.roots ▸ hroot))
    · -- whoever listed it lists it still
      have hfree' := free_of_below hg.toShaped hv hfree
      obtain rfl := hk.single (h.listed hfree' hv) hx
      exact (ih (World.lister_bound hv) hfree').tail hv

/-- **A watcher that is told** follows the new value, and covers what hangs below it. -/
theorem Midway.refollow (hg : g.Grown g.roots) (h : Midway g s p k done) {agenda : List (Task κ)}
    {missed : SubscriptionId → List ObjectId} (hk : Stable k agenda missed) {w : Nat} {plan site b}
    (hw : g.watchers[w]? = some (.object plan site (some b))) (hfree : g.covered done w = false) (id : SubscriptionId)
    (i : Nat) : Midway g s p (k.refollow b i p) (done ++ [(id, .member w i)]) := by
  have hkw := h.kept hw rfl hfree
  unfold World.refollow
  cases hc : b.child? i with
  | none =>
    refine h.skip fun x hx => ?_
    have hmem : x ∈ g.belowAt w i := by simpa [World.covers] using hx
    rw [World.belowAt_of_get hw, hc] at hmem
    cases hmem
  | some c =>
    have hc' := BoundObject.child?_eq_some.mp hc
    have hcw : c ∈ k.listed w := World.mem_listed_of_child hkw hc'
    have hclt : c < k.watchers.size := hk.grown.lt_of_mem_listed hcw
    have hreb := hk.grown.rebind (fun t ht => hk.rooted.lt_size ht) hclt (Or.inr ⟨w, hcw⟩)
      (hk.grown.sane.hasValue_memberValue b.subject p)
    have hcover : ∀ x, g.covered (done ++ [(id, .member w i)]) x = (g.covered done x || (g.nodes c).contains x) := by
      intro x
      rw [World.covered_append, World.covers, World.belowAt_of_get hw, hc]
      rfl
    have hglt : c < g.watchers.size := hg.lt_of_mem_listed (World.mem_listed_of_child hw hc')
    have houtside : ∀ {x}, g.IsBound x → g.covered (done ++ [(id, .member w i)]) x = false →
        g.covered done x = false ∧ x ∉ k.nodes c := by
      intro x hbound hx
      rw [hcover, Bool.or_eq_false_iff] at hx
      refine ⟨hx.1, fun hmem => ?_⟩
      have hunder := h.under_before hg hk.grown ((hk.grown.mem_nodes hclt).mp hmem) hbound hx.1
      simp [(hg.mem_nodes hglt).mpr hunder] at hx
    show Midway g s p (k.rebind c (k.memberValue b.subject p)) (done ++ [(id, .member w i)])
    constructor
    case trees => exact hreb.trees.trans h.trees
    case size => exact h.size.trans hreb.size
    case next => exact h.next.trans hreb.next
    case kept =>
      intro x y hx ht hnew
      obtain ⟨hold, hout⟩ := houtside ⟨y, hx, ht⟩ hnew
      have hkx := h.kept hx ht hold
      have hxc : x ≠ c := by
        rintro rfl
        exact hout ((hk.grown.mem_nodes hclt).mpr .refl)
      rw [hreb.others x (Array.getElem?_eq_some_iff.mp hkx).1 hxc, if_neg hout, hkx]
    case listening =>
      intro x j id' hm hnew
      obtain ⟨t, batch, ⟨plan', site', b', hx, -, -, -⟩, -⟩ := hg.member.mp hm
      obtain ⟨hold, hout⟩ := houtside ⟨_, hx, rfl⟩ hnew
      obtain ⟨new, heq, -⟩ := hreb.listeners s p
      rw [heq]
      refine List.mem_append_left _ (List.mem_filter.mpr ⟨h.listening hm hold, ?_⟩)
      simpa [Listener.watcher?] using hout
    case deaf =>
      intro x j t q id' hx hm
      obtain ⟨new, heq, hnew⟩ := hreb.listeners t q
      rw [heq] at hm
      rcases List.mem_append.mp hm with hm | hm
      · obtain ⟨hm, hout⟩ := List.mem_filter.mp hm
        have hout : x ∉ k.nodes c := by simpa [Listener.watcher?] using hout
        cases hold : g.covered done x with
        | true => exact h.deaf hold hm
        | false =>
          -- it hung below the watcher that is told, and hangs there still
          rw [hcover, hold, Bool.false_or, List.contains_iff_mem] at hx
          have hunder := h.under hg.toShaped ((hg.mem_nodes hglt).mp hx) hold
          exact absurd ((hk.grown.mem_nodes hclt).mpr hunder) hout
      · exact h.next.trans (hnew _ hm)
    case old =>
      intro t q e he
      rcases hreb.old he with he | he
      · exact h.old he
      · exact Or.inr (h.next.trans he)

/-! ### Telling one listener -/

theorem fired_deliver (t : TreeId) (id : SubscriptionId) (l : Listener κ) (rest : List (Task κ)) (st : σ) :
    (machine k (.deliver s id l :: rest) st).fired t = [] :=
  rfl

/-- A batch fires on a context that is alive. -/
theorem step_fire_alive {site : Attachment} {batch : Batch κ} {rest : List (Task κ)}
    (h : Scene.alive { world := k, agenda := .fire site batch :: rest } site.context = true) (st : σ) :
    L.step (machine k (.fire site batch :: rest) st) =
      machine k ((batch.map fun e => .perform e.2 site.context) ++
        .release (.value (.object site.context)) :: rest) st := by
  simp only [Language.step, machine, Language.carry, h, if_true, List.append_assoc, List.singleton_append]

/-- **A watcher fires** its batch in its tree, and the code of the batch comes to an
end. -/
theorem Stable.fires {rest : List (Task κ)} {missed : SubscriptionId → List ObjectId} (hk : Stable k rest missed)
    {w : Nat} {plan : WatchPlan κ} {site : Attachment} {b : BoundObject}
    (hw : k.watchers[w]? = some (.object plan site (some b))) (batch : Batch κ) (st : σ)
    (hinert : L.Inert (machine k (firing site batch b.subject w ++ rest) st)) (t : TreeId) :
    ∃ ms k' st', L.Passes (machine k (firing site batch b.subject w ++ rest) st) ms (machine k' rest st') ∧
      k.Undisturbed k' ∧ Stable k' rest missed ∧
        ms.flatMap (Machine.fired t) = if site.tree = t then batch else [] := by
  have halive : (machine k (firing site batch b.subject w ++ rest) st).alive site.context = true := hk.alive _ hw rfl
  set tasks : List (Task κ) := (batch.map fun e => .perform e.2 site.context) ++
    [.release (.value (.object site.context)), .release (.value b.subject.value), .release (.watcher w)] with htasks
  have hstep : L.step (machine k (firing site batch b.subject w ++ rest) st) = machine k (tasks ++ rest) st := by
    rw [htasks, List.append_assoc]
    exact step_fire_alive halive st
  have hidle : ∀ v ∈ tasks, v.isIdle = true := by
    intro v hv
    rcases List.mem_append.mp hv with hv | hv
    · obtain ⟨e, -, rfl⟩ := List.mem_map.mp hv
      rfl
    · simp only [List.mem_cons, List.not_mem_nil, or_false] at hv
      rcases hv with rfl | rfl | rfl <;> rfl
  have hfire := Language.Passes.step (.done (L.step (machine k (firing site batch b.subject w ++ rest) st)))
  rw [hstep] at hfire
  obtain ⟨ms, k', st', hpasses, hundisturbed, hstable, hfired⟩ :=
    Language.Inert.clear t hidle (hk.prepend fun v hv => (Task.calm_of_isIdle (hidle v hv)).symm) (hinert.passes hfire)
  refine ⟨_, k', st', hfire.trans hpasses, hundisturbed, hstable, ?_⟩
  have hfront : (machine k (firing site batch b.subject w ++ rest) st).fired t =
      if site.tree = t then batch else [] := by
    show (if site.tree = t ∧ _ = true then batch else []) = _
    rw [halive]
    simp
  rw [List.flatMap_append, hfired, List.append_nil, List.flatMap_cons, hfront, List.flatMap_nil, List.append_nil]

section

variable (hg : g.Grown g.roots) (h : Midway g s p k done) {todo : List (SubscriptionId × Listener κ)}
  {rest : List (Task κ)} {missed : SubscriptionId → List ObjectId}

include hg h

/-- **Telling a watcher** that nobody covers makes its tree run its batch. -/
theorem Midway.tell_member {id : SubscriptionId} {w i : Nat}
    (hlist : g.listeners s p = done ++ (id, .member w i) :: todo)
    (hfree : g.covered done w = false) (hk : Stable k (.deliver s id (.member w i) :: rest) missed) (st : σ)
    (hinert : L.Inert (machine k (.deliver s id (.member w i) :: rest) st)) (t : TreeId) :
    ∃ ms k' st', L.Passes (machine k (.deliver s id (.member w i) :: rest) st) ms (machine k' rest st') ∧
      Midway g s p k' (done ++ [(id, .member w i)]) ∧ Stable k' rest missed ∧
        ms.flatMap (Machine.fired t) = if g.isPart t w = true then g.batchAt w i else [] := by
  have hm : (id, Listener.member w i) ∈ g.listeners s p := hlist ▸ List.mem_append_right _ List.mem_cons_self
  obtain ⟨u, batch, ⟨plan, site, b, hw, -, hplace, -⟩, -⟩ := hg.member.mp hm
  obtain ⟨plan', site', b', batch', hkw, -, hplace', -, hworks, hstable⟩ :=
    hk.deliver_member (L := L) st (h.listening hm hfree)
  have hsame := h.kept hw rfl hfree
  rw [hkw] at hsame
  cases hsame
  rw [hplace'] at hplace
  cases hplace
  have hmid := h.refollow hg hk hw hfree id i
  set k₁ := k.refollow b i p with hk₁
  have hself : g.covered (done ++ [(id, .member w i)]) w = false := by
    rw [World.covered_append, hfree, Bool.false_or]
    by_contra hcovers
    exact lt_irrefl id (hg.lt_of_covers hm hm (Bool.not_eq_false _ ▸ hcovers))
  obtain ⟨ms₁, hpasses₁, hfired₁⟩ := hworks.passes t
  have hreach := Language.Passes.step hpasses₁
  obtain ⟨ms₂, k₂, st₂, hpasses₂, hundisturbed, hstable₂, hfired₂⟩ :=
    hstable.fires (hmid.kept hw rfl hself) batch st (hinert.passes hreach) t
  refine ⟨_, k₂, st₂, hreach.trans hpasses₂, hmid.undisturbed hundisturbed, hstable₂, ?_⟩
  have hbatch : g.batchAt w i = batch := by
    simp only [World.batchAt, hw, hplace']
    rfl
  have hpart : g.isPart t w = true ↔ site.tree = t := by
    simp [World.isPart, hw, Watcher.site]
  rw [List.flatMap_append, List.flatMap_cons, fired_deliver, hfired₁, hfired₂, hbatch]
  simp only [hpart, List.nil_append]

omit hg in
/-- Telling anybody else fires nothing. -/
theorem Midway.tell_other {id : SubscriptionId} {l : Listener κ} (hk : Stable k (.deliver s id l :: rest) missed)
    (hdeaf : ∀ w i q, (id, Listener.member w i) ∉ k.listeners s q)
    (hcovers : ∀ x, g.covers l x = true → g.covered done x = true) (st : σ)
    (hinert : L.Inert (machine k (.deliver s id l :: rest) st)) (t : TreeId) :
    ∃ ms k' st', L.Passes (machine k (.deliver s id l :: rest) st) ms (machine k' rest st') ∧
      Midway g s p k' (done ++ [(id, l)]) ∧ Stable k' rest missed ∧ ms.flatMap (Machine.fired t) = [] := by
  obtain ⟨⟨tasks, hstep, hclient⟩, hstable⟩ := hk.deliver_other (L := L) st hdeaf
  have hidle : ∀ v ∈ tasks, v.isIdle = true := by
    intro v hv
    have := hclient v hv
    cases v <;> first | rfl | cases this
  have hreach := Language.Passes.step (.done (L.step (machine k (.deliver s id l :: rest) st)))
  rw [hstep] at hreach
  have hcalm : ∀ v ∈ tasks, v.isDelivery = false ∧ v.isBinding = false :=
    fun v hv => Task.idle_of_isClient (hclient v hv)
  obtain ⟨ms, k', st', hpasses, hundisturbed, hstable', hfired⟩ :=
    Language.Inert.clear t hidle (hstable.prepend hcalm) (hinert.passes hreach)
  refine ⟨_, k', st', hreach.trans hpasses, (h.skip hcovers).undisturbed hundisturbed, hstable', ?_⟩
  rw [List.flatMap_append, List.flatMap_cons, fired_deliver, hfired]
  rfl

/-- **Telling one listener** of the round. -/
theorem Midway.tell {id : SubscriptionId} {l : Listener κ} (hlist : g.listeners s p = done ++ (id, l) :: todo)
    (hk : Stable k (.deliver s id l :: rest) missed) (st : σ)
    (hinert : L.Inert (machine k (.deliver s id l :: rest) st)) (t : TreeId) :
    ∃ ms k' st', L.Passes (machine k (.deliver s id l :: rest) st) ms (machine k' rest st') ∧
      Midway g s p k' (done ++ [(id, l)]) ∧ Stable k' rest missed ∧
        ms.flatMap (Machine.fired t) = g.told t (g.listeners s p) (id, l) := by
  have hfinds : ∀ w i q, (id, Listener.member w i) ∈ k.listeners s q → Listener.member w i = l := fun w i q hm =>
    ((hk.delivers List.mem_cons_self).2 s q _ hm).2
  cases l with
  | code c context =>
    refine h.tell_other hk (fun w i q hm => ?_) (fun x hx => ?_) st hinert t
    · cases hfinds w i q hm
    · cases hx
  | member w i =>
    have hm : (id, Listener.member w i) ∈ g.listeners s p := hlist ▸ List.mem_append_right _ List.mem_cons_self
    have hbefore := hg.covered_before hlist
    have htold : g.told t (g.listeners s p) (id, .member w i) =
        if g.isPart t w = true ∧ g.covered done w = false then g.batchAt w i else [] := by
      simp only [World.told, hbefore]
    rw [htold]
    cases hcovered : g.covered done w with
    | false =>
      obtain ⟨ms, k', st', hpasses, hmid, hstable, hfired⟩ := h.tell_member hg hlist hcovered hk st hinert t
      exact ⟨ms, k', st', hpasses, hmid, hstable, by simpa using hfired⟩
    | true =>
      have hdeaf : ∀ v j q, (id, Listener.member v j) ∉ k.listeners s q := by
        -- it was released, and what it is subscribed to now is none of this round
        intro v j q hkm
        cases hfinds v j q hkm
        exact absurd (hg.filed.older s p _ hm) (not_lt.mpr (h.deaf hcovered hkm))
      have hcovers : ∀ x, g.covers (.member w i) x = true → g.covered done x = true := by
        intro x hx
        have hmem : x ∈ g.belowAt w i := by simpa [World.covers] using hx
        obtain ⟨plan, site, b, c, hw, hc, hunder⟩ := hg.mem_belowAt.mp hmem
        exact hg.covered_below hcovered (World.Under.head.mpr (Or.inr ⟨c, World.mem_listed_of_child hw hc, hunder⟩))
      obtain ⟨ms, k', st', hpasses, hmid, hstable, hfired⟩ := h.tell_other hk hdeaf hcovers st hinert t
      exact ⟨ms, k', st', hpasses, hmid, hstable, by simpa using hfired⟩

/-- **A round** of inert code comes to an end, and makes a tree run what it is told to,
in the order of the subscriptions. -/
theorem Midway.run (hlist : g.listeners s p = done ++ todo)
    (hk : Stable k (todo.map fun e => .deliver s e.1 e.2) missed) (st : σ)
    (hinert : L.Inert (machine k (todo.map fun e => .deliver s e.1 e.2) st)) (t : TreeId) :
    ∃ ms k' st', L.Passes (machine k (todo.map fun e => .deliver s e.1 e.2) st) ms (machine k' [] st') ∧
      Midway g s p k' (g.listeners s p) ∧ Stable k' [] missed ∧
        ms.flatMap (Machine.fired t) = todo.flatMap (g.told t (g.listeners s p)) := by
  induction todo generalizing done k st with
  | nil =>
    rw [List.append_nil] at hlist
    exact ⟨[], k, st, .done _, hlist ▸ h, hk, rfl⟩
  | cons e todo ih =>
    obtain ⟨id, l⟩ := e
    obtain ⟨ms₁, k₁, st₁, hpasses₁, hmid₁, hstable₁, hfired₁⟩ := h.tell hg hlist hk st hinert t
    have hlist₁ : g.listeners s p = (done ++ [(id, l)]) ++ todo := by
      rw [hlist, List.append_assoc]
      rfl
    obtain ⟨ms₂, k₂, st₂, hpasses₂, hmid₂, hstable₂, hfired₂⟩ :=
      ih hmid₁ hlist₁ hstable₁ st₁ (hinert.passes hpasses₁)
    refine ⟨ms₁ ++ ms₂, k₂, st₂, hpasses₁.trans hpasses₂, hmid₂, hstable₂, ?_⟩
    rw [List.flatMap_append, hfired₁, hfired₂, List.flatMap_cons]

end

end

end LiveRules
