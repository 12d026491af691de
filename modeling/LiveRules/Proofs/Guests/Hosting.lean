/-
# A world with guests in it

The first trees of a world are guests: their actions run code that changes nothing. A
world in which they are attached, and one in which they are not, differ in what the
guests have made and in the numbers of everything made since. Otherwise each watcher and
each subscription of the one stands for one of the other, listeners are in the same
order with guests between them, and what there is is the same.

Key definitions: `Guests`, `Watcher.Matched`, `Watcher.Guest`, `Notifier.Hosts`,
`World.Hosts`.
Key theorems: `World.Hosts.nodes`, `World.Hosts.subscriptionCount`,
`World.Hosts.planted`.
-/
import LiveRules.Proofs.Guests.Edits
import LiveRules.Proofs.Guests.Pairing
import LiveRules.Proofs.Woven

namespace LiveRules

variable {κ : Type}

/-! ### Guests -/

/-- How many of the first trees are guests, and which code changes nothing. -/
structure Guests (κ : Type) where
  trees : Nat
  quiet : κ → Prop

/-- The action runs code that changes nothing, on its context or what that is based on. -/
def Action.Quiet (G : Guests κ) : Action κ → Prop
  | .code k => G.quiet k
  | .onBase a => a.Quiet G
  | _ => False

def Batch.Quiet (G : Guests κ) (batch : Batch κ) : Prop :=
  ∀ e ∈ batch, e.2.Quiet G

def Plan.Quiet (G : Guests κ) : WatchPlan κ → Prop
  | .nil => True
  | .value _ fire next => Batch.Quiet G fire ∧ next.Quiet G
  | .object _ fire below next => Batch.Quiet G fire ∧ below.Quiet G ∧ next.Quiet G
  | .collection _ fire membership item next =>
    Batch.Quiet G fire ∧ Batch.Quiet G membership ∧ item.Quiet G ∧ next.Quiet G

theorem Plan.Quiet.place? {G : Guests κ} {plan : WatchPlan κ} (h : plan.Quiet G) {i : Nat} {name : String}
    {batch : Batch κ} (hplace : plan.place? i = some (name, batch)) : Batch.Quiet G batch := by
  induction plan generalizing i with
  | nil => cases hplace
  | value n fire next ih =>
    cases i with
    | zero => cases hplace; exact h.1
    | succ i => exact ih h.2 hplace
  | object n fire below next _ ih =>
    cases i with
    | zero => cases hplace; exact h.1
    | succ i => exact ih h.2.2 hplace
  | collection n fire membership item next _ ih =>
    cases i with
    | zero => cases hplace; exact h.1
    | succ i => exact ih h.2.2.2 hplace

section

variable {G : Guests κ} {resolve : ActionId → Option (ActionId × Action κ)}
  (hresolve : ∀ a e, resolve a = some e → e.2.Quiet G)

include hresolve

theorem quiet_fireList (as : List ActionId) (below : Forest) : Batch.Quiet G (fireList resolve as below) := by
  intro e he
  obtain ⟨a, -, ha⟩ := List.mem_filterMap.mp he
  exact hresolve a e ha

theorem Forest.quiet_compile : ∀ forest : Forest, (forest.compile resolve).Quiet G
  | .nil => trivial
  | .node .member _ item _ => quiet_compile item
  | .node (.field n) as below next => by
    have hfire := quiet_fireList hresolve as below
    have hbelow := quiet_compile below
    have hnext := quiet_compile next
    cases below with
    | nil => exact ⟨hfire, hnext⟩
    | node k bs item others =>
      cases k with
      | member => exact ⟨hfire, quiet_fireList hresolve bs item, quiet_compile item, hnext⟩
      | field m => exact ⟨hfire, hbelow, hnext⟩

/-- **A graph whose actions change nothing** compiles to a plan that changes nothing. -/
theorem Graph.quiet_compile (graph : Graph) : (graph.compile resolve).Quiet G :=
  Forest.quiet_compile hresolve graph.top

end

/-! ### What is the same with other numbers -/

section

variable (G : Guests κ) (M : Matching)

/-- A tree that is no guest is attached to the same context. -/
structure Attachment.Matched (a a' : Attachment) : Prop where
  tree : a'.tree = a.tree
  context : a'.context = a.context
  own : G.trees ≤ a.tree

structure Attachment.Guest (a : Attachment) : Prop where
  tree : a.tree < G.trees
  context : M.known (.object a.context)

inductive Listener.Matched : Listener κ → Listener κ → Prop
  | code (k : κ) (context : Option ObjectId) : Matched (.code k context) (.code k context)
  | member {w w' : WatcherId} (h : M.watchers.Pairs w w') (i : Nat) : Matched (.member w i) (.member w' i)

inductive Listener.Guest : Listener κ → Prop
  | member {w : WatcherId} (h : M.watchers.Stray w) (i : Nat) : Guest (.member w i)

inductive ChangeListener.Matched : ChangeListener κ → ChangeListener κ → Prop
  | code (k : κ) : Matched (.code k) (.code k)
  | membership {w w' : WatcherId} (h : M.watchers.Pairs w w') : Matched (.membership w) (.membership w')

inductive ChangeListener.Guest : ChangeListener κ → Prop
  | membership {w : WatcherId} (h : M.watchers.Stray w) : Guest (.membership w)

/-- The same member, and who watches it. -/
def Matching.Items (e e' : ObjectId × WatcherId) : Prop :=
  e'.1 = e.1 ∧ M.watchers.Pairs e.2 e'.2

structure BoundObject.Matched (x x' : BoundObject) : Prop where
  subject : x'.subject = x.subject
  subscriptions : List.Forall₂ M.ids.Pairs x.subscriptions x'.subscriptions
  children : List.Forall₂ (Option.Rel M.watchers.Pairs) x.children x'.children

structure BoundObject.Guest (x : BoundObject) : Prop where
  subject : M.known x.subject.value
  subscriptions : ∀ id ∈ x.subscriptions, M.ids.Stray id
  children : ∀ w, some w ∈ x.children → M.watchers.Stray w

structure BoundCollection.Matched (x x' : BoundCollection) : Prop where
  collection : x'.collection = x.collection
  subscription : M.ids.Pairs x.subscription x'.subscription
  items : List.Forall₂ M.Items x.items x'.items

structure BoundCollection.Guest (x : BoundCollection) : Prop where
  subscription : M.ids.Stray x.subscription
  items : ∀ e ∈ x.items, M.watchers.Stray e.2

inductive Watcher.Matched : Watcher κ → Watcher κ → Prop
  | object (plan : WatchPlan κ) {site site' : Attachment} {bound bound' : Option BoundObject}
      (hsite : site.Matched G site') (hbound : Option.Rel (BoundObject.Matched M) bound bound') :
      Matched (.object plan site bound) (.object plan site' bound')
  | collection (item : WatchPlan κ) (membership : Batch κ) {site site' : Attachment}
      {bound bound' : Option BoundCollection}
      (hsite : site.Matched G site') (hbound : Option.Rel (BoundCollection.Matched M) bound bound') :
      Matched (.collection item membership site bound) (.collection item membership site' bound')

inductive Watcher.Guest : Watcher κ → Prop
  | object {plan : WatchPlan κ} {site : Attachment} {bound : Option BoundObject} (hplan : plan.Quiet G)
      (hsite : site.Guest G M) (hbound : ∀ b, bound = some b → b.Guest M) : Guest (.object plan site bound)
  | collection {item : WatchPlan κ} {membership : Batch κ} {site : Attachment} {bound : Option BoundCollection}
      (hitem : item.Quiet G) (hmembership : membership.Quiet G) (hsite : site.Guest G M)
      (hbound : ∀ b, bound = some b → b.Guest M) : Guest (.collection item membership site bound)

structure Tree.Matched (x x' : Tree κ) : Prop where
  plan : x'.plan = x.plan
  root : Option.Rel M.watchers.Pairs x.root x'.root
  dropped : x'.dropped = x.dropped

/-- A guest, which only the one world attaches. -/
structure Tree.Hosts (x x' : Tree κ) : Prop where
  idle : x.root = none
  plan : x'.plan.Quiet G
  root : ∀ w, x'.root = some w → M.watchers.Stray w

/-- A subscription, and who is told. -/
def Matching.Entry {α : Type} (R : α → α → Prop) (e e' : SubscriptionId × α) : Prop :=
  M.ids.Pairs e.1 e'.1 ∧ R e.2 e'.2

def Matching.Foreign {α : Type} (P : α → Prop) (e : SubscriptionId × α) : Prop :=
  M.ids.Stray e.1 ∧ P e.2

structure Notifier.Hosts (n n' : Notifier (Listener κ)) : Prop where
  listeners : ∀ p, Woven (M.Entry (Listener.Matched M)) (M.Foreign (Listener.Guest M))
    (n.listenersOf p) (n'.listenersOf p)
  owners : ∀ a b, M.ids.Meets a b → n'.owners.get? b = n.owners.get? a

/-- **The world `g'` hosts guests** that are idle in `g`. -/
structure World.Hosts (g g' : World κ) : Prop where
  outline : g'.outline = g.outline
  known : ∀ v, M.known v → g'.hasValue v = true
  next : g.nextSubscription = M.ids.size
  bound : g'.nextSubscription = M.ids.bound
  notifier : ∀ s, (g.notifierOf s).Hosts M (g'.notifierOf s)
  changes : ∀ c, Woven (M.Entry (ChangeListener.Matched M)) (M.Foreign (ChangeListener.Guest M))
    (g.listenersOfCollection c) (g'.listenersOfCollection c)
  size : g.watchers.size = M.watchers.size
  extent : g'.watchers.size = M.watchers.bound
  watcher : ∀ a b, M.watchers.Pairs a b → Option.Rel (Watcher.Matched G M) g.watchers[a]? g'.watchers[b]?
  guest : ∀ b, M.watchers.Stray b → ∀ x, g'.watchers[b]? = some x → x.Guest G M
  made : G.trees ≤ g.trees.size
  forest : g'.trees.size = g.trees.size
  tree : ∀ t, G.trees ≤ t → Option.Rel (Tree.Matched M) g.trees[t]? g'.trees[t]?
  hosted : ∀ t, t < G.trees → Option.Rel (Tree.Hosts G M) g.trees[t]? g'.trees[t]?

end

/-! ### Later on -/

theorem optionRel_mono {α : Type} {R S : α → α → Prop} (hRS : ∀ x y, R x y → S x y) {x y : Option α}
    (hxy : Option.Rel R x y) : Option.Rel S x y := by
  cases hxy with
  | none => exact .none
  | some hxy => exact .some (hRS _ _ hxy)

section

variable {G : Guests κ} {M N : Matching} (h : M ≤ N)

include h

theorem Attachment.Guest.mono {a : Attachment} (ha : a.Guest G M) : a.Guest G N :=
  ⟨ha.tree, h.known ha.context⟩

theorem Listener.Matched.mono {l l' : Listener κ} (hl : l.Matched M l') : l.Matched N l' := by
  cases hl with
  | code k context => exact .code k context
  | member hw i => exact .member (h.watchers.pairs hw) i

theorem Listener.Guest.mono {l : Listener κ} (hl : l.Guest M) : l.Guest N := by
  cases hl with
  | member hw i => exact .member (h.watchers.stray hw) i

theorem ChangeListener.Matched.mono {l l' : ChangeListener κ} (hl : l.Matched M l') : l.Matched N l' := by
  cases hl with
  | code k => exact .code k
  | membership hw => exact .membership (h.watchers.pairs hw)

theorem ChangeListener.Guest.mono {l : ChangeListener κ} (hl : l.Guest M) : l.Guest N := by
  cases hl with
  | membership hw => exact .membership (h.watchers.stray hw)

theorem Matching.Items.mono {e e' : ObjectId × WatcherId} (he : M.Items e e') : N.Items e e' :=
  ⟨he.1, h.watchers.pairs he.2⟩

theorem BoundObject.Matched.mono {x x' : BoundObject} (hx : x.Matched M x') : x.Matched N x' where
  subject := hx.subject
  subscriptions := hx.subscriptions.imp fun _ _ => h.ids.pairs
  children := hx.children.imp fun _ _ => optionRel_mono fun _ _ => h.watchers.pairs

theorem BoundObject.Guest.mono {x : BoundObject} (hx : x.Guest M) : x.Guest N :=
  ⟨h.known hx.subject, fun id hid => h.ids.stray (hx.subscriptions id hid),
    fun w hw => h.watchers.stray (hx.children w hw)⟩

theorem BoundCollection.Matched.mono {x x' : BoundCollection} (hx : x.Matched M x') : x.Matched N x' :=
  ⟨hx.collection, h.ids.pairs hx.subscription, hx.items.imp fun _ _ => Matching.Items.mono h⟩

theorem BoundCollection.Guest.mono {x : BoundCollection} (hx : x.Guest M) : x.Guest N :=
  ⟨h.ids.stray hx.subscription, fun e he => h.watchers.stray (hx.items e he)⟩

theorem Watcher.Matched.mono {x x' : Watcher κ} (hx : x.Matched G M x') : x.Matched G N x' := by
  cases hx with
  | object plan hsite hbound => exact .object plan hsite (optionRel_mono (fun _ _ => BoundObject.Matched.mono h) hbound)
  | collection item membership hsite hbound =>
    exact .collection item membership hsite (optionRel_mono (fun _ _ => BoundCollection.Matched.mono h) hbound)

theorem Watcher.Guest.mono {x : Watcher κ} (hx : x.Guest G M) : x.Guest G N := by
  cases hx with
  | object hplan hsite hbound => exact .object hplan (hsite.mono h) fun b hb => (hbound b hb).mono h
  | collection hitem hmembership hsite hbound =>
    exact .collection hitem hmembership (hsite.mono h) fun b hb => (hbound b hb).mono h

theorem Tree.Matched.mono {x x' : Tree κ} (hx : x.Matched M x') : x.Matched N x' :=
  ⟨hx.plan, optionRel_mono (fun _ _ => h.watchers.pairs) hx.root, hx.dropped⟩

theorem Tree.Hosts.mono {x x' : Tree κ} (hx : x.Hosts G M x') : x.Hosts G N x' :=
  ⟨hx.idle, hx.plan, fun w hw => h.watchers.stray (hx.root w hw)⟩

theorem Matching.Entry.mono {α : Type} {R S : α → α → Prop} (hRS : ∀ x y, R x y → S x y) {e e' : SubscriptionId × α}
    (he : M.Entry R e e') : N.Entry S e e' :=
  ⟨h.ids.pairs he.1, hRS _ _ he.2⟩

theorem Matching.Foreign.mono {α : Type} {P Q : α → Prop} (hPQ : ∀ x, P x → Q x) {e : SubscriptionId × α}
    (he : M.Foreign P e) : N.Foreign Q e :=
  ⟨h.ids.stray he.1, hPQ _ he.2⟩

theorem Notifier.Hosts.mono {n n' : Notifier (Listener κ)} (hn : n.Hosts M n') : n.Hosts N n' where
  listeners p := (hn.listeners p).mono (fun _ _ => Matching.Entry.mono h fun _ _ => Listener.Matched.mono h)
    fun _ => Matching.Foreign.mono h fun _ => Listener.Guest.mono h
  owners a b hab := hn.owners a b (h.ids.meets hab)

end

namespace World

variable {G : Guests κ} {M : Matching} {g g' : World κ} (h : g.Hosts G M g')

include h

theorem Hosts.newId : M.pairId.ids.Pairs g.nextSubscription g'.nextSubscription := by
  rw [h.next, h.bound]
  exact M.ids.pairs_new

theorem Hosts.newId_guest : M.hostId.ids.Stray g'.nextSubscription :=
  h.bound ▸ M.ids.stray_new

theorem Hosts.newWatcher : M.pairWatcher.watchers.Pairs g.watchers.size g'.watchers.size := by
  rw [h.size, h.extent]
  exact M.watchers.pairs_new

theorem Hosts.newWatcher_guest : M.hostWatcher.watchers.Stray g'.watchers.size :=
  h.extent ▸ M.watchers.stray_new

/-! ### What stands below a watcher -/

theorem Hosts.hasValue (v : Value) : g'.hasValue v = g.hasValue v :=
  hasValue_congr h.outline v

theorem Hosts.watcher_some {a b : WatcherId} (hab : M.watchers.Pairs a b) :
    ∃ x x', g.watchers[a]? = some x ∧ g'.watchers[b]? = some x' ∧ x.Matched G M x' := by
  have hlt : a < g.watchers.size := h.size ▸ hab.lt_size
  have hrel := h.watcher a b hab
  rw [Array.getElem?_eq_getElem hlt] at hrel ⊢
  generalize g'.watchers[b]? = y at hrel ⊢
  cases hrel with
  | some hx => exact ⟨_, _, rfl, rfl, hx⟩

theorem Hosts.childrenOf {a b : WatcherId} (hab : M.watchers.Pairs a b) :
    List.Forall₂ (Option.Rel M.watchers.Pairs) (g.childrenOf a) (g'.childrenOf b) := by
  obtain ⟨x, x', hx, hx', hmatched⟩ := h.watcher_some hab
  simp only [World.childrenOf, boundObject?, hx, hx']
  cases hmatched with
  | object plan _ hbound =>
    cases hbound with
    | none => exact .nil
    | some hb => exact hb.children
  | collection _ _ _ _ => exact .nil

theorem Hosts.watchedItems {a b : WatcherId} (hab : M.watchers.Pairs a b) :
    List.Forall₂ M.Items (g.watchedItems a) (g'.watchedItems b) := by
  obtain ⟨x, x', hx, hx', hmatched⟩ := h.watcher_some hab
  simp only [World.watchedItems, boundCollection?, hx, hx']
  cases hmatched with
  | object _ _ _ => exact .nil
  | collection _ _ _ hbound =>
    cases hbound with
    | none => exact .nil
    | some hb => exact hb.items

theorem Hosts.ownSubscriptions {a b : WatcherId} (hab : M.watchers.Pairs a b) :
    g'.ownSubscriptions b = g.ownSubscriptions a := by
  obtain ⟨x, x', hx, hx', hmatched⟩ := h.watcher_some hab
  simp only [World.ownSubscriptions, hx, hx']
  cases hmatched with
  | object plan _ hbound =>
    cases hbound with
    | none => rfl
    | some hb => exact hb.subscriptions.length_eq.symm
  | collection _ _ _ hbound => cases hbound <;> rfl

theorem Hosts.below (plan : WatchPlan κ) {cs cs' : List (Option WatcherId)}
    (hcs : List.Forall₂ (Option.Rel M.watchers.Pairs) cs cs') :
    List.Forall₂ M.watchers.Pairs (g.below plan cs) (g'.below plan cs') := by
  have hone {c c' : Option WatcherId} {f f' : WatcherId → List WatcherId} (hc : Option.Rel M.watchers.Pairs c c')
      (hf : ∀ w w', M.watchers.Pairs w w' → List.Forall₂ M.watchers.Pairs (f w) (f' w')) :
      List.Forall₂ M.watchers.Pairs (c.toList.flatMap fun w => w :: f w) (c'.toList.flatMap fun w => w :: f' w) := by
    cases hc with
    | none => exact .nil
    | some hw => simpa using ⟨hw, hf _ _ hw⟩
  induction plan generalizing cs cs' with
  | nil => exact .nil
  | value n fire next ih =>
    cases hcs with
    | nil => exact .nil
    | cons _ hcs => exact ih hcs
  | object n fire inside next ihInside ih =>
    cases hcs with
    | nil => exact .nil
    | cons hc hcs =>
      exact List.rel_append (hone hc fun w w' hw => ihInside (h.childrenOf hw)) (ih hcs)
  | collection n fire m item next ihItem ih =>
    cases hcs with
    | nil => exact .nil
    | cons hc hcs =>
      refine List.rel_append (hone hc fun w w' hw => ?_) (ih hcs)
      exact List.rel_flatMap (h.watchedItems hw) fun e e' he => .cons he.2 (ihItem (h.childrenOf he.2))

/-- **The same watchers** stand below a watcher and what it stands for. -/
theorem Hosts.nodes {a b : WatcherId} (hab : M.watchers.Pairs a b) :
    List.Forall₂ M.watchers.Pairs (g.nodes a) (g'.nodes b) := by
  obtain ⟨x, x', hx, hx', hmatched⟩ := h.watcher_some hab
  simp only [World.nodes, hx, hx']
  cases hmatched with
  | object plan _ _ => exact .cons hab (h.below plan (h.childrenOf hab))
  | collection item _ _ _ =>
    refine .cons hab (List.rel_flatMap (h.watchedItems hab) fun e e' he => ?_)
    exact .cons he.2 (h.below item (h.childrenOf he.2))

theorem Hosts.childrenOf_guest {b : WatcherId} (hb : M.watchers.Stray b) :
    ∀ w, some w ∈ g'.childrenOf b → M.watchers.Stray w := by
  have hguest := h.guest b hb
  intro w
  unfold World.childrenOf boundObject?
  cases hx : g'.watchers[b]? with
  | none => simp
  | some x =>
    cases hguest x hx with
    | @object _ _ bound _ _ hbound =>
      cases bound with
      | none => simp
      | some y => exact (hbound y rfl).children w
    | collection _ _ _ _ => simp

theorem Hosts.watchedItems_guest {b : WatcherId} (hb : M.watchers.Stray b) :
    ∀ e ∈ g'.watchedItems b, M.watchers.Stray e.2 := by
  have hguest := h.guest b hb
  intro e
  unfold World.watchedItems boundCollection?
  cases hx : g'.watchers[b]? with
  | none => simp
  | some x =>
    cases hguest x hx with
    | object _ _ _ => simp
    | @collection _ _ _ bound _ _ _ hbound =>
      cases bound with
      | none => simp
      | some y => exact (hbound y rfl).items e

theorem Hosts.below_guest (plan : WatchPlan κ) {cs : List (Option WatcherId)}
    (hcs : ∀ w, some w ∈ cs → M.watchers.Stray w) : ∀ w ∈ g'.below plan cs, M.watchers.Stray w := by
  have htail {c : Option WatcherId} {cs : List (Option WatcherId)} (hcs : ∀ w, some w ∈ c :: cs → M.watchers.Stray w) :
      ∀ w, some w ∈ cs → M.watchers.Stray w := fun w hw => hcs w (List.mem_cons_of_mem _ hw)
  induction plan generalizing cs with
  | nil => simp [World.below]
  | value n fire next ih =>
    cases cs with
    | nil => simp [World.below]
    | cons c cs => exact ih (htail hcs)
  | object n fire inside next ihInside ih =>
    cases cs with
    | nil => simp [World.below]
    | cons c cs =>
      intro w hw
      rcases List.mem_append.mp hw with hw | hw
      · obtain ⟨v, hv, hw⟩ := List.mem_flatMap.mp hw
        have hstray := hcs v (Option.mem_toList.mp hv ▸ List.mem_cons_self)
        rcases List.mem_cons.mp hw with rfl | hw
        · exact hstray
        · exact ihInside (h.childrenOf_guest hstray) w hw
      · exact ih (htail hcs) w hw
  | collection n fire m item next ihItem ih =>
    cases cs with
    | nil => simp [World.below]
    | cons c cs =>
      intro w hw
      rcases List.mem_append.mp hw with hw | hw
      · obtain ⟨v, hv, hw⟩ := List.mem_flatMap.mp hw
        have hstray := hcs v (Option.mem_toList.mp hv ▸ List.mem_cons_self)
        rcases List.mem_cons.mp hw with rfl | hw
        · exact hstray
        · obtain ⟨e, he, hw⟩ := List.mem_flatMap.mp hw
          have hmember := h.watchedItems_guest hstray e he
          rcases List.mem_cons.mp hw with rfl | hw
          · exact hmember
          · exact ihItem (h.childrenOf_guest hmember) w hw
      · exact ih (htail hcs) w hw

/-- **Guests stand** below guests only. -/
theorem Hosts.nodes_guest {b : WatcherId} (hb : M.watchers.Stray b) : ∀ w ∈ g'.nodes b, M.watchers.Stray w := by
  intro w hw
  unfold World.nodes at hw
  split at hw
  · rcases List.mem_cons.mp hw with rfl | hw
    · exact hb
    · exact h.below_guest _ (h.childrenOf_guest hb) w hw
  · rcases List.mem_cons.mp hw with rfl | hw
    · exact hb
    · obtain ⟨e, he, hw⟩ := List.mem_flatMap.mp hw
      have hmember := h.watchedItems_guest hb e he
      rcases List.mem_cons.mp hw with rfl | hw
      · exact hmember
      · exact h.below_guest _ (h.childrenOf_guest hmember) w hw
  · cases hw

/-! ### Trees -/

theorem Hosts.treeRoot {t : TreeId} (ht : G.trees ≤ t) :
    Option.Rel M.watchers.Pairs (g.treeRoot t) (g'.treeRoot t) := by
  have htree := h.tree t ht
  unfold World.treeRoot
  generalize g.trees[t]? = x at htree ⊢
  generalize g'.trees[t]? = x' at htree ⊢
  cases htree with
  | none => exact .none
  | some hx => exact hx.root

theorem Hosts.treeRoot_guest {t : TreeId} (ht : t < G.trees) :
    g.treeRoot t = none ∧ ∀ w, g'.treeRoot t = some w → M.watchers.Stray w := by
  have htree := h.hosted t ht
  unfold World.treeRoot
  generalize g.trees[t]? = x at htree ⊢
  generalize g'.trees[t]? = x' at htree ⊢
  cases htree with
  | none => exact ⟨rfl, by simp⟩
  | some hx => exact ⟨hx.idle, fun w hw => hx.root w hw⟩

theorem Hosts.isAttached {t : TreeId} (ht : G.trees ≤ t) : g'.isAttached t = g.isAttached t := by
  have hroot := h.treeRoot ht
  unfold World.isAttached
  generalize g.treeRoot t = x at hroot ⊢
  generalize g'.treeRoot t = x' at hroot ⊢
  cases hroot <;> rfl

/-- **A tree that is no guest** holds as many subscriptions. -/
theorem Hosts.subscriptionCount {t : TreeId} (ht : G.trees ≤ t) : g'.subscriptionCount t = g.subscriptionCount t := by
  have hsum {ws ws' : List WatcherId} (hws : List.Forall₂ M.watchers.Pairs ws ws') (n : Nat) :
      ws'.foldl (fun n w => n + g'.ownSubscriptions w) n = ws.foldl (fun n w => n + g.ownSubscriptions w) n := by
    induction hws generalizing n with
    | nil => rfl
    | cons hw _ ih => rw [List.foldl_cons, List.foldl_cons, h.ownSubscriptions hw, ih]
  have hroot := h.treeRoot ht
  unfold World.subscriptionCount
  refine hsum ?_ 0
  generalize g.treeRoot t = x at hroot ⊢
  generalize g'.treeRoot t = x' at hroot ⊢
  cases hroot with
  | none => exact .nil
  | some hw => simpa using h.nodes hw

/-- **The attached trees**, with guests among them. -/
theorem Hosts.planted : Woven M.watchers.Pairs M.watchers.Stray g.planted g'.planted := by
  have hroots : ∀ ts ts' : List (Tree κ), List.Forall₂ (fun x x' => x.Matched M x' ∨ x.Hosts G M x') ts ts' →
      Woven M.watchers.Pairs M.watchers.Stray ((ts.filterMap (·.root)).flatMap g.nodes)
        ((ts'.filterMap (·.root)).flatMap g'.nodes) := by
    intro ts ts' hts
    induction hts with
    | nil => exact .nil
    | @cons x x' ts ts' hx _ ih =>
      rcases hx with hx | hx
      · have hroot := hx.root
        simp only [List.filterMap_cons]
        generalize x.root = r at hroot ⊢
        generalize x'.root = r' at hroot ⊢
        cases hroot with
        | none => exact ih
        | some hw => exact (Woven.of_forall₂ (h.nodes hw)).append ih
      · have hroot := hx.root
        simp only [List.filterMap_cons, hx.idle]
        generalize x'.root = r' at hroot ⊢
        cases r' with
        | none => exact ih
        | some w => exact (Woven.of_others (h.nodes_guest (hroot w rfl))).append ih
  refine hroots _ _ (List.forall₂_iff_get.mpr ⟨by simp [h.forest], fun t ht ht' => ?_⟩)
  simp only [List.get_eq_getElem, Array.getElem_toList]
  rcases Nat.lt_or_ge t G.trees with hguest | hown
  · have htree := h.hosted t hguest
    rw [Array.getElem?_eq_getElem (by simpa using ht), Array.getElem?_eq_getElem (by simpa using ht')] at htree
    cases htree with
    | some hx => exact Or.inr hx
  · have htree := h.tree t hown
    rw [Array.getElem?_eq_getElem (by simpa using ht), Array.getElem?_eq_getElem (by simpa using ht')] at htree
    cases htree with
    | some hx => exact Or.inl hx

end World
end LiveRules
