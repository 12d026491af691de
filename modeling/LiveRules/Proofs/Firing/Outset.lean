/-
# At the outset of a batch

A batch is due because a watcher is told of a change, and what it watches has followed
the change when the batch is due: below a property that was written is held what its
value requires now, and nothing on account of the value before; the members that joined
a collection are watched, and those that left are not. This holds of every batch of a
run, however many rounds are still going on.

Key definitions: `Machine.Prompted`, `Machine.Resubscribed`, `Machine.TookIn`.
Key theorems: `Run.prompted`, `resubscribed_before_actions`.
-/
import LiveRules.Proofs.Disposal.Tops
import LiveRules.Proofs.Mirror.Anew

namespace LiveRules

variable {κ σ : Type} {L : Language κ σ}

namespace Machine

/-- At `m` the watcher `w` is told that the property at its `i`th place, `p`, has changed;
at `n` what hangs there has followed the value that the property has then. -/
structure Resubscribed (m n : Machine κ σ) (w i : Nat) (plan : WatchPlan κ) (site : Attachment) (b : BoundObject)
    (p : String) (batch : Batch κ) : Prop where
  told : ∃ id rest, m.agenda = .deliver (m.world.home b.subject p) id (.member w i) :: rest ∧
    b.subscriptions[i]? = some id
  place : plan.place? i = some (p, batch)
  bound : m.world.watchers[w]? = some (.object plan site (some b))
  books : n.world.watchers[w]? = some (.object plan site (some b))
  below : ∀ x, plan.post? site i = some x → ∃ c, b.child? i = some c ∧
    n.world.Holds c x (n.world.memberValue b.subject p) ∧ m.world.LetsGo n.world c

/-- At `m` the collection's watcher `w` is told of a change; at `n` those that are `gone`
are not watched any more, and those that `joined` are. -/
structure TookIn (m n : Machine κ σ) (w : Nat) (item : WatchPlan κ) (site : Attachment) (b : BoundCollection)
    (change : Change) (batch : Batch κ) (gone stay joined : List (ObjectId × WatcherId)) : Prop where
  told : ∃ rest, m.agenda = .deliverChange b.collection b.subscription (.membership w) change :: rest
  bound : m.world.watchers[w]? = some (.collection item batch site (some b))
  watched : b.items.Perm (gone ++ stay)
  left : ∀ o, (gone.map (·.1)).count o = min ((b.items.map (·.1)).count o) (change.removed.count o)
  books : n.world.watchers[w]? = some (.collection item batch site (some { b with items := stay ++ joined }))
  added : joined.map (·.1) = if item.isNil then [] else change.added
  holds : ∀ e ∈ joined, n.world.Holds e.2 (.object item site none) (.object e.1)
  letsGo : ∀ e ∈ gone, m.world.LetsGo n.world e.2

/-- A change that is accurate about what was watched releases all those who left, and
leaves watched just those who are members. -/
theorem TookIn.accurate {m n : Machine κ σ} {w : Nat} {item : WatchPlan κ} {site : Attachment} {b : BoundCollection}
    {change : Change} {batch : Batch κ} {gone stay joined : List (ObjectId × WatcherId)}
    (h : TookIn m n w item site b change batch gone stay joined) (hitem : item.isNil = false) {members : List ObjectId}
    (haccurate : change.Accurate (b.items.map (·.1)) members) :
    (gone.map (·.1)).Perm change.removed ∧ ((stay ++ joined).map (·.1)).Perm members := by
  obtain ⟨staying, hwatched, hmembers⟩ := haccurate
  have hadded := h.added
  simp only [hitem, Bool.false_eq_true, if_false] at hadded
  have hgone : ∀ o, (gone.map (·.1)).count o = change.removed.count o := by
    intro o
    rw [h.left, hwatched.count_eq, List.count_append]
    exact min_eq_right (Nat.le_add_left _ _)
  refine ⟨List.perm_iff_count.mpr hgone, List.perm_iff_count.mpr fun o => ?_⟩
  have hall := (h.watched.map (·.1)).count_eq o
  rw [hwatched.count_eq, List.map_append, List.count_append, List.count_append, hgone] at hall
  rw [hmembers.count_eq, List.map_append, hadded, List.count_append, List.count_append]
  omega

end Machine

/-! ### Strides that lead to a batch -/

section

variable {g : World κ} {rest : List (Task κ)} {missed : SubscriptionId → List ObjectId} (st : σ) {site : Attachment}
  {batch : Batch κ}

/-- **Following a value** ends with all below subscribed to it. -/
theorem Stable.resubscribed {s : Subject} {id : SubscriptionId} {w i : Nat} {p : String} {plan b}
    (h : Stable g (.deliver s id (.member w i) :: rest) missed)
    (hw : g.watchers[w]? = some (.object plan site (some b))) (hid : b.subscriptions[i]? = some id)
    (hentry : plan.place? i = some (p, batch)) (agenda : List (Task κ)) :
    Machine.Resubscribed (machine g (.deliver s id (.member w i) :: rest) st)
      (machine (g.refollow b i p) agenda st) w i plan site b p batch := by
  have hm : (id, Listener.member w i) ∈ g.listeners (g.home b.subject p) p :=
    h.grown.member.mpr ⟨b.subject, batch, ⟨plan, site, b, hw, hid, hentry, rfl⟩, rfl⟩
  obtain ⟨hs, -⟩ := (h.delivers List.mem_cons_self).2 _ _ _ hm
  constructor
  case told => exact ⟨id, rest, congrArg (fun s => Task.deliver s id (.member w i) :: rest) hs.symm, hid⟩
  case place => exact hentry
  case bound => exact hw
  case books =>
    rcases h.refollow_cases (i := i) (p := p) hw with ⟨-, hsame⟩ | ⟨c, -, hcw, -, hre⟩
    · exact (congrArg (fun g : World κ => g.watchers[w]?) hsame).trans hw
    · exact (hre.lister_kept h.grown hcw).trans hw
  case below =>
    intro x hx
    have hlt : i < b.children.length := by
      rw [h.grown.paired hw]
      exact (List.getElem?_eq_some_iff.mp hid).1
    have hposted := h.grown.posts hw i _ (List.getElem?_eq_getElem hlt)
    rcases h.refollow_cases (i := i) (p := p) hw with ⟨hnone, -⟩ | ⟨c, hc, hcw, -, hre⟩
    · -- the plan posts a watcher there
      rw [BoundObject.child?, List.getElem?_eq_getElem hlt] at hnone
      have hnone : b.children[i] = none := hnone
      rw [hnone, hx] at hposted
      cases hposted
    · obtain ⟨y, hy, hpost⟩ := h.grown.posts hw i (some c) (BoundObject.child?_eq_some.mp hc)
      rw [hx] at hpost
      cases hpost
      have hclt := h.grown.lt_of_mem_listed hcw
      refine ⟨c, hc, ?_, hre.letsGo h.grown⟩
      rw [show (machine (g.refollow b i p) agenda st).world.memberValue b.subject p = g.memberValue b.subject p from
        World.memberValue_congr hre.outline ..]
      exact hre.holds h.grown hclt hy

/-- **Taking a change in** ends with those who joined watched, and those who left not. -/
theorem Stable.tookIn {c : CollectionId} {id : SubscriptionId} {w : Nat} {change : Change} {item b}
    (h : Stable g (.deliverChange c id (.membership w) change :: rest) missed)
    (hw : g.watchers[w]? = some (.collection item batch site (some b))) (hid : b.subscription = id)
    (agenda : List (Task κ)) :
    ∃ gone stay joined, Machine.TookIn (machine g (.deliverChange c id (.membership w) change :: rest) st)
      (machine (g.regather w item site b change) agenda st) w item site b change batch gone stay joined := by
  have hm : (id, ChangeListener.membership w) ∈ g.listenersOfCollection b.collection :=
    h.grown.membership.mpr ⟨item, batch, site, b, hw, hid, rfl⟩
  obtain ⟨hc, -⟩ := (h.delivers_changes List.mem_cons_self).2.1 _ _ hm
  have hre := h.regathered hw
  obtain ⟨gone, -, hperm⟩ := World.takeItems_perm change.removed b.items
  obtain ⟨joined, hbooks, hadded, hnew⟩ := hre.books
  set stay := (World.takeItems b.items change.removed).2 with hstay
  refine ⟨gone, stay, joined, ?_⟩
  constructor
  case told => exact ⟨rest, by rw [hc, hid]; rfl⟩
  case bound => exact hw
  case watched => exact hperm
  case left =>
    intro o
    have hall := (hperm.map (·.1)).count_eq o
    rw [List.map_append, List.count_append, hstay, World.count_takeItems] at hall
    omega
  case books => exact hbooks
  case added => exact hadded
  case holds => exact fun e he => hre.holds hbooks (List.mem_append_right _ he) (hnew e he)
  case letsGo =>
    intro e he
    have hmem : e.2 ∈ g.listed w := by
      rw [World.listed_of_get hw]
      exact List.mem_map_of_mem (hperm.mem_iff.mpr (List.mem_append_left _ he))
    refine hre.letsGo h.grown hw hmem fun hlisted => ?_
    rw [World.listed_of_get hbooks] at hlisted
    obtain ⟨e', he', heq⟩ := List.mem_map.mp hlisted
    rcases List.mem_append.mp he' with he' | he'
    · -- nobody is watched by two entries of the books
      have hnodup : ((gone ++ stay).map (·.2)).Nodup := by
        have hlisted : (g.listed w).Nodup := h.grown.nodup w
        rw [World.listed_of_get hw] at hlisted
        exact (hperm.map Prod.snd).nodup_iff.mp hlisted
      rw [List.map_append] at hnodup
      exact (List.nodup_append.mp hnodup).2.2 _ (List.mem_map_of_mem he) _ (List.mem_map_of_mem he') heq.symm
    · exact absurd (h.grown.lt_of_mem_listed hmem) (not_lt.mpr (heq ▸ hnew e' he'))

end

/-! ### Where a batch comes from -/

/-- The batch that is due at `n` is due by the stride that has led there, from a machine
that was gone through. -/
def Machine.Prompted (L : Language κ σ) (past : List (Machine κ σ)) (n : Machine κ σ) (site : Attachment)
    (batch : Batch κ) : Prop :=
  ∃ before g u rest s g' tasks s', machine g (u :: rest) s :: before ⊆ past ∧ Run L before (machine g (u :: rest) s) ∧
    Strides L g s u rest g' tasks s' ∧ Works L (L.step (machine g (u :: rest) s)) n ∧
      tasks.head? = some (.fire site batch) ∧ n = machine g' (tasks ++ rest) s'

theorem Run.prompted {past : List (Machine κ σ)} {n : Machine κ σ} (h : Run L past n)
    (hhooks : ∀ k ∈ past, k.hooks = false) {site : Attachment} {batch : Batch κ}
    (hfire : n.agenda.head? = some (.fire site batch)) : Machine.Prompted L past n site batch := by
  obtain ⟨s₀, hresumes⟩ := h.resumes
  have hkept := hresumes.keeps
    (P := fun k => k.Settles ∧ ∀ site batch, k.agenda.head? = some (.fire site batch) →
      Machine.Prompted L past k site batch)
    ⟨_, .done _, .empty s₀, fun _ _ hhead => nomatch hhead⟩ ?_ ?_
  · obtain ⟨k, hworks, -, hprompted⟩ := hkept
    cases hworks with
    | done => exact hprompted site batch hfire
    | step hm ht =>
      rw [hm] at hfire
      cases hfire
      cases ht
  · intro g s hk requests s'
    refine ⟨hk.1.ask requests s', fun site batch hhead => ?_⟩
    obtain ⟨r, -, heq⟩ := List.mem_map.mp (List.mem_of_head? hhead)
    cases heq
  · intro before g u rest s hbefore hsub hk
    obtain ⟨g', tasks, s', hs, hworks, hsettles⟩ := hk.1.stride (L := L) (hhooks _ (hsub List.mem_cons_self))
    refine ⟨_, hworks, hsettles, fun site batch hhead => ?_⟩
    have hfirst : tasks.head? = some (.fire site batch) := by
      cases tasks with
      | cons t tasks => exact hhead
      | nil => cases hk.1.poised.1 _ (List.mem_of_head? hhead)
    have hrun : Run L before (machine g (u :: rest) s) := by
      have := (Run.start (L := L) s₀).resume hbefore
      rwa [List.append_nil] at this
    exact ⟨before, g, u, rest, s, g', tasks, s', hsub, hrun, hs, hworks, hfirst, rfl⟩

/-- Where a batch is due, its watcher has followed a value or taken a change in. -/
theorem Machine.Prompted.cases {past : List (Machine κ σ)} {n : Machine κ σ} {site : Attachment} {batch : Batch κ}
    (h : Machine.Prompted L past n site batch) (hhooks : ∀ k ∈ past, k.hooks = false) :
    ∃ before m, m :: before ⊆ past ∧ Run L before m ∧ Works L (L.step m) n ∧ n.world.outline = m.world.outline ∧
      ((∃ w i plan b p, m.Resubscribed n w i plan site b p batch) ∨
        ∃ w item b change gone stay joined, m.TookIn n w item site b change batch gone stay joined) := by
  obtain ⟨before, g, u, rest, s, g', tasks, s', hsub, hrun, hs, hworks, hfirst, rfl⟩ := h
  refine ⟨before, _, hsub, hrun, hworks, ?_⟩
  have hleads := hrun.leads fun k hk => hhooks k (hsub (List.mem_cons_of_mem _ hk))
  cases hs with
  | pass hcarry htells hreach => cases htells.fires _ (List.mem_of_head? hfirst)
  | @follow s id w i p plan site' b batch' hu hw hid hentry =>
    subst hu
    cases hfirst
    have hstable := hleads.front rfl rfl
    refine ⟨?_, Or.inl ⟨w, i, plan, b, p, hstable.resubscribed _ hw hid hentry _⟩⟩
    rcases hstable.refollow_cases (i := i) (p := p) hw with ⟨-, hsame⟩ | ⟨c, -, -, -, hre⟩
    · exact congrArg World.outline hsame
    · exact hre.outline
  | @take c id w change item batch' site' b hu hw hid =>
    subst hu
    cases hfirst
    have hstable := hleads.front rfl rfl
    obtain ⟨gone, stay, joined, htook⟩ := hstable.tookIn s hw hid _
    exact ⟨(hstable.regathered hw).outline, Or.inr ⟨w, item, b, change, gone, stay, joined, htook⟩⟩
  | uproot => cases hfirst
  | plant => cases hfirst

/-- **What is watched is up to date before the first action.** Whenever a batch is due,
its first action starts in the world there is then, and the batch is due because a
watcher, told of a change just before, has followed it. If a property was written, what
is held below it is what its value requires, each round tells as many of the watchers
there as are to be subscribed, and nothing of what was held there before is held any
more. If a collection's members changed, those who joined are watched and those who left
are not; a change that is accurate about what was watched leaves just the members
watched, and where no change is made while another is told of, the changes that a
collection tells of are accurate. A write starts a round, and who is told in a round, and
is still subscribed then, has its batch due next. No code is hooked on subscriptions. -/
theorem resubscribed_before_actions {past : List (Machine κ σ)} {n : Machine κ σ} (h : Run L past n)
    (hhooks : ∀ k ∈ past, k.hooks = false) :
    (∀ site batch behind, n.agenda = .fire site batch :: behind →
      (L.step n).world = n.world ∧ ∃ m ∈ past, Works L (L.step m) n ∧ n.world.outline = m.world.outline ∧
        ((∃ w i plan b p, m.Resubscribed n w i plan site b p batch) ∨
          ∃ w item b change gone stay joined, m.TookIn n w item site b change batch gone stay joined ∧
            (item.isNil = false →
              (∀ members, change.Accurate (b.items.map (·.1)) members →
                (gone.map (·.1)).Perm change.removed ∧ ((stay ++ joined).map (·.1)).Perm members) ∧
              ((∀ k ∈ past, ¬ k.Nests L) → ∀ members, n.world.listOf b.collection = some members →
                change.Accurate (b.items.map (·.1)) members)))) ∧
      (∀ o p v behind, n.agenda = .request (.write o p v) :: behind → n.world.hasObject o = true →
        n.world.hasValue v = true → (L.step n).agenda = n.world.round (.object (n.world.holder o p)) p ++ behind) ∧
      ∀ s id w i behind, n.agenda = .deliver s id (.member w i) :: behind →
        ((n.world.notifierOf s).isLive id = true → ∃ k plan site b p batch,
          n.world.watchers[w]? = some (.object plan site (some b)) ∧ plan.place? i = some (p, batch) ∧
            Works L (L.step n) k ∧ k.agenda = firing site batch b.subject w ++ behind) ∧
        ((n.world.notifierOf s).isLive id = false → L.step n = { n with agenda := behind }) := by
  refine ⟨fun site batch behind hfire => ?_, fun o p v behind hwrite ho hv => ?_, fun s id w i behind htold => ?_⟩
  · obtain ⟨before, m, hsub, hrun, hworks, houtline, hcause⟩ :=
      (h.prompted hhooks (by rw [hfire]; rfl) : Machine.Prompted L past n site batch).cases hhooks
    refine ⟨?_, m, hsub List.mem_cons_self, hworks, houtline, hcause.imp_right ?_⟩
    · simp only [Language.step, hfire, Language.carry]
    · rintro ⟨w, item, b, change, gone, stay, joined, htook⟩
      refine ⟨w, item, b, change, gone, stay, joined, htook, fun hitem => ⟨fun members => htook.accurate hitem,
        fun hnest members hmembers => ?_⟩⟩
      have hbefore : ∀ k ∈ before, k ∈ past := fun k hk => hsub (List.mem_cons_of_mem _ hk)
      obtain ⟨horderly, hmissed⟩ :=
        hrun.unmissed (fun k hk => hhooks k (hbefore k hk)) fun k hk => hnest k (hbefore k hk)
      obtain ⟨rest, htold⟩ := htook.told
      have hstable := (hrun.leads fun k hk => hhooks k (hbefore k hk)).front htold rfl
      rw [htold] at horderly hstable
      rw [World.listOf_congr houtline] at hmembers
      exact horderly.accurate hstable (hmissed _) htook.bound rfl hitem hmembers
  · simp [Language.step, hwrite, Language.carry, World.grant, ho, hv, World.write]
  · obtain ⟨⟨g, agenda⟩, st⟩ := n
    obtain rfl : agenda = .deliver s id (.member w i) :: behind := htold
    have hstable := (h.leads hhooks).front rfl rfl
    constructor
    · intro hlive
      obtain ⟨p, hm⟩ := hstable.listener_of_live hlive
      obtain ⟨plan, site, b, batch, hw, -, hentry, -, hworks, -⟩ := hstable.deliver_member (L := L) st hm
      exact ⟨_, plan, site, b, p, batch, hw, hentry, hworks, rfl⟩
    · intro hdead
      simp only at hdead
      simp [Language.step, Language.carry, Scene.deliver, hdead]

/-! ### One batch -/

/-- A tree that watches the name of a context's item, and is about to run the batch that
a new item has made due. -/
def swapping : List (Machine Unit Unit) × Machine Unit Unit :=
  idle.trail 24 [] (machine {} ([.newObject "first" [] none [], .newObject "second" [] none [],
    .newObject "context" [("item", .object 0)] none [],
    .newTree (.object "item" [(0, .code ())] (.value "name" [(1, .code ())] .nil) .nil), .attach 0 2,
    .write 2 "item" (.object 1)].map .request) ())

theorem swapping_run : Run idle swapping.1 swapping.2 :=
  ((Run.start ()).ask _ ()).trail 24

theorem swapping_hooks : ∀ k ∈ swapping.1, k.hooks = false := by
  have hall : swapping.1.all (fun k => !k.hooks) = true := by decide +kernel
  intro k hk
  simpa using List.all_eq_true.mp hall k hk

def swappingSite : Attachment :=
  { tree := 0, top := 0, context := 2 }

/-- The tree's watchers: of the context's item, and of the item's name. -/
theorem swapping_watchers {w : Nat} {x : Watcher Unit} (h : swapping.2.world.watchers[w]? = some x) :
    w = 0 ∧ x = .object (.object "item" [(0, .code ())] (.value "name" [(1, .code ())] .nil) .nil) swappingSite
        (some { subject := .object 2, subscriptions := [0], children := [some 1] }) ∨
      w = 1 ∧ x = .object (.value "name" [(1, .code ())] .nil) swappingSite
        (some { subject := .object 1, subscriptions := [2], children := [none] }) := by
  match w with
  | 0 => exact Or.inl ⟨rfl, (Option.some.inj h).symm⟩
  | 1 => exact Or.inr ⟨rfl, (Option.some.inj h).symm⟩
  | w + 2 => exact absurd (Array.getElem?_eq_some_iff.mp h).1 (Nat.not_lt.mpr (Nat.le_add_left 2 w))

/-- The name of the new item is watched, and that of the old one is not. -/
theorem resubscribed_swapping : (∀ k ∈ swapping.1, k.hooks = false) ∧
    swapping.2.agenda.head? = some (.fire swappingSite [(0, .code ())]) ∧
      (swapping.2.world.heldBelow 1).Perm [.property (.object 1) (some (.object 1)) "name"] ∧
        ∃ m ∈ swapping.1, m.world.LetsGo swapping.2.world 1 := by
  have hfire : swapping.2.agenda = .fire swappingSite [(0, .code ())] :: swapping.2.agenda.tail := by rfl
  obtain ⟨-, m, hm, -, -, hcause⟩ := (resubscribed_before_actions swapping_run swapping_hooks).1 _ _ _ hfire
  refine ⟨swapping_hooks, by rw [hfire]; rfl, ?_⟩
  rcases hcause with ⟨w, i, plan, b, p, hcause⟩ | ⟨w, item, b, change, gone, stay, joined, hcause, -⟩
  · have hplace := hcause.place
    rcases swapping_watchers hcause.books with ⟨rfl, heq⟩ | ⟨rfl, heq⟩ <;> cases heq
    · match i with
      | 0 =>
        cases hplace
        obtain ⟨c, hc, hholds, hletsGo⟩ := hcause.below _ rfl
        cases hc
        exact ⟨hholds.asked, m, hm, hletsGo⟩
      | i + 1 => cases hplace
    · -- the batch is not that of the name
      match i with
      | 0 => cases hplace
      | i + 1 => cases hplace
  · rcases swapping_watchers hcause.books with ⟨-, heq⟩ | ⟨-, heq⟩ <;> cases heq

end LiveRules
