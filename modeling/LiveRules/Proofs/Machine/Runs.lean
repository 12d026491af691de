/-
# Runs

A run starts in the empty world. At rest the client asks for something; then the
machine takes its steps, with whatever client code answers on the way. Whatever
the run, the machine is never far from a stable world: the tasks that bind lead
there, and at rest it is there.

Key definitions: `Run`, `Machine.misses`, `missedIn`, `Machine.hooks`.
Key theorems: `Stable.step`, `Leads.stable`, `Run.leads`.
-/
import LiveRules.Proofs.Machine.Clients

namespace LiveRules

variable {κ σ : Type} {L : Language κ σ}

/-- The machine takes steps from the empty world; at rest it is asked for something,
and the client may have changed its own state. The machines that took a step are
listed, the last one first. -/
inductive Run (L : Language κ σ) : List (Machine κ σ) → Machine κ σ → Prop
  | start (s : σ) : Run L [] (machine {} [] s)
  | ask {past : List (Machine κ σ)} {g : World κ} {s : σ} (h : Run L past (machine g [] s))
      (requests : List (Request κ)) (s' : σ) : Run L past (machine g (requests.map .request) s')
  | step {past : List (Machine κ σ)} {m : Machine κ σ} (h : Run L past m) : Run L (m :: past) (L.step m)

namespace Machine

/-- The members that the next step tells the subscription `id` have left, and that
its watcher does not watch. -/
def misses (m : Machine κ σ) (id : SubscriptionId) : List ObjectId :=
  match m.agenda with
  | .deliverChange _ i (.membership w) change :: _ =>
    if i = id then m.world.lost w i change else []
  | _ => []

/-- The next step hooks code on a subscription. -/
def hooks (m : Machine κ σ) : Bool :=
  match m.agenda with
  | .request (.hook _ _ _) :: _ => true
  | _ => false

end Machine

/-- All that was missed under the subscription `id`. -/
def missedIn : List (Machine κ σ) → SubscriptionId → List ObjectId
  | [], _ => []
  | m :: past, id => missedIn past id ++ m.misses id

/-! ### One step -/

section

variable {g : World κ} {t : Task κ} {rest : List (Task κ)} {missed : SubscriptionId → List ObjectId}

theorem Stable.step_request {r : Request κ} (h : Stable g (.request r :: rest) missed)
    (hhook : ∀ o p k, r ≠ .hook o p k) (st : σ) : Leads L (L.step (machine g (.request r :: rest) st)) missed := by
  have htail := h.tail rfl
  cases r with
  | call k signal =>
    refine Stable.leads (htail.prepend fun t ht => ?_)
    obtain ⟨r, -, rfl⟩ := List.mem_map.mp ht
    exact ⟨rfl, rfl⟩
  | attach t context =>
    have hstep : L.step (machine g (.request (.attach t context) :: rest) st) =
        machine (g.grant rest (.attach t context)).1 ((g.grant rest (.attach t context)).2 ++ rest) st := rfl
    rw [hstep]
    unfold World.grant
    simp only
    split
    · rename_i hcontext
      exact htail.attach t hcontext st
    · exact htail.leads
  | hook o p k => exact absurd rfl (hhook o p k)
  | _ => exact Stable.leads (htail.grant _ (by simp) (by simp))

theorem Stable.step_subscribe {s : Subject} {p : String} {l : Listener κ} {r : Receiver κ}
    (h : Stable g (.subscribe s p l r :: rest) missed) (st : σ) :
    Leads L (L.step (machine g (.subscribe s p l r :: rest) st)) missed := by
  have hcalm := h.calm _ List.mem_cons_self
  cases r with
  | binding b => cases hcalm
  | code receiver =>
    cases l with
    | member w i => cases hcalm
    | code k context => exact Stable.leads ((h.tail rfl).subscribe s p k context receiver)

theorem Stable.step_register {s : Subject} {p : String} {l : Listener κ} {r : Receiver κ}
    (h : Stable g (.register s p l r :: rest) missed) (st : σ) :
    Leads L (L.step (machine g (.register s p l r :: rest) st)) missed := by
  have hcalm := h.calm _ List.mem_cons_self
  cases r with
  | binding b => cases hcalm
  | code receiver =>
    cases l with
    | member w i => cases hcalm
    | code k context => exact Stable.leads ((h.tail rfl).register s p k context receiver)

theorem Task.idle_of_isClient {t : Task κ} (h : t.isClient = true) : t.isDelivery = false ∧ t.isBinding = false := by
  cases t <;> first | exact ⟨rfl, rfl⟩ | cases h

theorem Stable.step_deliver {s : Subject} {id : SubscriptionId} {l : Listener κ}
    (h : Stable g (.deliver s id l :: rest) missed) (st : σ) :
    Leads L (L.step (machine g (.deliver s id l :: rest) st)) missed := by
  by_cases hmember : ∃ w i p, (id, Listener.member w i) ∈ g.listeners s p
  · obtain ⟨w, i, p, hm⟩ := hmember
    obtain ⟨plan, site, b, batch, -, -, -, -, hworks, hstable⟩ := h.deliver_member (L := L) st hm
    exact ⟨_, hworks, hstable.prepend (firing_idle site batch b.subject w)⟩
  · obtain ⟨⟨tasks, hstep, hclient⟩, hstable⟩ := h.deliver_other (L := L) st
      fun w i p hm => hmember ⟨w, i, p, hm⟩
    rw [hstep]
    exact Stable.leads (hstable.prepend fun t ht => Task.idle_of_isClient (hclient t ht))

theorem Stable.step_deliverChange {c : CollectionId} {id : SubscriptionId} {l : ChangeListener κ} {change : Change}
    (h : Stable g (.deliverChange c id l change :: rest) missed) (st : σ) :
    Leads L (L.step (machine g (.deliverChange c id l change :: rest) st))
      fun k => missed k ++ (machine g (.deliverChange c id l change :: rest) st).misses k := by
  by_cases hmember : ∃ w, (id, ChangeListener.membership w) ∈ g.listenersOfCollection c
  · obtain ⟨w, hm⟩ := hmember
    obtain rfl : ChangeListener.membership w = l := ((h.delivers_changes List.mem_cons_self).2.1 _ _ hm).2
    obtain ⟨g', tasks, hworks, hstable, hidle⟩ := h.deliver_membership (L := L) st hm
    have hmissed : missing missed id (g.lost w id change) =
        fun k => missed k ++ (machine g (.deliverChange c id (.membership w) change :: rest) st).misses k := by
      funext k
      simp only [missing, Machine.misses, machine, eq_comm]
    exact ⟨_, hworks, hmissed ▸ hstable.prepend hidle⟩
  · obtain ⟨⟨tasks, hstep, hclient⟩, hstable⟩ := h.deliver_news (L := L) st fun w hm => hmember ⟨w, hm⟩
    rw [hstep]
    have hmissed : ∃ lost, missing missed id lost =
        fun k => missed k ++ (machine g (.deliverChange c id l change :: rest) st).misses k := by
      cases l with
      | code k => exact ⟨[], (missing_nothing missed id).trans (funext fun k => (List.append_nil _).symm)⟩
      | membership w =>
        refine ⟨g.lost w id change, funext fun k => ?_⟩
        simp only [missing, Machine.misses, machine, eq_comm]
    obtain ⟨lost, hmissed⟩ := hmissed
    exact Stable.leads (hmissed ▸ (hstable lost).prepend fun t ht => Task.idle_of_isClient (hclient t ht))

theorem Stable.step_fire {site : Attachment} {batch : Batch κ} (h : Stable g (.fire site batch :: rest) missed)
    (st : σ) : Leads L (L.step (machine g (.fire site batch :: rest) st)) missed := by
  refine Stable.leads ((h.tail rfl).prepend fun t ht => ?_)
  simp only [machine, Language.carry] at ht
  cases halive : Scene.alive { world := g, agenda := .fire site batch :: rest } site.context with
  | false => simp [halive] at ht
  | true =>
    simp only [halive, if_true] at ht
    rcases List.mem_append.mp ht with ht | ht
    · obtain ⟨e, -, rfl⟩ := List.mem_map.mp ht
      exact ⟨rfl, rfl⟩
    · obtain rfl := List.mem_singleton.mp ht
      exact ⟨rfl, rfl⟩

/-- **One step** from a stable world leads to a stable world. -/
theorem Stable.step (h : Stable g (t :: rest) missed) (st : σ) (hhook : (machine g (t :: rest) st).hooks = false) :
    Leads L (L.step (machine g (t :: rest) st)) fun id => missed id ++ (machine g (t :: rest) st).misses id := by
  have hquiet : (∀ c id l change, t ≠ .deliverChange c id l change) →
      (fun id => missed id ++ (machine g (t :: rest) st).misses id) = missed := by
    intro hne
    funext id
    cases t <;> first | exact List.append_nil _ | exact absurd rfl (hne _ _ _ _)
  cases t with
  | deliverChange c id l change => exact h.step_deliverChange st
  | request r =>
    rw [hquiet (by simp)]
    refine h.step_request (fun o p k heq => ?_) st
    subst heq
    cases hhook
  | perform a context =>
    rw [hquiet (by simp)]
    exact Stable.leads ((h.tail rfl).perform L _ rfl st a context)
  | fire site batch =>
    rw [hquiet (by simp)]
    exact h.step_fire st
  | deliver s id l =>
    rw [hquiet (by simp)]
    exact h.step_deliver st
  | subscribe s p l r =>
    rw [hquiet (by simp)]
    exact h.step_subscribe st
  | register s p l r =>
    rw [hquiet (by simp)]
    exact h.step_register st
  | release held =>
    rw [hquiet (by simp)]
    cases held with
    | tree t => exact Stable.leads ((h.tail rfl).bury _ rfl t)
    | value v => exact Stable.leads (h.tail rfl)
    | watcher w => exact Stable.leads (h.tail rfl)
  | bind w v => cases h.calm _ List.mem_cons_self
  | bindMembers b => cases h.calm _ List.mem_cons_self
  | enrol e => cases h.calm _ List.mem_cons_self
  | plant t w => cases h.calm _ List.mem_cons_self

end

/-! ### Whole runs -/

theorem Leads.step {m : Machine κ σ} {missed : SubscriptionId → List ObjectId} (h : Leads L m missed)
    (hhook : m.hooks = false) : Leads L (L.step m) fun id => missed id ++ m.misses id := by
  obtain ⟨m', hworks, hstable⟩ := h
  cases hworks with
  | done =>
    obtain ⟨⟨g, agenda⟩, s⟩ := m
    cases agenda with
    | nil =>
      have hmissed : (fun id => missed id ++ Machine.misses { world := g, agenda := [], state := s } id) = missed :=
        funext fun id => List.append_nil _
      rw [hmissed]
      exact hstable.leads
    | cons t rest => exact hstable.step s hhook
  | step hm ht hworks =>
    have hmissed : (fun id => missed id ++ m.misses id) = missed := by
      funext id
      unfold Machine.misses
      rw [hm]
      rename_i t rest
      cases t <;> first | exact List.append_nil _ | cases ht
    rw [hmissed]
    exact ⟨m', hworks, hstable⟩

theorem World.empty_filed : ({} : World κ).Filed := by
  have hnotifier : ∀ s, ({} : World κ).notifierOf s = {} := by
    intro s
    cases s <;> simp [World.notifierOf]
  have hlisteners : ∀ s p, ({} : World κ).listeners s p = [] := by
    intro s p
    simp [World.listeners, hnotifier, Notifier.listenersOf, Table.get?]
  have hchanges : ∀ c, ({} : World κ).listenersOfCollection c = [] := by
    intro c
    simp [World.listenersOfCollection]
  constructor
  case agrees => exact fun s => hnotifier s ▸ Notifier.empty_agrees
  case older => simp [hlisteners]
  case single => simp [hlisteners]
  case changesOlder => simp [hchanges]
  case changesAscending => simp [hchanges]
  case changesSingle => simp [hchanges]

theorem World.empty_grown : ({} : World κ).Grown [] := by
  have hnone : ∀ (w : Nat) (x : Watcher κ), ({} : World κ).watchers[w]? ≠ some x := by simp
  have hlisted : ∀ w, ({} : World κ).listed w = [] := by
    intro w
    simp [World.listed]
  have hlisteners : ∀ s p, ({} : World κ).listeners s p = [] := by
    intro s p
    cases s <;> simp [World.listeners, World.notifierOf, Notifier.listenersOf, Table.get?]
  constructor
  case toLedger =>
    constructor
    case filed => exact World.empty_filed
    case member => simp [hlisteners, World.Subscribed]
    case membership => simp [World.listenersOfCollection]
    case fits => exact fun hw => absurd hw (hnone _ _)
    case known => exact fun hw => absurd hw (hnone _ _)
  case toShaped =>
    constructor
    case paired => exact fun hw => absurd hw (hnone _ _)
    case posts => exact fun hw => absurd hw (hnone _ _)
    case items => exact fun hw => absurd hw (hnone _ _)
    case nodup => simp [hlisted]
    case single => simp [hlisted]
    case older => simp [hlisted]
  case sane => constructor <;> simp [World.baseOf, World.itemsOf]
  case anchored =>
    rintro w ⟨x, hx, -⟩
    exact absurd hx (hnone _ _)
  case topmost => simp
  case children_younger => exact fun hw => absurd hw (hnone _ _)
  case items_younger => exact fun hw => absurd hw (hnone _ _)

theorem stable_empty : Stable ({} : World κ) [] fun _ => [] := by
  have hnone : ∀ (w : Nat) (x : Watcher κ), ({} : World κ).watchers[w]? ≠ some x := by simp
  constructor
  case grown => exact World.empty_grown
  case rooted => simp [World.Rooted]
  case complete => exact fun w => ⟨fun hw => absurd hw (hnone _ _), fun hw => absurd hw (hnone _ _)⟩
  case fresh => exact fun hw => absurd hw (hnone _ _)
  case balanced => exact fun hw => absurd hw (hnone _ _)
  case calm => simp
  case delivers => simp
  case delivers_changes => simp
  case unmissed => simp

/-- At rest the world itself is stable. -/
theorem Leads.stable {g : World κ} {s : σ} {missed : SubscriptionId → List ObjectId}
    (h : Leads L (machine g [] s) missed) : Stable g [] missed := by
  obtain ⟨m', hworks, hstable⟩ := h
  cases hworks with
  | done => exact hstable
  | step hm ht hworks => cases hm

/-- **Every run** leads to a stable world, if no code is hooked on subscriptions. -/
theorem Run.leads {past : List (Machine κ σ)} {m : Machine κ σ} (h : Run L past m)
    (hhooks : ∀ n ∈ past, n.hooks = false) : Leads L m (missedIn past) := by
  induction h with
  | start s => exact Stable.leads stable_empty
  | ask h requests s' ih =>
    have hidle : ∀ t ∈ requests.map Task.request, t.isDelivery = false ∧ t.isBinding = false := by
      intro t ht
      obtain ⟨r, -, rfl⟩ := List.mem_map.mp ht
      exact ⟨rfl, rfl⟩
    have hasked := (ih hhooks).stable.prepend hidle
    rw [List.append_nil] at hasked
    exact Stable.leads hasked
  | step h ih =>
    exact (ih fun n hn => hhooks n (List.mem_cons_of_mem _ hn)).step (hhooks _ List.mem_cons_self)

end LiveRules
