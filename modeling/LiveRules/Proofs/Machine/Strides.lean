/-
# Strides

Between two words of client code the machine takes a *stride*: one step, and then the
tasks that bind, with which nobody interferes. A stride from a stable machine comes to
one of a few things. A watcher follows a new value or takes in a change of members,
and its batch is to be fired next; a tree is taken down or attached; or no watcher and
no tree is touched.

What holds of the machines between strides holds along a run, however long, if one
stride keeps it.

Key definitions: `Resumes`, `Strides`.
Key theorems: `Works.unique`, `Resumes.keeps`, `Stable.strides`, `Run.keeps`.
-/
import LiveRules.Proofs.Machine.Membership
import LiveRules.Proofs.Machine.Tells

namespace LiveRules

variable {κ σ : Type} {L : Language κ σ}

/-! ### Going on from a machine -/

/-- The machine goes on from `m₀`, by steps and by what it is asked for at rest. The
machines that took a step are listed, the last one first. -/
inductive Resumes (L : Language κ σ) (m₀ : Machine κ σ) : List (Machine κ σ) → Machine κ σ → Prop
  | here : Resumes L m₀ [] m₀
  | ask {later : List (Machine κ σ)} {g : World κ} {s : σ} (h : Resumes L m₀ later (machine g [] s))
      (requests : List (Request κ)) (s' : σ) : Resumes L m₀ later (machine g (requests.map .request) s')
  | step {later : List (Machine κ σ)} {m : Machine κ σ} (h : Resumes L m₀ later m) :
    Resumes L m₀ (m :: later) (L.step m)

theorem Run.resume {past later : List (Machine κ σ)} {m₀ m : Machine κ σ} (h : Run L past m₀)
    (h' : Resumes L m₀ later m) : Run L (later ++ past) m := by
  induction h' with
  | here => exact h
  | ask _ requests s' ih => exact ih.ask requests s'
  | step _ ih => exact ih.step

/-- No watcher is being bound. -/
def Machine.Calm (m : Machine κ σ) : Prop :=
  ∀ t ∈ m.agenda, t.isBinding = false

/-- Tasks that bind come to one end. -/
theorem Works.unique {m n n' : Machine κ σ} (h : Works L m n) (h' : Works L m n') (hn : n.Calm) (hn' : n'.Calm) :
    n = n' := by
  induction h with
  | done m =>
    cases h' with
    | done => rfl
    | step hm ht _ => exact absurd (hn _ (hm ▸ List.mem_cons_self)) (by simp [ht])
  | step hm ht _ ih =>
    cases h' with
    | done => exact absurd (hn' _ (hm ▸ List.mem_cons_self)) (by simp [ht])
    | step hm' ht' h' => exact ih h' hn

/-- **What one stride keeps** holds whenever no watcher is being bound. -/
theorem Resumes.keeps {P : Machine κ σ → Prop} {m₀ m : Machine κ σ} {later : List (Machine κ σ)}
    (h : Resumes L m₀ later m) (h₀ : ∃ k, Works L m₀ k ∧ P k)
    (hask : ∀ {g : World κ} {s : σ}, P (machine g [] s) →
      ∀ (requests : List (Request κ)) (s' : σ), P (machine g (requests.map .request) s'))
    (hstride : ∀ {before : List (Machine κ σ)} {g : World κ} {u : Task κ} {rest : List (Task κ)} {s : σ},
      Resumes L m₀ before (machine g (u :: rest) s) → machine g (u :: rest) s :: before ⊆ later →
      P (machine g (u :: rest) s) → ∃ k, Works L (L.step (machine g (u :: rest) s)) k ∧ P k) :
    ∃ k, Works L m k ∧ P k := by
  induction h with
  | here => exact h₀
  | ask _ requests s' ih =>
    obtain ⟨k, hworks, hk⟩ := ih hstride
    cases hworks with
    | done => exact ⟨_, .done _, hask hk requests s'⟩
    | step hm => cases hm
  | @step later m h ih =>
    obtain ⟨k, hworks, hk⟩ :=
      ih fun hbefore hsub => hstride hbefore (List.Subset.trans hsub (List.subset_cons_self _ _))
    cases hworks with
    | step hm ht hworks => exact ⟨k, hworks, hk⟩
    | done =>
      obtain ⟨⟨g, agenda⟩, s⟩ := m
      cases agenda with
      | nil => exact ⟨_, .done _, hk⟩
      | cons u rest => exact hstride h (List.Subset.refl _) hk

/-- A run goes on from the empty world. -/
theorem Run.resumes {past : List (Machine κ σ)} {m : Machine κ σ} (h : Run L past m) :
    ∃ s, Resumes L (machine {} [] s) past m := by
  induction h with
  | start s => exact ⟨s, .here⟩
  | ask _ requests s' ih =>
    obtain ⟨s, hs⟩ := ih
    exact ⟨s, hs.ask requests s'⟩
  | step _ ih =>
    obtain ⟨s, hs⟩ := ih
    exact ⟨s, hs.step⟩

/-- A machine that is gone through on the way. -/
theorem Resumes.between {m₀ m n : Machine κ σ} {later : List (Machine κ σ)} (h : Resumes L m₀ later m)
    (hn : n ∈ later) : ∃ before after, Resumes L m₀ before n ∧ Resumes L n after m := by
  induction h with
  | here => cases hn
  | ask _ requests s' ih =>
    obtain ⟨before, after, hbefore, hafter⟩ := ih hn
    exact ⟨before, after, hbefore, hafter.ask requests s'⟩
  | step h ih =>
    rcases List.mem_cons.mp hn with rfl | hn
    · exact ⟨_, _, h, Resumes.here.step⟩
    · obtain ⟨before, after, hbefore, hafter⟩ := ih hn
      exact ⟨before, _, hbefore, hafter.step⟩

theorem Resumes.trail {m₀ m : Machine κ σ} {later : List (Machine κ σ)} (h : Resumes L m₀ later m) (n : Nat) :
    Resumes L m₀ (L.trail n later m).1 (L.trail n later m).2 := by
  induction n generalizing later m with
  | zero => exact h
  | succ n ih => exact ih h.step

/-! ### Strides -/

namespace World

/-- A watcher is to be told of something by the task. -/
def Reaches (g : World κ) : Task κ → Prop
  | .deliver s id _ => ∃ w i p, (id, Listener.member w i) ∈ g.listeners s p
  | .deliverChange c id _ change =>
    change.isEmpty = false ∧ ∃ w, (id, ChangeListener.membership w) ∈ g.listenersOfCollection c
  | _ => False

end World

/-- What one stride from the world `g` with the agenda `u :: rest` comes to: the world,
the tasks that come in front of `rest`, and the client's state. -/
inductive Strides (L : Language κ σ) (g : World κ) (st : σ) (u : Task κ) (rest : List (Task κ)) :
    World κ → List (Task κ) → σ → Prop
  /-- No watcher is touched. -/
  | pass {g' : World κ} {tasks : List (Task κ)} {s' : σ}
      (hcarry : L.carry g st u rest = { world := g', state := s', tasks }) (htells : Tells g g' tasks)
      (hreach : ¬ g.Reaches u) : Strides L g st u rest g' tasks s'
  /-- A watcher follows the new value of a property. -/
  | follow {s : Subject} {id : SubscriptionId} {w i : Nat} {p : String} {plan site b batch}
      (hu : u = .deliver s id (.member w i)) (hw : g.watchers[w]? = some (.object plan site (some b)))
      (hid : b.subscriptions[i]? = some id) (hentry : plan.place? i = some (p, batch)) :
      Strides L g st u rest (g.refollow b i p) (firing site batch b.subject w) st
  /-- A collection's watcher takes a change in. -/
  | take {c : CollectionId} {id : SubscriptionId} {w : Nat} {change : Change} {item batch site b}
      (hu : u = .deliverChange c id (.membership w) change)
      (hw : g.watchers[w]? = some (.collection item batch site (some b))) (hid : b.subscription = id) :
      Strides L g st u rest (g.regather w item site b change) [.fire site batch, .release (.watcher w)] st
  /-- A tree is taken down, and maybe given up before. -/
  | uproot {t : TreeId} {g₁ : World κ} (hg₁ : g₁ = g ∨ g₁ = g.modifyTree t fun x => { x with dropped := true })
      (hcarry : L.carry g st u rest = { world := g₁.dispose t, state := st, tasks := [] }) (hreach : ¬ g.Reaches u) :
      Strides L g st u rest (g₁.dispose t) [] st
  /-- A tree is taken down, if it was attached, and attached to a context. -/
  | plant {t : TreeId} {tree : Tree κ} {context : ObjectId} (hu : u = .request (.attach t context))
      (htree : (g.dispose t).trees[t]? = some tree) (hcontext : g.hasObject context = true) :
      Strides L g st u rest ((g.dispose t).plantTree t tree.plan context) [.release (.tree t)] st

section

variable {g : World κ} {u : Task κ} {rest : List (Task κ)} {missed : SubscriptionId → List ObjectId} (st : σ)

/-- A stride, and where the machine is then. -/
def Takes (L : Language κ σ) (g : World κ) (u : Task κ) (rest : List (Task κ)) (st : σ) : Prop :=
  ∃ g' tasks s', Strides L g st u rest g' tasks s' ∧
    Works L (L.step (machine g (u :: rest) st)) (machine g' (tasks ++ rest) s') ∧
      (machine g' (tasks ++ rest) s').Calm

theorem Scene.bury_cases (scene : Scene κ) (t : TreeId) :
    scene.bury t = scene.world.dispose t ∨ scene.bury t = scene.world := by
  unfold Scene.bury
  simp only
  split
  · exact Or.inl rfl
  · exact Or.inr rfl

theorem Strides.takes_pass {g' : World κ} {tasks : List (Task κ)} {s' : σ}
    (hcarry : L.carry g st u rest = { world := g', state := s', tasks }) (htells : Tells g g' tasks)
    (hreach : ¬ g.Reaches u) (hstable : Stable g' (tasks ++ rest) missed) : Takes L g u rest st := by
  refine ⟨g', tasks, s', .pass hcarry htells hreach, ?_, hstable.calm⟩
  simp only [Language.step, machine, hcarry]
  exact .done _

theorem Strides.takes_uproot {t : TreeId} {g₁ : World κ}
    (hg₁ : g₁ = g ∨ g₁ = g.modifyTree t fun x => { x with dropped := true })
    (hcarry : L.carry g st u rest = { world := g₁.dispose t, state := st, tasks := [] }) (hreach : ¬ g.Reaches u)
    (hcalm : ∀ v ∈ rest, v.isBinding = false) : Takes L g u rest st := by
  refine ⟨g₁.dispose t, [], st, .uproot hg₁ hcarry hreach, ?_, hcalm⟩
  simp only [Language.step, machine, hcarry]
  exact .done _

theorem Stable.takes_request {r : Request κ} (h : Stable g (.request r :: rest) missed)
    (hhook : ∀ o p k, r ≠ .hook o p k) : Takes L g (.request r) rest st := by
  have htail := h.tail rfl
  have hpass : ∀ {r : Request κ}, (∀ o p k, r ≠ .hook o p k) → (∀ k signal, r ≠ .call k signal) → r.plants = false →
      Takes L g (.request r) rest st := by
    intro r hhook hcall hplants
    have hcarry : L.carry g st (.request r) rest =
        { world := (g.grant rest r).1, state := st, tasks := (g.grant rest r).2 } := by
      cases r <;> first | rfl | exact absurd rfl (hcall _ _)
    refine Strides.takes_pass st hcarry (htail.tells_grant hhook hplants rest) id
      (htail.grant r hhook fun t context heq => ?_)
    subst heq
    cases hplants
  cases r with
  | hook o p k => exact absurd rfl (hhook o p k)
  | call k signal =>
    refine Strides.takes_pass st rfl (.idle g fun v hv => ?_) id (htail.prepend fun v hv => ?_) <;>
      obtain ⟨r, -, rfl⟩ := List.mem_map.mp hv
    · rfl
    · exact ⟨rfl, rfl⟩
  | dispose t => exact Strides.takes_uproot st (.inl rfl) rfl id htail.calm
  | drop t =>
    set g₁ := g.modifyTree t fun x => { x with dropped := true } with hg₁
    have hcarry : L.carry g st (.request (.drop t)) rest =
        { world := ({ world := g₁, agenda := rest } : Scene κ).bury t, state := st, tasks := [] } := rfl
    rcases Scene.bury_cases { world := g₁, agenda := rest } t with hbury | hbury
    · exact Strides.takes_uproot st (.inr hg₁) (hbury ▸ hcarry) id htail.calm
    · rw [hbury] at hcarry
      refine Strides.takes_pass st hcarry (.of_outline rfl rfl (fun v => ?_) (by simp)) id (htail.giveUp t)
      simp only [hg₁, World.treeRoot, World.modifyTree, Array.getElem?_modify]
      split
      · cases g.trees[v]? <;> rfl
      · rfl
  | attach t context =>
    have hcarry : L.carry g st (.request (.attach t context)) rest =
        { world := (g.grant rest (.attach t context)).1, state := st,
          tasks := (g.grant rest (.attach t context)).2 } := rfl
    cases hcontext : g.hasObject context with
    | false =>
      simp only [World.grant, hcontext, Bool.false_eq_true, if_false] at hcarry
      exact Strides.takes_pass st hcarry (.idle g (by simp)) id htail
    | true =>
      simp only [World.grant, hcontext, if_true] at hcarry
      cases htree : (g.dispose t).trees[t]? with
      | none =>
        simp only [World.attach, htree] at hcarry
        exact Strides.takes_uproot st (.inl rfl) hcarry id htail.calm
      | some tree =>
        have hcontext' : (g.dispose t).hasObject context = true :=
          (World.hasValue_congr (g.dispose_outline t) (.object context)).trans hcontext
        have hstable := (htail.dispose t).attached htree (htail.root_dispose htree) hcontext'
        have hidle : ∀ v ∈ [(.release (.tree t) : Task κ)], v.isDelivery = false ∧ v.isBinding = false := by
          simp [Task.isDelivery, Task.isBinding]
        refine ⟨_, _, _, .plant rfl htree hcontext, ?_, (hstable.prepend hidle).calm⟩
        · have hworks := (htail.dispose t).works_plant (L := L) t tree.plan context st
          simpa only [Language.step, machine, hcarry, World.attach, htree] using hworks
  | _ => exact hpass (by simp) (by simp) rfl

/-- A step says what carrying out the task comes to. -/
theorem Language.carry_of_step {g' : World κ} {tasks : List (Task κ)} {s' : σ}
    (h : L.step (machine g (u :: rest) st) = machine g' (tasks ++ rest) s') :
    L.carry g st u rest = { world := g', state := s', tasks } := by
  have hstep : L.step (machine g (u :: rest) st) = machine (L.carry g st u rest).world
      ((L.carry g st u rest).tasks ++ rest) (L.carry g st u rest).state := rfl
  rw [hstep] at h
  unfold machine at h
  simp only [Machine.mk.injEq, Scene.mk.injEq, List.append_cancel_right_eq] at h
  obtain ⟨⟨rfl, rfl⟩, rfl⟩ := h
  rfl

theorem Task.isFire_of_isClient {t : Task κ} (h : t.isClient = true) : t.isFire = false := by
  cases t <;> first | rfl | cases h

theorem Strides.takes_client {tasks : List (Task κ)}
    (hstep : L.step (machine g (u :: rest) st) = machine g (tasks ++ rest) st)
    (hclient : ∀ t ∈ tasks, t.isClient = true) (hreach : ¬ g.Reaches u) (hstable : Stable g rest missed) :
    Takes L g u rest st :=
  Strides.takes_pass st (Language.carry_of_step st hstep)
    (.idle g fun t ht => Task.isFire_of_isClient (hclient t ht)) hreach
    (hstable.prepend fun t ht => Task.idle_of_isClient (hclient t ht))

theorem Strides.takes_released (hstable : Stable g rest missed) {held : Held}
    (hstep : L.step (machine g (.release held :: rest) st) = machine g ([] ++ rest) st) :
    Takes L g (.release held) rest st :=
  Strides.takes_client st hstep (by simp) id hstable

theorem Stable.takes_deliver {s : Subject} {id : SubscriptionId} {l : Listener κ}
    (h : Stable g (.deliver s id l :: rest) missed) : Takes L g (.deliver s id l) rest st := by
  by_cases hmember : ∃ w i p, (id, Listener.member w i) ∈ g.listeners s p
  · obtain ⟨w, i, p, hm⟩ := hmember
    obtain rfl : Listener.member w i = l := ((h.delivers List.mem_cons_self).2 _ _ _ hm).2
    obtain ⟨plan, site, b, batch, hw, hid, hentry, -, hworks, hstable⟩ := h.deliver_member (L := L) st hm
    exact ⟨_, _, _, .follow rfl hw hid hentry, hworks, (hstable.prepend (firing_idle site batch b.subject w)).calm⟩
  · obtain ⟨⟨tasks, hstep, hclient⟩, hstable⟩ := h.deliver_other (L := L) st fun w i p hm => hmember ⟨w, i, p, hm⟩
    exact Strides.takes_client st hstep hclient hmember hstable

theorem Stable.takes_deliverChange {c : CollectionId} {id : SubscriptionId} {l : ChangeListener κ} {change : Change}
    (h : Stable g (.deliverChange c id l change :: rest) missed) :
    Takes L g (.deliverChange c id l change) rest st := by
  by_cases hmember : ∃ w, (id, ChangeListener.membership w) ∈ g.listenersOfCollection c
  · obtain ⟨w, hm⟩ := hmember
    obtain rfl : ChangeListener.membership w = l := ((h.delivers_changes List.mem_cons_self).2.1 _ _ hm).2
    obtain ⟨item, batch, site, b, hw, hid, -⟩ := h.grown.membership.mp hm
    cases hempty : change.isEmpty with
    | true =>
      obtain ⟨k, hworks, hstable⟩ := h.step (L := L) st rfl
      rw [h.step_unchanged st hm hempty] at hworks
      obtain rfl := hworks.unique (.done _) hstable.calm fun t ht => h.calm t (List.mem_cons_of_mem _ ht)
      exact Strides.takes_client st (h.step_unchanged st hm hempty) (by simp)
        (fun hreach => absurd hempty (by rw [hreach.1]; simp)) hstable
    | false =>
      have hidle : ∀ v ∈ [Task.fire site batch, .release (.watcher w)], v.isDelivery = false ∧ v.isBinding = false := by
        simp [Task.isDelivery, Task.isBinding]
      exact ⟨_, _, _, .take rfl hw hid, h.works_regather st hm hempty hw, ((h.regather hw hid).prepend hidle).calm⟩
  · obtain ⟨⟨tasks, hstep, hclient⟩, hstable⟩ := h.deliver_news (L := L) st fun w hm => hmember ⟨w, hm⟩
    exact Strides.takes_client st hstep hclient (fun hreach => hmember hreach.2) (hstable [])

theorem Stable.takes_fire {site : Attachment} {batch : Batch κ} (h : Stable g (.fire site batch :: rest) missed) :
    Takes L g (.fire site batch) rest st := by
  have htasks : ∀ t ∈ (L.carry g st (.fire site batch) rest).tasks,
      t.isFire = false ∧ t.isDelivery = false ∧ t.isBinding = false := by
    intro t ht
    simp only [Language.carry] at ht
    split at ht
    · rcases List.mem_append.mp ht with ht | ht
      · obtain ⟨e, -, rfl⟩ := List.mem_map.mp ht
        exact ⟨rfl, rfl, rfl⟩
      · obtain rfl := List.mem_singleton.mp ht
        exact ⟨rfl, rfl, rfl⟩
    · cases ht
  exact Strides.takes_pass st rfl (.idle g fun t ht => (htasks t ht).1) id
    ((h.tail rfl).prepend fun t ht => (htasks t ht).2)

/-- **One stride** from a stable world, if no code is hooked on a subscription. -/
theorem Stable.strides (h : Stable g (u :: rest) missed) (hhook : (machine g (u :: rest) st).hooks = false) :
    ∃ g' tasks s', Strides L g st u rest g' tasks s' ∧
      Works L (L.step (machine g (u :: rest) st)) (machine g' (tasks ++ rest) s') ∧
        Stable g' (tasks ++ rest) fun id => missed id ++ (machine g (u :: rest) st).misses id := by
  have hcalm := h.calm u List.mem_cons_self
  have htakes : Takes L g u rest st := by
    cases u with
    | request r =>
      refine h.takes_request st fun o p k heq => ?_
      subst heq
      cases hhook
    | deliver s id l => exact h.takes_deliver st
    | deliverChange c id l change => exact h.takes_deliverChange st
    | fire site batch => exact h.takes_fire st
    | perform a context =>
      exact Strides.takes_pass st rfl ((h.tail rfl).tells_perform L _ rfl st a context) id
        ((h.tail rfl).perform L _ rfl st a context)
    | subscribe s p l r =>
      cases r with
      | binding b => cases hcalm
      | code receiver =>
        cases l with
        | member w i => cases hcalm
        | code k context =>
          exact Strides.takes_pass st rfl ((h.tail rfl).tells_subscribe s p k context receiver) id
            ((h.tail rfl).subscribe s p k context receiver)
    | register s p l r =>
      cases r with
      | binding b => cases hcalm
      | code receiver =>
        cases l with
        | member w i => cases hcalm
        | code k context =>
          exact Strides.takes_pass st rfl (g.tells_register s p k context receiver) id
            ((h.tail rfl).register s p k context receiver)
    | release held =>
      cases held with
      | tree t =>
        have hcarry : L.carry g st (.release (.tree t)) rest =
          { world := ({ world := g, agenda := rest } : Scene κ).bury t, state := st, tasks := [] } := rfl
        rcases Scene.bury_cases { world := g, agenda := rest } t with hbury | hbury
        · exact Strides.takes_uproot st (.inl rfl) (hbury ▸ hcarry) id (h.tail rfl).calm
        · rw [hbury] at hcarry
          exact Strides.takes_pass st hcarry (.idle g (by simp)) id (h.tail rfl)
      | value v => exact Strides.takes_released st (h.tail rfl) rfl
      | watcher w => exact Strides.takes_released st (h.tail rfl) rfl
    | _ => cases hcalm
  obtain ⟨g', tasks, s', hstrides, hworks, hcalm'⟩ := htakes
  obtain ⟨k, hworks', hstable⟩ := h.step (L := L) st hhook
  obtain rfl := hworks.unique hworks' hcalm' hstable.calm
  exact ⟨g', tasks, s', hstrides, hworks, hstable⟩

end

/-! ### Along a run -/

/-- A run in which nothing is missed is stable unless a watcher is being bound. -/
theorem Run.stable {past : List (Machine κ σ)} {m : Machine κ σ} (h : Run L past m)
    (hhooks : ∀ n ∈ past, n.hooks = false)
    (hnest : ∀ n ∈ past, ¬ n.Nests L) (hfront : ∀ t ∈ m.agenda.head?, t.isBinding = false) :
    Stable m.world m.agenda fun _ => [] := by
  have hleads := h.leads hhooks
  rw [funext (h.unmissed hhooks hnest).2] at hleads
  obtain ⟨⟨g, agenda⟩, s⟩ := m
  cases agenda with
  | nil => exact Leads.stable (s := s) hleads
  | cons t rest => exact hleads.front rfl (hfront t rfl)

/-- **What every stride of a run keeps** holds when the machine comes to rest, if no code
is hooked on subscriptions and changes are told of one after the other. -/
theorem Run.keeps {P : Machine κ σ → Prop} {past later : List (Machine κ σ)} {m₀ : Machine κ σ} {g : World κ} {s : σ}
    (h : Run L past m₀) (h' : Resumes L m₀ later (machine g [] s)) (hhooks : ∀ n ∈ later ++ past, n.hooks = false)
    (hnest : ∀ n ∈ later ++ past, ¬ n.Nests L) (hfront : ∀ t ∈ m₀.agenda.head?, t.isBinding = false) (h₀ : P m₀)
    (hask : ∀ {g : World κ} {s : σ}, P (machine g [] s) →
      ∀ (requests : List (Request κ)) (s' : σ), P (machine g (requests.map .request) s'))
    (hstride : ∀ {g : World κ} {u : Task κ} {rest : List (Task κ)} {s : σ} {g' : World κ}
      {tasks : List (Task κ)} {s' : σ},
      machine g (u :: rest) s ∈ later → Stable g (u :: rest) (fun _ => []) → Strides L g s u rest g' tasks s' →
        Stable g' (tasks ++ rest) (fun _ => []) → P (machine g (u :: rest) s) → P (machine g' (tasks ++ rest) s')) :
    P (machine g [] s) := by
  have hstable₀ := h.stable (fun n hn => hhooks n (List.mem_append_right _ hn))
    (fun n hn => hnest n (List.mem_append_right _ hn)) hfront
  have hkept := h'.keeps (P := fun m => Stable m.world m.agenda (fun _ => []) ∧ P m) ⟨m₀, .done m₀, hstable₀, h₀⟩ ?_ ?_
  · obtain ⟨k, hworks, -, hP⟩ := hkept
    cases hworks with
    | done => exact hP
    | step hm => cases hm
  · intro g s hP requests s'
    refine ⟨?_, hask hP.2 requests s'⟩
    have hasked : Stable g (requests.map Task.request ++ []) fun _ => [] := hP.1.prepend fun v hv => by
      obtain ⟨r, -, rfl⟩ := List.mem_map.mp hv
      exact ⟨rfl, rfl⟩
    rwa [List.append_nil] at hasked
  · rintro before g u rest s hresumes hsub ⟨hstable₁, hP⟩
    change Stable g (u :: rest) _ at hstable₁
    have hmem : machine g (u :: rest) s ∈ later := hsub List.mem_cons_self
    have hbefore : ∀ n ∈ before ++ past, n ∈ later ++ past := fun n hn =>
      (List.mem_append.mp hn).elim (fun hn => List.mem_append_left _ (hsub (List.mem_cons_of_mem _ hn)))
        (fun hn => List.mem_append_right _ hn)
    have horderly :=
      ((h.resume hresumes).unmissed (fun n hn => hhooks n (hbefore n hn)) fun n hn => hnest n (hbefore n hn)).1
    obtain ⟨g', tasks, s', hs, hworks, hstable⟩ := hstable₁.strides (L := L) s (hhooks _ (List.mem_append_left _ hmem))
    have hmisses : (fun id => [] ++ (machine g (u :: rest) s).misses id) = fun _ => ([] : List ObjectId) :=
      funext fun id => horderly.misses (Stable.leads (L := L) hstable₁) (fun _ => rfl) id
    rw [hmisses] at hstable
    exact ⟨_, hworks, hstable, hstride hmem hstable₁ hs hstable hP⟩

end LiveRules
