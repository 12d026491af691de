/-
# Inert code

While a round is under way, client code is inert if it takes back and makes no
subscription, touches no tree and tells nobody: each task of such code comes to an
end, and the watchers and the listeners are then what they were. A tree fires
nothing meanwhile.

What a tree fires is what its attachment's context is alive for, and the context of
an attached tree is always alive: the watcher at the top holds it.

Key definitions: `Language.Passes`, `Machine.fired`, `Idles`, `Language.Inert`.
Key theorems: `Stable.alive`, `Language.Inert.clear`.
-/
import LiveRules.Proofs.Machine.Sequence
import LiveRules.Proofs.Mirror.Census

namespace LiveRules

variable {κ σ : Type} {L : Language κ σ}

/-! ### Passing through machines -/

/-- The machine `m` takes its steps through the machines `ms`, the first one first, to
`n`. -/
inductive Language.Passes (L : Language κ σ) : Machine κ σ → List (Machine κ σ) → Machine κ σ → Prop
  | done (m : Machine κ σ) : Passes L m [] m
  | step {m n : Machine κ σ} {ms : List (Machine κ σ)} (h : Passes L (L.step m) ms n) : Passes L m (m :: ms) n

theorem Language.Passes.trans {m₁ m₂ m₃ : Machine κ σ} {ms ns : List (Machine κ σ)} (h : L.Passes m₁ ms m₂)
    (h' : L.Passes m₂ ns m₃) : L.Passes m₁ (ms ++ ns) m₃ := by
  induction h with
  | done m => exact h'
  | step _ ih => exact .step (ih h')

/-- What the next step makes the tree `t` run on its context. -/
def Machine.fired (t : TreeId) (m : Machine κ σ) : Batch κ :=
  match m.agenda with
  | .fire site batch :: _ => if site.tree = t ∧ m.alive site.context = true then batch else []
  | _ => []

theorem Machine.fired_of_front {t : TreeId} {m : Machine κ σ} {u : Task κ} {rest : List (Task κ)}
    (hm : m.agenda = u :: rest) (hu : ∀ site batch, u ≠ .fire site batch) : m.fired t = [] := by
  unfold Machine.fired
  rw [hm]
  cases u with
  | fire site batch => exact absurd rfl (hu site batch)
  | _ => rfl

/-- Where tasks bind, nothing fires. -/
theorem Works.passes {m n : Machine κ σ} (h : Works L m n) (t : TreeId) :
    ∃ ms, L.Passes m ms n ∧ ms.flatMap (Machine.fired t) = [] := by
  induction h with
  | done m => exact ⟨[], .done m, rfl⟩
  | @step m n u rest hm hu _ ih =>
    obtain ⟨ms, hpasses, hfired⟩ := ih
    have hnone : m.fired t = [] := Machine.fired_of_front hm fun site batch heq => by
      rw [heq] at hu
      cases hu
    exact ⟨m :: ms, .step hpasses, by rw [List.flatMap_cons, hnone, hfired, List.nil_append]⟩

/-! ### Code that changes nothing -/

/-- Client code runs, acts or returns. -/
def Task.isIdle : Task κ → Bool
  | .request _ => true
  | .perform _ _ => true
  | .release _ => true
  | _ => false

/-- The same watchers, in the same trees, and everybody is subscribed as before. -/
structure World.Undisturbed (g g' : World κ) : Prop where
  watchers : g'.watchers = g.watchers
  trees : g'.trees = g.trees
  next : g'.nextSubscription = g.nextSubscription
  listeners : ∀ s p, g'.listeners s p = g.listeners s p

theorem World.Undisturbed.refl (g : World κ) : g.Undisturbed g :=
  ⟨rfl, rfl, rfl, fun _ _ => rfl⟩

theorem World.Undisturbed.trans {g₁ g₂ g₃ : World κ} (h : g₁.Undisturbed g₂) (h' : g₂.Undisturbed g₃) :
    g₁.Undisturbed g₃ :=
  ⟨h'.watchers.trans h.watchers, h'.trees.trans h.trees, h'.next.trans h.next,
    fun s p => (h'.listeners s p).trans (h.listeners s p)⟩

/-- The machine comes from `m` to `n` by client code that disturbs nothing and hooks
nothing on subscriptions. -/
inductive Idles (L : Language κ σ) : Machine κ σ → Machine κ σ → Prop
  | done (m : Machine κ σ) : Idles L m m
  | step {m n : Machine κ σ} {t : Task κ} {rest : List (Task κ)} (hm : m.agenda = t :: rest) (ht : t.isIdle = true)
      (hhook : m.hooks = false) (hworld : m.world.Undisturbed (L.step m).world) (h : Idles L (L.step m) n) : Idles L m n

/-- **Inert code**: whenever it is the turn of client code, from `m` on, it comes to an
end and disturbs nothing. -/
def Language.Inert (L : Language κ σ) (m : Machine κ σ) : Prop :=
  ∀ ms n, L.Passes m ms n → ∀ t rest, n.agenda = t :: rest → t.isIdle = true →
    ∃ g s, Idles L n (machine g rest s)

theorem Language.Inert.passes {m n : Machine κ σ} {ms : List (Machine κ σ)} (h : L.Inert m)
    (hpasses : L.Passes m ms n) : L.Inert n :=
  fun _ n' hpasses' => h _ n' (hpasses.trans hpasses')

theorem Task.calm_of_isIdle {t : Task κ} (ht : t.isIdle = true) : t.isBinding = false ∧ t.isDelivery = false := by
  cases t <;> first | exact ⟨rfl, rfl⟩ | cases ht

/-- Inert code leaves a stable world, and fires nothing. -/
theorem Idles.stable {m n : Machine κ σ} (h : Idles L m n) {missed : SubscriptionId → List ObjectId}
    (hm : Stable m.world m.agenda missed) (hcalm : ∀ t ∈ n.agenda, t.isBinding = false) (t : TreeId) :
    Stable n.world n.agenda missed ∧ m.world.Undisturbed n.world ∧
      ∃ ms, L.Passes m ms n ∧ ms.flatMap (Machine.fired t) = [] := by
  induction h with
  | done m => exact ⟨hm, World.Undisturbed.refl _, [], .done m, rfl⟩
  | @step m n u rest hagenda hu hhook hworld hidles ih =>
    have hleads : Leads L (L.step m) missed := by
      have hstep := (Stable.leads (L := L) hm).step hhook
      have hmisses : (fun id => missed id ++ m.misses id) = missed := by
        funext id
        unfold Machine.misses
        rw [hagenda]
        cases u <;> first | exact List.append_nil _ | cases hu
      rwa [hmisses] at hstep
    -- whatever is in front now does not bind
    have hfront : ∀ v rest', (L.step m).agenda = v :: rest' → v.isBinding = false := by
      intro v rest' hv
      cases hidles with
      | done => exact hcalm v (hv ▸ List.mem_cons_self)
      | step hm' hv' =>
        rw [hv] at hm'
        cases hm'
        exact (Task.calm_of_isIdle hv').1
    have hstable : Stable (L.step m).world (L.step m).agenda missed := by
      cases hnext : (L.step m).agenda with
      | nil =>
        obtain ⟨m', hworks, hstable⟩ := hleads
        cases hworks with
        | done => rwa [hnext] at hstable
        | step hm' => rw [hnext] at hm'; cases hm'
      | cons v rest' => exact hnext ▸ hleads.front hnext (hfront v rest' hnext)
    obtain ⟨hend, hundisturbed, ms, hpasses, hfired⟩ := ih hstable hcalm
    have hnone : m.fired t = [] := Machine.fired_of_front hagenda fun site batch heq => by
      rw [heq] at hu
      cases hu
    refine ⟨hend, hworld.trans hundisturbed, m :: ms, .step hpasses, ?_⟩
    rw [List.flatMap_cons, hnone, hfired, List.nil_append]

/-- **Client code in front** comes to an end, one task after the other. -/
theorem Language.Inert.clear {missed : SubscriptionId → List ObjectId} {rest : List (Task κ)} (t : TreeId) :
    ∀ {tasks : List (Task κ)} {g : World κ} {s : σ}, (∀ u ∈ tasks, u.isIdle = true) →
      Stable g (tasks ++ rest) missed → L.Inert (machine g (tasks ++ rest) s) →
      ∃ ms g' s', L.Passes (machine g (tasks ++ rest) s) ms (machine g' rest s') ∧ g.Undisturbed g' ∧
        Stable g' rest missed ∧ ms.flatMap (Machine.fired t) = [] := by
  intro tasks
  induction tasks with
  | nil => exact fun {g s} _ hstable _ => ⟨[], g, s, .done _, World.Undisturbed.refl g, hstable, rfl⟩
  | cons u tasks ih =>
    intro g s hidle hstable hinert
    obtain ⟨g₁, s₁, hidles⟩ := hinert [] _ (.done _) u (tasks ++ rest) rfl (hidle u List.mem_cons_self)
    obtain ⟨hstable₁, hundisturbed₁, ms₁, hpasses₁, hfired₁⟩ := hidles.stable hstable
      (fun v hv => hstable.calm v (List.mem_cons_of_mem _ hv)) t
    obtain ⟨ms₂, g₂, s₂, hpasses₂, hundisturbed₂, hstable₂, hfired₂⟩ :=
      ih (fun v hv => hidle v (List.mem_cons_of_mem _ hv)) hstable₁ (hinert.passes hpasses₁)
    refine ⟨ms₁ ++ ms₂, g₂, s₂, hpasses₁.trans hpasses₂, hundisturbed₁.trans hundisturbed₂, hstable₂, ?_⟩
    rw [List.flatMap_append, hfired₁, hfired₂, List.nil_append]

/-! ### Contexts are alive -/

namespace World

theorem mem_survivors {g : World κ} {roots : List Value} {v : Value} (hv : v ∈ roots) :
    ∀ (n : Nat) {vs : List Value}, v ∈ vs → v ∈ g.survivors roots n vs
  | 0, _, h => h
  | n + 1, vs, h => by
    have hkept : v ∈ g.supported roots vs := by
      unfold supported
      rw [List.mem_filter]
      exact ⟨h, by simp [hv]⟩
    unfold survivors
    simp only
    split
    · exact h
    · exact mem_survivors hv n hkept

theorem mem_everything {g : World κ} {o : ObjectId} (ho : g.hasObject o = true) : .object o ∈ g.everything := by
  have hlt : o < g.objects.size := by simpa [hasObject] using ho
  exact List.mem_append_left _ (List.mem_map.mpr ⟨o, List.mem_range.mpr hlt, rfl⟩)

end World

/-- **The context of an attached tree is alive**, for each watcher of the tree. -/
theorem Stable.alive {g : World κ} {agenda : List (Task κ)} {missed : SubscriptionId → List ObjectId}
    (h : Stable g agenda missed) (tasks : List (Task κ)) {w : Nat} {x : Watcher κ} (hw : g.watchers[w]? = some x)
    (hbound : x.target.isSome = true) : Scene.alive { world := g, agenda := tasks } x.site.context = true := by
  obtain ⟨r, hr, hunder⟩ := h.grown.hangs ⟨x, hw, hbound⟩
  obtain ⟨t, tree, htree, hroot⟩ := World.mem_roots.mp hr
  obtain ⟨context, b, htop, hb⟩ := h.rooted t tree r htree hroot
  have hsite : x.site = { tree := t, top := r, context } := by
    obtain ⟨y, hy, hsite⟩ := h.grown.site_of_under htop hunder
    rw [hw] at hy
    cases hy
    exact hsite
  have hholds : Value.object context ∈ g.watcherHolds r := by
    simp [World.watcherHolds, htop, hb, Subject.value]
  have hplanted : r ∈ g.planted :=
    List.mem_flatMap.mpr ⟨r, hr, (h.grown.mem_nodes (h.rooted.lt_size hr)).mpr .refl⟩
  have hvalue : Value.object context ∈ g.rootValues (Scene.held { world := g, agenda := tasks }) :=
    List.mem_append_right _ (List.mem_flatMap.mpr ⟨r, List.mem_append_left _ hplanted, hholds⟩)
  have hobject : g.hasObject context = true := by
    have hknown : g.hasValue b.subject.value = true := h.grown.known htop rfl
    rwa [hb] at hknown
  have hsurvives := World.mem_survivors (g := g) hvalue g.everything.length (World.mem_everything hobject)
  rw [hsite]
  unfold Scene.alive World.isHeld
  simp [hsurvives]

end LiveRules
