/-
# A tree that is only there

Making a tree makes no watcher. Its watchers are made when the tree is attached, and in the
course of binding those that are there. So as long as nobody asks to attach the tree, nothing
belongs to it and nothing is being bound for it, and as long as nobody asks to give it up, it
will not be disposed of. This holds of every tree that has not even been made.

Key definitions: `Machine.claims`, `Task.Aside`, `World.Spares`, `Scene.Without`.
Key theorems: `Scene.Without.spares_carry`, `Language.without_step`, `Run.without`.
-/
import LiveRules.Proofs.Coherence.Attaching
import LiveRules.Proofs.Machine.Courses
import LiveRules.Proofs.Reentry.Released

namespace LiveRules

variable {κ σ : Type} {L : Language κ σ}

/-- The next step attaches the tree or gives it up. -/
def Machine.claims (t : TreeId) (m : Machine κ σ) : Bool :=
  match m.agenda with
  | .request (.attach v _) :: _ => v = t
  | .request (.drop v) :: _ => v = t
  | _ => false

/-- The attachment that a task makes watchers for. -/
def Task.site? : Task κ → Option Attachment
  | .bindMembers b => some b.site
  | .subscribe _ _ _ (.binding b) => some b.site
  | .register _ _ _ (.binding b) => some b.site
  | .enrol e => some e.site
  | _ => none

theorem Task.Light.site {g : World κ} {u : Task κ} (h : u.Light g) : u.site? = none := by
  cases u with
  | subscribe s p l r =>
    cases r with
    | code k => rfl
    | binding b => exact h.elim
  | bindMembers | register | enrol => exact h.elim
  | _ => rfl

/-- The task makes no watcher of the tree. -/
def Task.Aside (t : TreeId) (u : Task κ) : Prop :=
  ∀ site, u.site? = some site → site.tree ≠ t

namespace Task.Aside

variable {t : TreeId}

theorem of_none {u : Task κ} (h : u.site? = none) : u.Aside t := by
  intro site hsite
  rw [h] at hsite
  cases hsite

/-- All the watchers that the tasks make are for one attachment, which is of another tree. -/
theorem of_site {tasks : List (Task κ)} {site : Attachment} (hsite : site.tree ≠ t)
    (h : ∀ u ∈ tasks, u.site? = none ∨ u.site? = some site) : ∀ u ∈ tasks, u.Aside t := by
  intro u hu site' hsite'
  rcases h u hu with h | h <;> rw [h] at hsite' <;> cases hsite'
  exact hsite

theorem deliver (scene : Scene κ) (s : Subject) (id : SubscriptionId) (l : Listener κ) :
    ∀ u ∈ scene.deliver s id l, u.Aside t := by
  intro u hu
  refine of_none ?_
  unfold Scene.deliver callOn World.memberChanged at hu
  simp only at hu
  repeat' split at hu
  all_goals simp only [List.mem_cons, List.mem_append, List.mem_map, List.not_mem_nil, or_false] at hu
  · rw [hu]
    rfl
  · rcases hu with rfl | rfl <;> rfl
  · rcases hu with ⟨_, -, rfl⟩ | rfl | rfl | rfl <;> rfl

theorem attach (g : World κ) (v : TreeId) (context : ObjectId) : ∀ u ∈ (g.attach v context).2, u.Aside t := by
  intro u hu
  refine of_none ?_
  simp only [World.attach] at hu
  split at hu
  · simp only [List.mem_cons, List.not_mem_nil, or_false] at hu
    rcases hu with rfl | rfl | rfl <;> rfl
  · cases hu

section

variable {s : Subject} {p : String} {l : Listener κ} {r : Receiver κ}

/-- Asking for a subscription is as much for a tree as making it. -/
theorem subscribe_iff (s' : Subject) : Task.Aside t (.subscribe s' p l r) ↔ Task.Aside t (.register s p l r) := by
  cases r <;> rfl

theorem subscribe (g : World κ) (h : Task.Aside t (.subscribe s p l r)) : ∀ u ∈ (g.subscribe s p l r).2, u.Aside t := by
  have hregister : Task.Aside t (.register s p l r) := (subscribe_iff s).mp h
  unfold World.subscribe callOn
  split
  · split
    · simp only [List.cons_append, List.nil_append, List.forall_mem_cons]
      exact ⟨of_none rfl, of_none rfl, hregister, by simp⟩
    · simpa using hregister
  · simpa using hregister

theorem register (g : World κ) (h : Task.Aside t (.register s p l r)) : ∀ u ∈ (g.register s p l r).2, u.Aside t := by
  have hhere : ∀ u ∈ ((g.enterListener s p l).answer g.nextSubscription r).2, u.Aside t := by
    cases r with
    | code k => exact fun u hu => of_none (by rw [List.mem_singleton.mp hu]; rfl)
    | binding b =>
      have hsite : b.site.tree ≠ t := h b.site rfl
      simp only [World.answer, World.bindChild]
      split
      · simp
      all_goals exact of_site hsite (by simp [Task.site?])
  unfold World.register
  simp only
  split
  · split
    · split
      · exact hhere
      · exact List.forall_mem_singleton.mpr ((subscribe_iff _).mpr h)
    · exact hhere
  · exact hhere

end

end Task.Aside

/-! ### What a step adds to a tree -/

namespace World

/-- Nothing is added to the tree `t`, and it is not given up. -/
structure Spares (t : TreeId) (g g' : World κ) : Prop where
  parts : ∀ w, g'.isPart t w = true → g.isPart t w = true
  dropped : ∀ x, g'.trees[t]? = some x → x.dropped = true → ∃ y, g.trees[t]? = some y ∧ y.dropped = true

namespace Spares

variable {t : TreeId} {g g' g'' : World κ}

theorem refl (g : World κ) : Spares t g g :=
  ⟨fun _ h => h, fun x hx hdropped => ⟨x, hx, hdropped⟩⟩

theorem trans (h : Spares t g g') (h' : Spares t g' g'') : Spares t g g'' := by
  refine ⟨fun w hw => h.parts w (h'.parts w hw), fun x hx hdropped => ?_⟩
  obtain ⟨y, hy, hdropped⟩ := h'.dropped x hx hdropped
  exact h.dropped y hy hdropped

/-- Watchers may be released. -/
theorem of_fades (h : g.Fades g') (htrees : g'.trees = g.trees) : Spares t g g' := by
  refine ⟨fun w hw => ?_, fun x hx hdropped => ⟨x, htrees ▸ hx, hdropped⟩⟩
  unfold isPart at hw ⊢
  rcases h w with h | h <;> rw [h] at hw
  · exact hw
  · simpa [Option.map_map, Function.comp_def] using hw

theorem of_same (hwatchers : g'.watchers = g.watchers) (htrees : g'.trees = g.trees) : Spares t g g' :=
  of_fades (fun y => Or.inl (by rw [hwatchers])) htrees

theorem unbind (g : World κ) (w : WatcherId) : Spares t g (g.unbind w) :=
  of_fades (fades_unbind g w) (g.unbind_trees w)

theorem foldl_unbind (ws : List WatcherId) (g : World κ) : Spares t g (ws.foldl World.unbind g) :=
  of_fades (fades_foldl_unbind ws g) (foldl_unbind_trees ws g)

/-- Watchers keep their places in trees whatever is written in their books. -/
theorem modify_watchers (g : World κ) (w : WatcherId) {f : Watcher κ → Watcher κ} (hf : ∀ x, (f x).site = x.site) :
    Spares t g { g with watchers := g.watchers.modify w f } := by
  refine ⟨fun v hv => ?_, fun x hx hdropped => ⟨x, hx, hdropped⟩⟩
  unfold isPart at hv ⊢
  simp only [Array.getElem?_modify] at hv
  split at hv
  · cases hw : g.watchers[v]? <;> simp_all
  · exact hv

theorem bindObject (g : World κ) (w : WatcherId) (b : BoundObject) : Spares t g (g.bindObject w b) :=
  modify_watchers g w fun x => by cases x <;> rfl

theorem bindCollection (g : World κ) (w : WatcherId) (b : BoundCollection) : Spares t g (g.bindCollection w b) :=
  modify_watchers g w fun x => by cases x <;> rfl

theorem addWatcher (g : World κ) {x : Watcher κ} (hx : x.site.tree ≠ t) : Spares t g (g.addWatcher x) := by
  refine ⟨fun w hw => ?_, fun y hy hdropped => ⟨y, hy, hdropped⟩⟩
  unfold isPart World.addWatcher at hw
  unfold isPart
  rw [Array.getElem?_push] at hw
  split at hw
  · exact absurd (by simpa using hw) hx
  · exact hw

/-- Whatever happens to the top of a tree. -/
theorem reroot (g : World κ) (v : TreeId) (r : Option WatcherId) :
    Spares t g (g.modifyTree v fun x => { x with root := r }) := by
  refine ⟨fun w hw => hw, fun x hx hdropped => ?_⟩
  simp only [modifyTree, Array.getElem?_modify] at hx
  split at hx
  · obtain ⟨y, hy, rfl⟩ := Option.map_eq_some_iff.mp hx
    exact ⟨y, hy, hdropped⟩
  · exact ⟨x, hx, hdropped⟩

theorem dispose (g : World κ) (v : TreeId) : Spares t g (g.dispose v) := by
  unfold World.dispose
  split
  · exact (reroot g v none).trans (unbind _ _)
  · exact refl g

theorem bury (scene : Scene κ) (v : TreeId) : Spares t scene.world (scene.bury v) := by
  rcases scene.bury_cases v with h | h <;> rw [h]
  · exact dispose _ _
  · exact refl _

theorem newTree (g : World κ) (plan : WatchPlan κ) : Spares t g { g with trees := g.trees.push { plan } } := by
  refine ⟨fun w hw => hw, fun x hx hdropped => ?_⟩
  simp only [Array.getElem?_push] at hx
  split at hx
  · cases hx
    cases hdropped
  · exact ⟨x, hx, hdropped⟩

end Spares

section

variable {t : TreeId} (g : World κ)

theorem spares_attach {v : TreeId} (context : ObjectId) (hv : v = t → g.trees[v]? = none) :
    Spares t g (g.attach v context).1 := by
  have hdispose : Spares t g (g.dispose v) := .dispose g v
  unfold World.attach
  simp only
  split
  · rename_i tree htree
    refine hdispose.trans (.addWatcher _ fun hvt => ?_)
    have hsize := congrArg Array.size (g.dispose_watches v).2
    have hlt := (Array.getElem?_eq_some_iff.mp htree).1
    simp only [Array.size_map] at hsize
    rw [hsize] at hlt
    rw [Array.getElem?_eq_getElem hlt] at hv
    cases hv hvt
  · exact hdispose

theorem spares_drop (rest : List (Task κ)) {v : TreeId} (hv : v = t → g.trees[v]? = none) :
    Spares t g (g.grant rest (.drop v)).1 := by
  have hmarked : Spares t g (g.modifyTree v fun x => { x with dropped := true }) := by
    refine ⟨fun w hw => hw, fun x hx hdropped => ?_⟩
    simp only [modifyTree, Array.getElem?_modify] at hx
    split at hx
    · rename_i hvt
      rw [← hvt, hv hvt] at hx
      cases hx
    · exact ⟨x, hx, hdropped⟩
  exact hmarked.trans (.bury { world := g.modifyTree v fun x => { x with dropped := true }, agenda := rest } v)

/-- **A request** that does not claim the tree. -/
theorem spares_grant (rest : List (Task κ)) (r : Request κ)
    (hr : ∀ v, (r = .drop v ∨ ∃ context, r = .attach v context) → v = t → g.trees[v]? = none) :
    Spares t g (g.grant rest r).1 := by
  have hsame : Spares t g g := .refl g
  cases r with
  | drop v => exact g.spares_drop rest (hr v (Or.inl rfl))
  | attach v context =>
    simp only [World.grant]
    split
    · exact g.spares_attach context (hr v (Or.inr ⟨context, rfl⟩))
    · exact hsame
  | dispose v => exact .dispose g v
  | newTree plan => exact .newTree g plan
  | unsubscribe s id =>
    simp only [World.grant]
    split
    · obtain ⟨hwatchers, htrees⟩ := g.unsubscribe_watchers s id
      exact .of_same hwatchers htrees
    · exact hsame
  | newObject | newCollection | nameCommand | write | subscribeChanges | unsubscribeChanges | subscribe =>
    simp only [World.grant]
    split <;> exact .of_same rfl rfl
  | push | insert | remove | clear | report =>
    simp only [World.grant]
    split
    · split <;> exact .of_same rfl rfl
    · exact hsame
  | _ => exact .of_same rfl rfl

theorem spares_register (s : Subject) (p : String) (l : Listener κ) {r : Receiver κ}
    (hr : ∀ b, r = .binding b → b.site.tree ≠ t) : Spares t g (g.register s p l r).1 := by
  have hentered : Spares t g (g.enterListener s p l) :=
    .of_same (g.enterListener_watchers s p l) (g.enterListener_trees s p l)
  have hhere : Spares t g ((g.enterListener s p l).answer g.nextSubscription r).1 := by
    cases r with
    | code k => exact hentered
    | binding b =>
      simp only [World.answer, World.bindChild]
      split
      · exact hentered
      · exact hentered
      all_goals exact hentered.trans (.addWatcher _ (hr b rfl))
  unfold World.register
  simp only
  split
  · split
    · split
      · exact hhere
      · exact .refl g
    · exact hhere
  · exact hhere

end

end World

/-- **An action** adds nothing to a tree. -/
theorem Language.spares_perform (L : Language κ σ) (t : TreeId) (scene : Scene κ) (s : σ) (a : Action κ)
    (context : ObjectId) : World.Spares t scene.world (L.perform scene s a context).world := by
  have hset : ∀ (g : World κ) (p : String) (v : Value), (g.set context p v).1.trees = g.trees := by
    intro g p v
    unfold World.set
    split <;> rfl
  have hsettle : ∀ (scene : Scene κ) (s : σ) (c : CommandId), (L.settle scene s c).1.trees = scene.world.trees := by
    intro scene s c
    obtain ⟨commands, h⟩ := L.settle_commands scene s c
    rw [h]
  refine .of_same (L.altered_perform scene s a context).watchers ?_
  cases a <;> simp only [Language.perform]
  case assign =>
    split
    · exact hset _ _ _
    · rfl
  case create => rw [hset, hsettle]
  case refresh =>
    split
    · unfold Language.refresh
      simp only
      split
      · split <;> rfl
      · rfl
    · rfl
  case settle =>
    split
    · exact hsettle _ _ _
    · rfl

/-! ### Trees that nobody works for -/

/-- Nothing belongs to the tree, nothing is being bound for it, and it is not given up. -/
structure Scene.Without (t : TreeId) (scene : Scene κ) : Prop where
  parts : ∀ w, scene.world.isPart t w = false
  aside : ∀ u ∈ scene.agenda, u.Aside t
  kept : ∀ x, scene.world.trees[t]? = some x → x.dropped = false

section

variable {t : TreeId} {g : World κ} {u : Task κ} {rest : List (Task κ)}
    (h : Scene.Without t { world := g, agenda := u :: rest })

include h

/-- The task that comes next makes no watcher of the tree. -/
theorem Scene.Without.front {site : Attachment} (hsite : u.site? = some site) : site.tree ≠ t :=
  h.aside u List.mem_cons_self site hsite

/-- The watchers that are there are of other trees. -/
theorem Scene.Without.site_ne {g' : World κ} (hspares : World.Spares t g g') {w : Nat} {x : Watcher κ}
    (hw : g'.watchers[w]? = some x) : x.site.tree ≠ t := by
  intro hsite
  have hpart := hspares.parts w (World.isPart_iff.mpr ⟨x, hw, hsite⟩)
  have hnone : g.isPart t w = false := h.parts w
  rw [hnone] at hpart
  cases hpart

/-- **One task**: nothing is added to the tree. -/
theorem Scene.Without.spares_carry (L : Language κ σ) (s : σ)
    (hclaims : (machine g (u :: rest) s).claims t = true → g.trees[t]? = none) :
    World.Spares t g (L.carry g s u rest).world := by
  cases u with
  | request r =>
    cases r with
    | call k signal => exact .refl g
    | drop v => exact g.spares_drop rest fun hv => hv ▸ hclaims (by simp [machine, Machine.claims, hv])
    | attach v context =>
      refine g.spares_grant rest (.attach v context) fun v' hv' heq => ?_
      obtain hv' | ⟨context', hv'⟩ := hv'
      · cases hv'
      · cases hv'
        exact heq ▸ hclaims (by simp [machine, Machine.claims, heq])
    | _ => exact g.spares_grant rest _ fun v hv => by simp at hv
  | perform a context => exact L.spares_perform t { world := g, agenda := .perform a context :: rest } s a context
  | fire site batch => exact .refl g
  | deliver subject id l => exact .refl g
  | deliverChange c id l change =>
    obtain hsame | ⟨k, hsame⟩ | ⟨-, w, item, membership, site, b, -, -, htaken⟩ :=
      World.deliverChange_cases { world := g, agenda := .deliverChange c id l change :: rest } c id l change
    · show World.Spares t g (Scene.deliverChange _ c id l change).1
      rw [hsame]
      exact .refl g
    · show World.Spares t g (Scene.deliverChange _ c id l change).1
      rw [hsame]
      exact .refl g
    · show World.Spares t g (Scene.deliverChange _ c id l change).1
      rw [htaken]
      exact (World.Spares.bindCollection g w _).trans (.foldl_unbind _ _)
  | bind w v =>
    show World.Spares t g (g.bind w v).1
    unfold World.bind
    simp only
    split
    · split <;> exact .unbind g w
    · split
      · exact (World.Spares.unbind g w).trans (.of_same rfl rfl)
      · exact .unbind g w
    · exact .unbind g w
  | bindMembers b =>
    show World.Spares t g (g.bindMembers b).1
    unfold World.bindMembers
    simp only
    split
    · exact .bindObject g _ _
    all_goals exact .refl g
  | enrol e =>
    show World.Spares t g (g.enrol e).1
    obtain ⟨o, pending, -, he⟩ | ⟨-, ⟨c, -, he⟩ | ⟨-, item, membership, site, b, -, he⟩ | ⟨-, -, he⟩⟩ :=
      g.enrol_cases e <;> rw [he]
    · exact .addWatcher g (h.front rfl)
    · exact .bindCollection g _ _
    · exact .bindCollection g _ _
    · exact .foldl_unbind _ g
  | subscribe subject p l r =>
    show World.Spares t g (g.subscribe subject p l r).1
    unfold World.subscribe
    split
    · split
      · rename_i hhook
        obtain ⟨i, rfl⟩ := World.takeHook_eq hhook
        exact .of_same rfl rfl
      · exact .refl g
    · exact .refl g
  | register subject p l r => exact g.spares_register subject p l fun b hb => h.front (by rw [hb]; rfl)
  | plant v w => exact .reroot g v (some w)
  | release held =>
    cases held with
    | tree v => exact World.Spares.bury { world := g, agenda := rest } v
    | value v => exact .refl g
    | watcher w => exact .refl g

/-- **One task**: what it causes makes no watcher of the tree. -/
theorem Scene.Without.aside_carry (L : Language κ σ) (s : σ) : ∀ v ∈ (L.carry g s u rest).tasks, v.Aside t := by
  have hlight {tasks : List (Task κ)} (htasks : ∀ v ∈ tasks, v.Light g) : ∀ v ∈ tasks, v.Aside t := fun v hv =>
    .of_none (htasks v hv).site
  cases u with
  | request r =>
    cases r with
    | call k signal =>
      intro v hv
      obtain ⟨r, -, rfl⟩ := List.mem_map.mp hv
      exact .of_none rfl
    | attach v context =>
      simp only [Language.carry, World.grant]
      split
      · exact Task.Aside.attach g v context
      · simp
    | dispose v => simp [Language.carry, World.grant]
    | drop v => simp [Language.carry, World.grant]
    | _ => exact hlight (World.light_grant rfl rest)
  | perform a context => exact hlight (L.light_perform { world := g, agenda := .perform a context :: rest } s a context)
  | fire site batch =>
    intro v hv
    refine .of_none ?_
    simp only [Language.carry] at hv
    split at hv
    · rcases List.mem_append.mp hv with hv | hv
      · obtain ⟨e, -, rfl⟩ := List.mem_map.mp hv
        rfl
      · obtain rfl := List.mem_singleton.mp hv
        rfl
    · cases hv
  | deliver subject id l => exact Task.Aside.deliver _ subject id l
  | deliverChange c id l change =>
    show ∀ v ∈ (Scene.deliverChange _ c id l change).2, _
    obtain hsame | ⟨k, hsame⟩ | ⟨-, w, item, membership, site, b, -, hw, htaken⟩ :=
      World.deliverChange_cases { world := g, agenda := .deliverChange c id l change :: rest } c id l change
    · simp [hsame]
    · rw [hsame]
      exact List.forall_mem_singleton.mpr (.of_none rfl)
    · rw [htaken]
      exact .of_site (h.site_ne (.refl g) hw) (by simp [Task.site?, Watcher.site])
  | bind w v =>
    show ∀ u ∈ (g.bind w v).2, _
    have hunbind : World.Spares t g (g.unbind w) := .unbind g w
    unfold World.bind
    simp only
    split
    · rename_i hw
      split
      · exact .of_site (h.site_ne hunbind hw) (by simp [Task.site?, Watcher.site])
      · simp
    · rename_i hw
      split
      · exact .of_site (h.site_ne hunbind hw) (by simp [Task.site?, Watcher.site])
      · simp
    · simp
  | bindMembers b =>
    show ∀ v ∈ (g.bindMembers b).2, _
    unfold World.bindMembers
    simp only
    split
    · simp
    all_goals exact .of_site (h.front rfl) (by simp [Task.site?])
  | enrol e =>
    show ∀ v ∈ (g.enrol e).2, _
    obtain ⟨o, pending, -, he⟩ | ⟨-, ⟨c, -, he⟩ | ⟨-, item, membership, site, b, -, he⟩ | ⟨-, -, he⟩⟩ :=
      g.enrol_cases e <;> rw [he]
    · exact .of_site (h.front rfl) (by simp [Task.site?, Enrolment.join])
    · simp
    · exact List.forall_mem_singleton.mpr (.of_none rfl)
    · simp
  | subscribe subject p l r => exact Task.Aside.subscribe g (h.aside _ List.mem_cons_self)
  | register subject p l r => exact Task.Aside.register g (h.aside _ List.mem_cons_self)
  | plant v w => simp [Language.carry]
  | release held => cases held <;> simp [Language.carry]

end

/-- **One step** that does not claim the tree. -/
theorem Language.without_step (L : Language κ σ) {t : TreeId} {m : Machine κ σ} (h : m.toScene.Without t)
    (hclaims : m.claims t = true → m.world.trees[t]? = none) : (L.step m).toScene.Without t := by
  obtain ⟨⟨g, agenda⟩, s⟩ := m
  cases agenda with
  | nil => exact h
  | cons u rest =>
    have hspares : World.Spares t g (L.carry g s u rest).world := h.spares_carry L s hclaims
    constructor
    case parts =>
      intro w
      rw [Bool.eq_false_iff]
      intro hw
      exact Bool.false_ne_true ((h.parts w).symm.trans (hspares.parts w hw))
    case aside =>
      intro v hv
      rcases List.mem_append.mp hv with hv | hv
      · exact h.aside_carry L s v hv
      · exact h.aside v (List.mem_cons_of_mem _ hv)
    case kept =>
      intro x hx
      rw [Bool.eq_false_iff]
      intro hdropped
      obtain ⟨y, hy, hdropped'⟩ := hspares.dropped x hx hdropped
      exact Bool.false_ne_true ((h.kept y hy).symm.trans hdropped')

/-- **Trees that are not there** have no watchers. -/
theorem Run.without {past : List (Machine κ σ)} {m : Machine κ σ} (h : Run L past m) {t : TreeId}
    (ht : m.world.trees.size ≤ t) : m.toScene.Without t := by
  induction h with
  | start s => exact ⟨fun w => by simp [World.isPart, machine], by simp [machine], by simp [machine]⟩
  | ask _ requests s' ih =>
    obtain ⟨hparts, -, hkept⟩ := ih ht
    refine ⟨hparts, fun u hu => ?_, hkept⟩
    obtain ⟨r, -, rfl⟩ := List.mem_map.mp hu
    exact .of_none rfl
  | @step past m h ih =>
    have hsize : m.world.trees.size ≤ t := by
      by_contra hlt
      obtain ⟨x, hx, -⟩ := (L.step_lasts m).trees t _ (Array.getElem?_eq_getElem (not_le.mp hlt))
      exact absurd (Array.getElem?_eq_some_iff.mp hx).1 (not_lt.mpr ht)
    exact L.without_step (ih hsize) fun _ => Array.getElem?_eq_none hsize

end LiveRules
