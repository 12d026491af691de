/-
# What changes is told of

Whatever step the machine takes, a property that could be read before keeps its value, or
everybody who listens to it is put on the agenda. Where a property is answered for does not
change at all. In the same way, whoever listens to a collection is to be told by how much
its members have changed.

Key definitions: `World.Reveals`, `World.Announces`.
Key theorems: `World.reveals_grant`, `Language.carry_reveals`, `Language.carry_announces`.
-/
import LiveRules.Proofs.Machine.Notices
import LiveRules.Proofs.Machine.Reports

namespace LiveRules

variable {κ σ : Type}

namespace World

/-- What can be read of the things that were there is the same, other than the value of the
property that everybody is told of; and it is answered for where it was. -/
def Reveals (news : Option (Subject × String)) (g g' : World κ) : Prop :=
  ∀ s p, g.hasValue s.value = true → g'.home s p = g.home s p ∧
    (g'.memberValue s p = g.memberValue s p ∨ news = some (g.home s p, p))

variable {g g' : World κ}

/-- Whatever exists lasts. -/
theorem Lasts.hasValue {judged : CommandId → Bool → Prop} (h : g.Lasts judged g') {v : Value}
    (hv : g.hasValue v = true) : g'.hasValue v = true := by
  cases v with
  | scalar s => rfl
  | object o => exact h.hasObject hv
  | collection c =>
    simp only [World.hasValue, decide_eq_true_eq] at hv ⊢
    obtain ⟨x', hx', -⟩ := h.collections c _ (Array.getElem?_eq_getElem hv)
    exact (Array.getElem?_eq_some_iff.mp hx').1
  | command c =>
    simp only [World.hasValue, decide_eq_true_eq] at hv ⊢
    obtain ⟨x', hx', -⟩ := h.commands c _ (Array.getElem?_eq_getElem hv)
    exact (Array.getElem?_eq_some_iff.mp hx').1

/-! ### Steps that change no value -/

theorem Reveals.refl (g : World κ) (news : Option (Subject × String)) : Reveals news g g :=
  fun _ _ _ => ⟨rfl, Or.inl rfl⟩

section

variable (h : g'.objects = g.objects)

include h

/-- Who answers for a property is a matter of the objects. -/
theorem holder_of_objects (o : ObjectId) (p : String) : g'.holder o p = g.holder o p := by
  have hchain : ∀ n o, g'.chain n o = g.chain n o := by
    intro n
    induction n with
    | zero => exact fun o => rfl
    | succ n ih => exact fun o => by simp only [chain, baseOf, h, ih]
  have hanswers : g'.answersFor p = g.answersFor p := funext fun o => by simp only [answersFor, h]
  simp only [holder, lineage, hchain, hanswers]

theorem read_of_objects (o : ObjectId) (p : String) : g'.read o p = g.read o p := by
  simp only [read, ownValue, holder_of_objects h, h]

theorem reveals_of_objects (news : Option (Subject × String)) : Reveals news g g' := by
  intro s p _
  cases s with
  | object o => exact ⟨congrArg Subject.object (holder_of_objects h o p), Or.inl (read_of_objects h o p)⟩
  | command c => exact ⟨rfl, Or.inl rfl⟩

end

theorem reveals_of_outline (h : g'.outline = g.outline) (news : Option (Subject × String)) : Reveals news g g' :=
  fun s p _ => ⟨home_congr h s p, Or.inl (memberValue_congr h s p)⟩

theorem reveals_of_dressed {ws : Array (Watcher κ)} (h : g'.dressed ws = g.dressed ws)
    (news : Option (Subject × String)) : Reveals news g g' := by
  intro s p _
  rw [← home_dressed g' ws, ← memberValue_dressed g' ws, h, home_dressed, memberValue_dressed]
  exact ⟨rfl, Or.inl rfl⟩

/-- The hook that runs before a subscription is taken off, and no value changes. -/
theorem reveals_subscribe (g : World κ) (s : Subject) (p : String) (l : Listener κ) (r : Receiver κ)
    (news : Option (Subject × String)) : Reveals news g (g.subscribe s p l r).1 := by
  unfold World.subscribe
  split
  · split
    · rename_i o k g' hhook
      exact reveals_of_dressed (dressed_takeHook hhook g.watchers) _
    · exact .refl g _
  · exact .refl g _

/-- What is made silently does not keep what comes next from being told of. -/
theorem Reveals.before {g'' : World κ} {news : Option (Subject × String)} (h : Reveals none g g')
    (hknown : ∀ {v}, g.hasValue v = true → g'.hasValue v = true) (h' : Reveals news g' g'') : Reveals news g g'' := by
  intro s p hs
  obtain ⟨hhome, hvalue⟩ := h s p hs
  obtain ⟨hhome', hvalue'⟩ := h' s p (hknown hs)
  have hsame : g'.memberValue s p = g.memberValue s p := hvalue.resolve_right (by simp)
  rw [hhome] at hhome' hvalue'
  exact ⟨hhome', hvalue'.imp_left (·.trans hsame)⟩

/-! ### Steps that store a value -/

section

variable (hg : g.unhooked.Sane)

include hg

/-- What is done to the world without hooks is done to the world. -/
theorem reveals_of_tended (h : g.unhooked.Tended g'.unhooked) {news : Option (Subject × String)}
    (hown : ∀ s p o, g.hasValue s.value = true → g.home s p = .object o → g'.ownValue o p = g.ownValue o p ∨
      news = some (g.home s p, p)) : Reveals news g g' := by
  intro s p hs
  have hs' : g.unhooked.hasValue s.value = true := (g.hasValue_dressed ..).trans hs
  have hhome := h.home hg p hs'
  rw [unhooked, home_dressed, unhooked, home_dressed] at hhome
  refine ⟨hhome, ?_⟩
  by_cases hnews : news = some (g.home s p, p)
  · exact Or.inr hnews
  · have hvalue := h.memberValue hg (p := p) hs' fun o ho => ?_
    · rw [unhooked, memberValue_dressed, unhooked, memberValue_dressed] at hvalue
      exact Or.inl hvalue
    · rw [unhooked, home_dressed] at ho
      rw [unhooked, ownValue_dressed, unhooked, ownValue_dressed]
      exact (hown s p o hs ho).resolve_right hnews

/-- **A value is stored**: it shows where it was stored, and nowhere else. -/
theorem reveals_store (o : ObjectId) (p : String) {v : Value} (hv : g.hasValue v = true) :
    Reveals (some (.object (g.holder o p), p)) g (g.store o p v) := by
  have htended := hg.store o p ((g.hasValue_dressed ..).trans hv)
  rw [unhooked, ← dressed_store] at htended
  refine reveals_of_tended hg htended fun s q n _ hn => ?_
  by_cases hplace : g.holder o p = n ∧ p = q
  · obtain ⟨rfl, rfl⟩ := hplace
    exact Or.inr (by rw [hn])
  · exact Or.inl (g.ownValue_store o p v hplace)

theorem reveals_set (o : ObjectId) (p : String) {v : Value} (hv : g.hasValue v = true) :
    Reveals (g.notifiedOf o p v) g (g.set o p v).1 := by
  unfold World.set World.notifiedOf
  split
  · exact .refl g _
  · exact reveals_store hg o p hv

/-- A new object shows nothing that could be seen before. -/
theorem reveals_pushObject {x : Object κ} (hnotifier : x.notifier = {}) (hhooks : x.hooks = [])
    (hbase : ∀ b, x.base = some b → g.hasObject b = true) (hvalues : ∀ e ∈ x.properties, g.hasValue e.2 = true) :
    Reveals none g { g with objects := g.objects.push x } := by
  have htended := hg.pushObject (x := x) hnotifier hhooks (fun b hb => (g.hasObject_dressed ..).trans (hbase b hb))
    fun e he => (g.hasValue_dressed ..).trans (hvalues e he)
  have hpush : ({ g.unhooked with objects := g.unhooked.objects.push x } : World κ) =
      ({ g with objects := g.objects.push x } : World κ).unhooked := by
    have hx : x.unhooked = x := by rw [Object.unhooked, ← hhooks]
    simp only [unhooked, dressed, Array.map_push, hx]
  refine reveals_of_tended hg (hpush ▸ htended) fun s p o hs ho => Or.inl ?_
  have hold := hg.hasValue_home ((g.hasValue_dressed ..).trans hs) p
  rw [unhooked, home_dressed, ho, hasValue_dressed] at hold
  simp only [Subject.value, hasValue, hasObject, decide_eq_true_eq] at hold
  simp only [ownValue, Array.getElem?_push, if_neg (ne_of_lt hold)]

/-- **Whatever is asked for**, a value that changes is told of. -/
theorem reveals_grant (r : Request κ) (rest : List (Task κ)) : Reveals (g.notified r) g (g.grant rest r).1 := by
  have hedit : ∀ {c}, r.edits = some c → Reveals none g (g.grant rest r).1 := by
    intro c hc
    rcases g.grant_edit_cases hc rest with heq | ⟨items, change, -, -, heq⟩ <;> rw [heq]
    · exact .refl g _
    · exact reveals_of_objects (by rfl) _
  cases r
  case push | insert | remove | clear => exact hedit rfl
  case attach | dispose | drop => exact reveals_of_outline (g.grant_watches rest rfl).1 _
  all_goals simp only [World.grant, World.notified]
  case newObject name properties base own =>
    split
    · rename_i hexist
      rw [Bool.and_eq_true, List.all_eq_true] at hexist
      refine (reveals_pushObject hg (x := { label := name, properties, base, own }) rfl rfl (fun b hb => ?_)
        hexist.2).before (fun {v} hv => ?_) (reveals_of_objects (by rfl) _)
      · have hbase : base = some b := hb
        simpa [hbase] using hexist.1
      · have hlasts : g.Lasts (fun _ _ => True) _ := g.lasts_pushObject { label := name, properties, base, own }
        exact hlasts.hasValue hv
    · exact .refl g _
  case write o p v =>
    split
    · rename_i hexist
      rw [Bool.and_eq_true] at hexist
      exact reveals_store hg o p hexist.2
    · exact .refl g _
  case hook o p k => exact reveals_of_dressed (dressed_hooks g o (fun hooks => hooks ++ [(p, k)]) g.watchers) _
  case unsubscribe s id =>
    split
    · exact reveals_of_outline (g.unsubscribe_outline s id) _
    · exact .refl g _
  case report c items change =>
    split
    · split
      · exact reveals_of_objects (by rfl) _
      · exact .refl g _
    · exact .refl g _
  all_goals
    first
    | exact reveals_of_objects (by rfl) _
    | (split <;> exact reveals_of_objects (by rfl) _)

end

end World

/-! ### Every step -/

namespace Language

variable (L : Language κ σ)

/-- Evaluating a command shows in no property. -/
theorem objects_settle (scene : Scene κ) (s : σ) (c : CommandId) :
    (L.settle scene s c).1.objects = scene.world.objects := by
  obtain ⟨commands, heq⟩ := L.settle_commands scene s c
  rw [heq]

/-- **Whatever an action does**, a value that changes is told of. -/
theorem reveals_perform (scene : Scene κ) (hg : scene.world.unhooked.Sane) (s : σ) (a : Action κ) (context : ObjectId) :
    scene.world.Reveals (L.notified scene s (.perform a context)) (L.perform scene s a context).world := by
  cases a <;> simp only [Language.perform]
  case assign source target =>
    simp only [Language.notified]
    split
    · rename_i hv
      exact World.reveals_set hg context target hv
    · exact .refl _ _
  case create binding target =>
    set x : Command κ := { takesArgument := binding.takesArgument, bound := some (binding, context) } with hx
    set made : World κ := { scene.world with commands := scene.world.commands.push x } with hmade
    set g := (L.settle { scene with world := made } s scene.world.commands.size).1 with hsettled
    have hobjects : g.objects = scene.world.objects := L.objects_settle _ s _
    have haltered : scene.world.Altered g :=
      .trans (World.Alters.makeCommand x rfl).altered (L.altered_settle { scene with world := made } s _)
    have hlasts : made.Lasts _ g := L.lasts_settle { scene with world := made } s scene.world.commands.size
    have hcommand : g.hasValue (.command scene.world.commands.size) = true :=
      hlasts.hasValue (by simp [hmade, World.hasValue])
    have hset := World.reveals_set (hg.of_altered haltered) context target hcommand
    have hnews : g.notifiedOf context target (.command scene.world.commands.size) =
        L.notified scene s (.perform (.create binding target) context) := by
      simp only [Language.notified, World.notifiedOf, World.read_of_objects hobjects, World.holder_of_objects hobjects]
    rw [hnews] at hset
    have hadded : scene.world.Lasts (fun _ _ => True) made := scene.world.lasts_pushCommand x
    exact (World.reveals_of_objects hobjects none).before (fun hv => hlasts.hasValue (hadded.hasValue hv)) hset
  case refresh =>
    split
    · refine World.reveals_of_objects ?_ _
      unfold Language.refresh
      simp only
      split
      · split <;> rfl
      · rfl
    · exact .refl _ _
  case settle =>
    split
    · exact World.reveals_of_objects (L.objects_settle scene s _) _
    · exact .refl _ _
  all_goals exact .refl _ _

/-- **Whatever a task does**, a value that changes is told of. -/
theorem carry_reveals (g : World κ) (hg : g.unhooked.Sane) (s : σ) (t : Task κ) (rest : List (Task κ)) :
    g.Reveals (L.notified { world := g, agenda := t :: rest } s t) (L.carry g s t rest).world := by
  cases t with
  | request r =>
    cases r with
    | call k signal => exact .refl g _
    | _ => exact World.reveals_grant hg _ rest
  | perform a context => exact L.reveals_perform { world := g, agenda := .perform a context :: rest } hg s a context
  | subscribe subject p l r => exact World.reveals_subscribe g subject p l r _
  | _ => exact World.reveals_of_outline (L.carry_watches g s rfl rest).1 _

end Language

/-! ### What is put on the agenda -/

/-- From `g` to `g'` the property `news` may change, and the members of each collection as
`edit` says. The tasks tell everybody who listens of that. -/
structure World.Announces (news : Option (Subject × String)) (edit : CollectionId → Option Change) (g g' : World κ)
    (tasks : List (Task κ)) : Prop where
  reveals : World.Reveals news g g'
  round : ∀ {s p}, news = some (s, p) → tasks = g.round s p
  reports : ∀ {c id l items}, g.listOf c = some items → g.Enlists c id l → World.Reports c id l (edit c) g g' tasks
  lists : ∀ {c items'}, g.hasValue (.collection c) = true → g'.listOf c = some items' → ∃ items, g.listOf c = some items
  issued : ∀ {c id l change}, .deliverChange c id l change ∈ tasks → (id, l) ∈ g.listenersOfCollection c
  relisted : ∀ {c id l}, (id, l) ∈ g'.listenersOfCollection c → id < g.nextSubscription →
    (id, l) ∈ g.listenersOfCollection c
  next : g.nextSubscription ≤ g'.nextSubscription

/-- Hooks and watchers are of no concern to what is told of. -/
theorem World.Announces.dressed {news : Option (Subject × String)} {edit : CollectionId → Option Change}
    {g g' : World κ}
    {tasks : List (Task κ)} (h : Announces news edit g g' tasks) (ws ws' : Array (Watcher κ)) :
    Announces news edit (g.dressed ws) (g'.dressed ws') tasks where
  reveals s p hs := by
    rw [home_dressed, home_dressed, memberValue_dressed, memberValue_dressed]
    exact h.reveals s p ((g.hasValue_dressed ..).symm.trans hs)
  round {s p} hnews := by
    rw [h.round hnews]
    simp only [World.round, notifierOf_dressed]
  reports hitems honce := ⟨(h.reports hitems honce).told, (h.reports hitems honce).counts⟩
  lists hc hitems := h.lists hc hitems
  issued hm := h.issued hm
  relisted hl := h.relisted hl
  next := h.next

/-- **Whatever a task does**, what changes is told of. -/
theorem Language.carry_announces (L : Language κ σ) (g : World κ) (hg : g.unhooked.Sane) (s : σ) (t : Task κ)
    (rest : List (Task κ)) :
    World.Announces (L.notified { world := g, agenda := t :: rest } s t) (fun c => t.edit g c) g
      (L.carry g s t rest).world (L.carry g s t rest).tasks where
  reveals := L.carry_reveals g hg s t rest
  round hnews := by
    have hinforms := L.carry_informs g s t rest
    rw [hnews] at hinforms
    exact hinforms
  reports hitems honce := L.carry_reports hitems honce s t rest
  lists {c items'} hc hitems := by
    simp only [World.hasValue, decide_eq_true_eq] at hc
    obtain ⟨x', hx', hfree⟩ := (L.lasts_carry g s t rest).collections c _ (Array.getElem?_eq_getElem hc)
    have hfree : x'.free = g.collections[c].free := hfree
    simp only [World.listOf, hx', Option.bind_some, Array.getElem?_eq_getElem hc, hfree] at hitems ⊢
    split at hitems
    · cases hitems
    · rename_i hnot
      exact ⟨_, if_neg hnot⟩
  issued {c id l change} hm := by
    rcases L.carry_changes g s t rest with ⟨-, hquiet⟩ | ⟨-, d, items, change', -, htasks, -⟩
    · cases hquiet _ hm
    · rw [htasks] at hm
      rcases World.mem_changeRound.mp hm with ⟨e, he, heq⟩ | ⟨o, -, heq⟩ <;> cases heq
      exact he
  relisted {c id l} hl hid := by
    have hhas : ((L.carry g s t rest).world.listenersOfCollection c).has id = true :=
      Table.isSome_get?.mpr (List.mem_map_of_mem hl)
    have hsame := (((L.relists_carry g s t rest).collection c).keeps hid hhas).2
    exact List.mem_of_mem_filter (hsame ▸ List.mem_filter.mpr ⟨hl, by simp⟩)
  next := (L.relists_carry g s t rest).next

end LiveRules
