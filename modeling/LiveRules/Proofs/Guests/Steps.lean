/-
# Steps with guests around

Client code that treats subscriptions as they are handed to it, and neither looks at
listeners nor at the first trees, does the same with guests around. So each step of the
machine is either one that the machine without guests takes as well, or a guest's, and
then that machine has nothing to do.

Key definitions: `Scene.Resembles`, `Language.Opaque`, `Agree`.
Key theorems: `Language.Opaque.perform`, `Language.Opaque.carry`,
`Language.Opaque.carry_guest`.
-/
import LiveRules.Proofs.Guests.Visits

namespace LiveRules

variable {κ σ : Type} {L : Language κ σ}

/-! ### Client code -/

/-- The scenes are the same to whoever looks neither at listeners nor at the first `n`
trees. -/
structure Scene.Resembles (n : Nat) (scene scene' : Scene κ) : Prop where
  outline : scene'.world.outline = scene.world.outline
  alive : ∀ o, scene'.alive o = scene.alive o
  forest : scene'.world.trees.size = scene.world.trees.size
  attached : ∀ t, n ≤ t → scene'.world.isAttached t = scene.world.isAttached t
  count : ∀ t, n ≤ t → scene'.world.subscriptionCount t = scene.world.subscriptionCount t

/-- Each stands for one, and no two for the same. -/
def OneToOne (R : SubscriptionId → SubscriptionId → Prop) : Prop :=
  ∀ {i j i' j' : SubscriptionId}, R i j → R i' j' → (i = i' ↔ j = j')

theorem Pairing.oneToOne (P : Pairing) : OneToOne P.Pairs :=
  Pairing.Pairs.eq_iff

/-- **Client code to which subscriptions are opaque**: told of other numbers, in a scene
that resembles, it asks for the same with other numbers, and its state differs in the
numbers only. Code that is quiet asks for nothing, and of its state nothing shows. -/
structure Language.Opaque (L : Language κ σ) (G : Guests κ) where
  /-- The states differ only in the numbers of subscriptions. -/
  same : (SubscriptionId → SubscriptionId → Prop) → σ → σ → Prop
  mono : ∀ {R R' : SubscriptionId → SubscriptionId → Prop} {s s' : σ}, (∀ i j, R i j → R' i j) →
    same R s s' → same R' s s'
  run : ∀ {R : SubscriptionId → SubscriptionId → Prop} {scene scene' : Scene κ} {s s' : σ}
    {signal signal' : Signal} (k : κ), OneToOne R → scene.Resembles G.trees scene' → same R s s' →
      signal.Renamed R signal' →
      same R (L.run k signal scene s).1 (L.run k signal' scene' s').1 ∧
        List.Forall₂ (Request.Renamed G.trees R) (L.run k signal scene s).2 (L.run k signal' scene' s').2
  value : ∀ {R : SubscriptionId → SubscriptionId → Prop} {scene scene' : Scene κ} {s s' : σ} (k : κ) (o : ObjectId),
    OneToOne R → scene.Resembles G.trees scene' → same R s s' → L.value k o scene' s' = L.value k o scene s
  test : ∀ {R : SubscriptionId → SubscriptionId → Prop} {scene scene' : Scene κ} {s s' : σ} (k : κ) (o : ObjectId)
    (argument : Int64), OneToOne R → scene.Resembles G.trees scene' → same R s s' →
      (L.test k o argument scene' s').1 = (L.test k o argument scene s).1 ∧
        same R (L.test k o argument scene s).2 (L.test k o argument scene' s').2
  quiet : ∀ {R : SubscriptionId → SubscriptionId → Prop} {s s' : σ} {k : κ} (scene : Scene κ)
    (context : Option ObjectId)
    (argument : Int64), G.quiet k → same R s s' → (L.run k (.enter context argument) scene s').2 = [] ∧
      same R s (L.run k (.enter context argument) scene s').1

variable {G : Guests κ} {M : Matching} (hL : L.Opaque G)

/-- Tasks come to effects that differ by what the guests do. -/
def Agree (M : Matching) (e e' : Effect κ σ) : Prop :=
  ∃ N, M ≤ N ∧ e.world.Hosts G N e'.world ∧ Woven (Task.Matched G N) (Task.Guest G N) e.tasks e'.tasks ∧
    hL.same N.ids.Pairs e.state e'.state

section

variable {g g' : World κ} {agenda agenda' : List (Task κ)} {s s' : σ}

theorem Conforms.agree {hL : L.Opaque G} (hs : hL.same M.ids.Pairs s s') {r r' : World κ × List (Task κ)}
    (h : Conforms G M r r') :
    Agree hL M { world := r.1, state := s, tasks := r.2 } { world := r'.1, state := s', tasks := r'.2 } := by
  obtain ⟨N, hMN, hworld, htasks⟩ := h
  exact ⟨N, hMN, hworld, htasks, hL.mono (fun _ _ => hMN.ids.pairs) hs⟩

namespace World

theorem Hosts.resembles (h : g.Hosts G M g') (hagenda : Woven (Task.Matched G M) (Task.Guest G M) agenda agenda')
    (hnamed : ∀ o, g'.hasObject o = true → g'.isNamed o = true) :
    Scene.Resembles G.trees { world := g, agenda } { world := g', agenda := agenda' } where
  outline := h.outline
  alive := h.alive hagenda hnamed
  forest := h.forest
  attached _ := h.isAttached
  count _ := h.subscriptionCount

theorem Hosts.command (h : g.Hosts G M g') (c : CommandId) : Option.Rel
    (fun x x' : Command κ => x'.takesArgument = x.takesArgument ∧ x'.bound = x.bound ∧ x'.enabled = x.enabled)
    g.commands[c]? g'.commands[c]? := by
  have hcleared : g'.outline.commands[c]? = g.outline.commands[c]? := by rw [h.outline]
  simp only [World.outline, Array.getElem?_map] at hcleared
  generalize g.commands[c]? = x at hcleared ⊢
  generalize g'.commands[c]? = x' at hcleared ⊢
  cases x <;> cases x' <;> simp_all

theorem Hosts.commandIn (h : g.Hosts G M g') (context : ObjectId) (target : String) (takesArgument : Bool) :
    g'.commandIn context target takesArgument = g.commandIn context target takesArgument := by
  have htakes (c : CommandId) : g'.commands[c]?.map (·.takesArgument) = g.commands[c]?.map (·.takesArgument) := by
    have hrel := h.command c
    generalize g.commands[c]? = x at hrel ⊢
    generalize g'.commands[c]? = x' at hrel ⊢
    cases hrel with
    | none => rfl
    | some hx => exact congrArg some hx.1
  unfold World.commandIn
  rw [read_congr h.outline]
  simp only [htakes]

end World

/-! ### Actions -/

namespace Language.Opaque

variable (h : g.Hosts G M g') (hagenda : Woven (Task.Matched G M) (Task.Guest G M) agenda agenda')
  (hnamed : ∀ o, g'.hasObject o = true → g'.isNamed o = true) (hs : hL.same M.ids.Pairs s s')

include h hagenda hnamed hs

theorem canRun (c : CommandId) (argument : Int64) :
    (L.canRun { world := g', agenda := agenda' } s' c argument).1 = (L.canRun { world := g, agenda } s c argument).1 ∧
      hL.same M.ids.Pairs (L.canRun { world := g, agenda } s c argument).2
        (L.canRun { world := g', agenda := agenda' } s' c argument).2 := by
  have hbound : g'.commands[c]?.bind (·.bound) = g.commands[c]?.bind (·.bound) := by
    have hrel := h.command c
    generalize g.commands[c]? = x at hrel ⊢
    generalize g'.commands[c]? = x' at hrel ⊢
    cases hrel with
    | none => rfl
    | some hx => exact hx.2.1
  unfold Language.canRun
  simp only [hbound, h.alive hagenda hnamed]
  split
  · exact ⟨rfl, hs⟩
  · split
    · exact hL.test _ _ _ M.ids.oneToOne (h.resembles hagenda hnamed) hs
    · exact ⟨rfl, hs⟩

theorem settle (c : CommandId) :
    (L.settle { world := g, agenda } s c).1.Hosts G M (L.settle { world := g', agenda := agenda' } s' c).1 ∧
    hL.same M.ids.Pairs (L.settle { world := g, agenda } s c).2
      (L.settle { world := g', agenda := agenda' } s' c).2 := by
  obtain ⟨hcan, hstate⟩ := canRun hL h hagenda hnamed hs c 0
  have hrel := h.command c
  unfold Language.settle
  simp only
  generalize g.commands[c]? = x at hrel ⊢
  generalize g'.commands[c]? = x' at hrel ⊢
  cases hrel with
  | none => exact ⟨h, hs⟩
  | @some x x' hx =>
    have hself : x'.selfEvaluating = x.selfEvaluating := by simp only [Command.selfEvaluating, hx.1, hx.2.1]
    simp only [hself, hcan]
    cases x.selfEvaluating
    · exact ⟨h, hs⟩
    · exact ⟨h.edit (World.edits_enable c _), hstate⟩

theorem refresh (c : CommandId) :
    Agree hL M (L.refresh { world := g, agenda } s c) (L.refresh { world := g', agenda := agenda' } s' c) := by
  obtain ⟨hcan, hstate⟩ := canRun hL h hagenda hnamed hs c 0
  have hrel := h.command c
  unfold Language.refresh
  simp only
  generalize g.commands[c]? = x at hrel ⊢
  generalize g'.commands[c]? = x' at hrel ⊢
  cases hrel with
  | none => exact ⟨M, le_rfl, h, .nil, hs⟩
  | @some x x' hx =>
    have hself : x'.selfEvaluating = x.selfEvaluating := by simp only [Command.selfEvaluating, hx.1, hx.2.1]
    simp only [hself, hx.2.2, hcan]
    cases x.selfEvaluating
    · exact ⟨M, le_rfl, h, h.round _ _, hs⟩
    · refine ⟨M, le_rfl, h.edit (World.edits_enable c _), ?_, hstate⟩
      by_cases hsame : (L.canRun { world := g, agenda } s c 0).1 = x.enabled
      · simpa only [hsame, if_true] using .nil
      · simpa only [hsame, if_true, if_false] using h.round _ _

/-- **Actions** do the same with guests around. -/
theorem perform (a : Action κ) (context : ObjectId) :
    Agree hL M (L.perform { world := g, agenda } s a context)
      (L.perform { world := g', agenda := agenda' } s' a context) := by
  cases a with
  | code k => exact ⟨M, le_rfl, h, .one (.request (.same rfl)), hs⟩
  | assign source target =>
    have hvalue := hL.value source context M.ids.oneToOne (h.resembles hagenda hnamed) hs
    unfold Language.perform
    simp only [hvalue, h.hasValue]
    split
    · exact (h.set context target _).agree hs
    · exact ⟨M, le_rfl, h, .nil, hs⟩
  | create binding target =>
    have hsize : g'.commands.size = g.commands.size := by
      have hcommands := congrArg (fun k : World κ => k.commands.size) h.outline
      simpa [World.outline] using hcommands
    have hmade := h.edit (World.edits_newCommand (fun names _ => names)
      (x := { takesArgument := binding.takesArgument, bound := some (binding, context) }) rfl)
    obtain ⟨hsettled, hstate⟩ := settle hL hmade hagenda hnamed hs g.commands.size
    unfold Language.perform
    simp only [hsize]
    exact (hsettled.set context target _).agree hstate
  | refresh takesArgument target =>
    unfold Language.perform
    simp only [h.commandIn]
    split
    · exact refresh hL h hagenda hnamed hs _
    · exact ⟨M, le_rfl, h, .nil, hs⟩
  | settle takesArgument target =>
    unfold Language.perform
    simp only [h.commandIn]
    split
    · obtain ⟨hsettled, hstate⟩ := settle hL h hagenda hnamed hs _
      exact ⟨M, le_rfl, hsettled, .nil, hstate⟩
    · exact ⟨M, le_rfl, h, .nil, hs⟩
  | onBase inner =>
    have hbase : g'.baseOf context = g.baseOf context := World.baseOf_congr h.outline context
    unfold Language.perform
    simp only [hbase]
    exact ⟨M, le_rfl, h, .cons (.perform _ _) (.one (.release (.value _))), hs⟩

end Language.Opaque

/-! ### Tasks -/

section

variable {rest rest' : List (Task κ)} (h : g.Hosts G M g')
    (hrest : Woven (Task.Matched G M) (Task.Guest G M) rest rest')
  (hnamed : ∀ o, g'.hasObject o = true → g'.isNamed o = true) (hg' : g'.Sane) (hs : hL.same M.ids.Pairs s s')

include h hrest hnamed hg' hs

/-- **A task that is to be done in both worlds** comes to the same. -/
theorem Language.Opaque.carry {t t' : Task κ} (ht : t.Matched G M t') :
    Agree hL M (L.carry g s t rest) (L.carry g' s' t' rest') := by
  have hagenda : Woven (Task.Matched G M) (Task.Guest G M) (t :: rest) (t' :: rest') := .cons ht hrest
  have hpure {r r' : World κ × List (Task κ)} (hr : Conforms G M r r') :
      Agree hL M { world := r.1, state := s, tasks := r.2 } { world := r'.1, state := s', tasks := r'.2 } := hr.agree hs
  cases ht with
  | @request r r' hr =>
    have hcall {k : κ} {signal signal' : Signal} (hagenda : Woven (Task.Matched G M) (Task.Guest G M)
        (.request (.call k signal) :: rest) (.request (.call k signal') :: rest'))
        (hsignal : signal.Renamed M.ids.Pairs signal') :
        Agree hL M (L.carry g s (.request (.call k signal)) rest)
          (L.carry g' s' (.request (.call k signal')) rest') := by
      obtain ⟨hstate, hrequests⟩ := hL.run k M.ids.oneToOne (h.resembles hagenda hnamed) hs hsignal
      exact ⟨M, le_rfl, h, .of_forall₂ (List.rel_map (fun _ _ hr => .request hr) hrequests), hstate⟩
    cases hr with
    | told k hij => exact hcall hagenda (.subscribed hij)
    | unsubscribe subject hij => exact hpure (h.grant hrest (.unsubscribe subject hij))
    | unsubscribeChanges c hij => exact hpure (h.grant hrest (.unsubscribeChanges c hij))
    | same hr =>
      cases r with
      | call k signal =>
        cases signal with
        | enter context argument => exact hcall hagenda (.enter context argument)
        | changed change => exact hcall hagenda (.changed change)
        | subscribed id => cases hr
      | _ => exact hpure (h.grant hrest (.same hr))
  | perform a context => exact Language.Opaque.perform hL h hagenda hnamed hs a context
  | @fire site site' hsite batch =>
    refine ⟨M, le_rfl, h, ?_, hs⟩
    simp only [Language.carry, hsite.context, h.alive hagenda hnamed]
    split
    · exact (Woven.of_map fun e _ => .perform e.2 site.context).append (.one (.release (.value _)))
    · exact .nil
  | deliver subject hid hl => exact ⟨M, le_rfl, h, h.deliver hagenda hnamed subject hid hl, hs⟩
  | deliverChange c hid hl change => exact hpure (h.deliverChange hagenda c hid hl change)
  | bind hw v => exact hpure (h.bind hw v)
  | bindMembers hb => exact hpure (h.bindMembers hb)
  | enrol he => exact hpure (h.enrol he)
  | subscribe subject p hl hr => exact hpure (h.subscribe hg' subject p hl hr)
  | register subject p hl hr => exact hpure (h.register subject p hl hr)
  | plant ht hw => exact hpure (.done (h.modifyTree ht fun _ _ hx => ⟨hx.plan, .some hw, hx.dropped⟩))
  | release hx =>
    cases hx with
    | value v => exact hpure (.done h)
    | watcher hw => exact hpure (.done h)
    | tree ht => exact hpure (.done (h.bury hrest ht))

omit hrest hnamed in
/-- **A task of a guest** comes to tasks of guests, and nothing in the other world. -/
theorem Language.Opaque.carry_guest {t' : Task κ} (ht : t'.Guest G M) (rest' : List (Task κ)) :
    Agree hL M { world := g, state := s, tasks := [] } (L.carry g' s' t' rest') := by
  have hle := h.le_learned
  have hpure {r' : World κ × List (Task κ)} (hr : Conforms G (World.learned M g') (g, []) r') :
      Agree hL M { world := g, state := s, tasks := [] } { world := r'.1, state := s', tasks := r'.2 } :=
    (Conforms.of_le hle hr).agree hs
  replace ht := ht.mono hle
  replace h := h.learn
  have hall : ∀ v, g'.hasValue v = true → (World.learned M g').known v := fun _ => id
  cases ht with
  | @attach t ht context =>
    have hgranted : Conforms G (World.learned M g') (g, []) (g'.grant rest' (.attach t context)) := by
      simp only [World.grant]
      split
      · rename_i hcontext
        exact h.attach_guest ht hcontext
      · exact .done h
    exact hpure hgranted
  | dispose ht => exact hpure (.done (h.dispose_guest ht))
  | drop ht => exact hpure (.done ((h.drop_guest ht).bury_guest ht rest'))
  | @call k hk context argument =>
    obtain ⟨hnone, hstate⟩ := hL.quiet { world := g', agenda := .request (.call k (.enter context argument)) :: rest' }
      context argument hk hs
    refine ⟨_, hle, h, ?_, hstate⟩
    simp only [Language.carry, hnone]
    exact .nil
  | @perform a ha context hcontext =>
    cases a with
    | code k => exact ⟨_, hle, h, .of_others (List.forall_mem_singleton.mpr (.call ha _ _)), hs⟩
    | onBase inner =>
      have hbase : (World.learned M g').known (.object ((g'.baseOf context).getD context)) := by
        cases hb : g'.baseOf context with
        | none => exact hcontext
        | some b => exact hall (.object b) (hg'.hasObject_base hb hcontext)
      refine ⟨_, hle, h, .of_others (List.forall_mem_cons.mpr ⟨.perform (a := inner) ha hbase, ?_⟩), hs⟩
      exact List.forall_mem_singleton.mpr (.release (.value hbase))
    | _ => cases ha
  | @fire site hsite batch hbatch =>
    refine ⟨_, hle, h, .of_others fun t ht => ?_, hs⟩
    simp only [Language.carry] at ht
    split at ht
    · rcases List.mem_append.mp ht with ht | ht
      · obtain ⟨e, he, rfl⟩ := List.mem_map.mp ht
        exact .perform (hbatch e he) hsite.context
      · exact List.mem_singleton.mp ht ▸ .release (.value hsite.context)
    · cases ht
  | deliver subject id hl => exact hpure (.idle h (h.deliver_guest hall hg' _ subject id hl))
  | deliverChange c id hl hadded => exact hpure (h.deliverChange_guest _ c id hl hadded)
  | bind hw hv => exact hpure (h.bind_guest hg' hw hv)
  | bindMembers hb => exact hpure (h.bindMembers_guest hb)
  | enrol he => exact hpure (h.enrol_guest he)
  | subscribe hsubject p hl hb => exact hpure (h.subscribe_guest hg' hsubject p hl hb)
  | register hsubject p hl hb => exact hpure (h.register_guest hall hg' hsubject p hl hb)
  | plant ht hw => exact hpure (.done (h.plant_guest ht hw))
  | release hx =>
    cases hx with
    | value _ => exact hpure (.done h)
    | watcher _ => exact hpure (.done h)
    | tree ht => exact hpure (.done (h.bury_guest ht rest'))

end

end

end LiveRules
