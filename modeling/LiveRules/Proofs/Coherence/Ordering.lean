/-
# Bindings that are attached in order

An attach carries out every binding that runs on attach once, in the order of
registration, before the tree watches anything. Nobody reacts to what a binding does to
the inputs of another, so it is the order that has to see to it: no binding depends on a
property that it sets itself or that one after it sets. Then every binding is right when
it is carried out and stays so, as long as nobody else changes what it reads, and when
the attach returns all of them are right at once. In another order they may not be, even
if no binding depends on itself in whatever roundabout way.

Key definitions: `World.Crosses`, `PropertyBinding.DependsOn`, `Attach`, `Attach.InOrder`,
`Attach.Proceeds`.
Key theorems: `World.agrees_store`, `Attach.InOrder.holds_step`, `Attach.proceeds`,
`attached_in_order_hold`.
-/
import LiveRules.Proofs.Coherence.Bindings
import LiveRules.Proofs.Coherence.Commands
import LiveRules.Proofs.Machine.Alterations

namespace LiveRules

variable {κ σ : Type} {L : Language κ σ}

/-! ### What a write concerns -/

namespace World

section

variable (g : World κ) (o : ObjectId) (p : String) (x : Value)

theorem baseOf_store (n : ObjectId) : (g.store o p x).baseOf n = g.baseOf n := by
  simp only [baseOf, store, modifyObject, Array.getElem?_modify]
  split <;> cases g.objects[n]? <;> rfl

theorem answersFor_store (q : String) (n : ObjectId) : (g.store o p x).answersFor q n = g.answersFor q n := by
  simp only [answersFor, store, modifyObject, Array.getElem?_modify]
  by_cases hn : g.holder o p = n
  · rw [if_pos hn]
    cases g.objects[n]? <;> rfl
  · rw [if_neg hn]

/-- Who answers for a property is not a matter of what it holds. -/
theorem holder_store (n : ObjectId) (q : String) : (g.store o p x).holder n q = g.holder n q := by
  have hchain : ∀ k n, (g.store o p x).chain k n = g.chain k n := by
    intro k
    induction k with
    | zero => exact fun n => rfl
    | succ k ih => exact fun n => by simp only [chain, baseOf_store, ih]
  have hanswers : (g.store o p x).answersFor q = g.answersFor q := funext (g.answersFor_store o p x q)
  simp only [holder, lineage, hchain, hanswers]

end

/-- Reading along the word, from the value on, comes across the property `p` of `o`. -/
def Crosses (g : World κ) (o : ObjectId) (p : String) : List Label → Value → Prop
  | [], _ => False
  | .field n :: w, v => ∃ s, v.subject? = some s ∧
      (g.home s n = .object o ∧ n = p ∨ g.Crosses o p w (g.memberValue s n))
  | .member :: w, v => ∃ c, v.collection? = some c ∧ ∃ x ∈ g.itemsOf c, g.Crosses o p w (.object x)

variable {g : World κ} {o : ObjectId} {p : String} {w : List Label} {v : Value}

/-- Only a property that the word names can be come across. -/
theorem Crosses.mem_word (h : g.Crosses o p w v) : .field p ∈ w := by
  induction w generalizing v with
  | nil => exact h.elim
  | cons k w ih =>
    cases k with
    | field n =>
      obtain ⟨s, -, ⟨-, rfl⟩ | h⟩ := h
      · exact List.mem_cons_self
      · exact List.mem_cons_of_mem _ (ih h)
    | member =>
      obtain ⟨c, -, x, -, h⟩ := h
      exact List.mem_cons_of_mem _ (ih h)

/-- A write changes nothing along a word that does not come across the property. -/
theorem agrees_store (h : ¬ g.Crosses (g.holder o p) p w v) (x : Value) : g.Agrees (g.store o p x) w v := by
  induction w generalizing v with
  | nil => trivial
  | cons k w ih =>
    cases k with
    | member => exact fun c hc => ⟨rfl, fun y hy => ih fun hcross => h ⟨c, hc, y, hy, hcross⟩⟩
    | field n =>
      intro s hs
      refine ⟨?_, ih fun hcross => h ⟨s, hs, Or.inr hcross⟩⟩
      cases s with
      | command c => rfl
      | object q =>
        show (g.store o p x).ownValue ((g.store o p x).holder q n) n = g.ownValue (g.holder q n) n
        rw [holder_store]
        refine ownValue_store g o p x fun hplace => h ⟨_, hs, Or.inl ⟨?_, hplace.2.symm⟩⟩
        rw [home, hplace.1]

/-- What is set is read, also where code is hooked on subscriptions. -/
theorem Sane.read_set_hooked (hg : g.unhooked.Sane) (ho : g.hasObject o = true) (hv : g.hasValue v = true)
    (p : String) : (g.set o p v).1.read o p = v := by
  unfold World.set
  split
  · assumption
  · have hread : (g.unhooked.write o p v).1.read o p = v :=
      hg.read_write p ((g.hasObject_dressed _ o).trans ho) ((g.hasValue_dressed _ v).trans hv)
    have hworld : (g.unhooked.write o p v).1 = (g.store o p v).dressed g.watchers :=
      (g.dressed_store g.watchers o p v).symm
    rwa [hworld, read_dressed] at hread

end World

namespace PropertyBinding

/-- Reading along the paths of `d` comes across the property that `b` sets. -/
def DependsOn (d b : PropertyBinding κ) (g : World κ) (context : ObjectId) : Prop :=
  ∃ paths, d.paths.resolve = .ok paths ∧
    ∃ p ∈ paths, g.Crosses (g.holder context b.property) b.property p.word (.object context)

/-- The next step changes nothing along the paths. -/
def Spared (L : Language κ σ) (b : PropertyBinding κ) (context : ObjectId) (m : Machine κ σ) : Prop :=
  ∀ paths, b.paths.resolve = .ok paths → ∀ p ∈ paths, m.world.Agrees (L.step m).world p.word (.object context)

variable {b d : PropertyBinding κ} {roster : Roster (Action κ)} {context : ObjectId} {m : Machine κ σ}
  {later : List (Machine κ σ)} {rest : List (Task κ)}

/-- A binding depends on properties only that its paths name. -/
theorem not_dependsOn {paths : List Path} (hpaths : d.paths.resolve = .ok paths)
    (hnames : ∀ p ∈ paths, .field b.property ∉ p.word) (g : World κ) : ¬ d.DependsOn b g context := by
  rintro ⟨paths', hpaths', p, hp, hcross⟩
  obtain rfl : paths = paths' := Except.ok.inj (hpaths.symm.trans hpaths')
  exact hnames p hp hcross.mem_word

theorem InForce.tail {n : Machine κ σ} (h : b.InForce L roster context (n :: later)) :
    b.InForce L roster context later :=
  ⟨h.live, h.reads, fun k hk => h.yields k (List.mem_cons_of_mem _ hk),
    fun k hk => h.alone k (List.mem_cons_of_mem _ hk)⟩

/-! ### Turns -/

section

variable (hagenda : m.agenda = b.turn context :: rest)

include hagenda

/-- At its turn a binding sets its property, or does nothing. -/
theorem step_turn : L.step m =
    let e := L.perform m.toScene m.state (.assign b.source b.property) context
    { world := e.world, state := e.state, agenda := e.tasks ++ rest } := by
  obtain ⟨⟨g, agenda⟩, s⟩ := m
  cases hagenda
  rfl

/-- A binding that holds does nothing at its turn. -/
theorem Holds.step_turn (h : b.Holds L context m) : L.step m = machine m.world rest m.state := by
  rw [PropertyBinding.step_turn hagenda]
  have hread : m.world.read context b.property = L.value b.source context m.toScene m.state := h
  simp only [Language.perform, World.set, hread, if_true, ite_self]
  rfl

/-- What does not depend on the property is not concerned. -/
theorem spared_turn (h : ¬ d.DependsOn b m.world context) : d.Spared L context m := by
  intro paths hpaths p hp
  have hcross : ¬ m.world.Crosses (m.world.holder context b.property) b.property p.word (.object context) :=
    fun hcross => h ⟨paths, hpaths, p, hp, hcross⟩
  rw [step_turn hagenda]
  simp only [Language.perform]
  split
  · simp only [World.set]
    split
    · exact World.agrees_of_outline rfl _ _
    · exact World.agrees_store hcross _
  · exact World.agrees_of_outline rfl _ _

/-- **At its turn** a binding that does not depend on its own property gets to hold. -/
theorem InForce.holds_turn {paths : List Path} (hforce : b.InForce L roster context later) (hmem : m ∈ later)
    (hpaths : b.paths.resolve = .ok paths) (hsane : m.world.unhooked.Sane) (hcontext : m.world.hasObject context = true)
    (hself : ¬ b.DependsOn b m.world context) : b.Holds L context (L.step m) := by
  have hv := hforce.yields m hmem (by rw [hagenda]; rfl)
  have hvalue := hforce.reads paths hpaths m.toScene (L.step m).toScene m.state (L.step m).state
    (spared_turn hagenda hself paths hpaths)
  refine Eq.trans ?_ hvalue.symm
  rw [step_turn hagenda]
  simp only [Language.perform, hv, if_true]
  exact hsane.read_set_hooked hcontext hv b.property

end

/-- A binding that holds does so after a step that spares it and its property. -/
theorem Holds.step {paths : List Path} (h : b.Holds L context m) (hreads : L.ValueReads b.source paths context)
    (hpaths : b.paths.resolve = .ok paths) (hspared : b.Spared L context m)
    (halone : m.agenda.head? = some (b.turn context) ∨
      (L.step m).world.read context b.property = m.world.read context b.property) : b.Holds L context (L.step m) := by
  rcases halone with hhead | hread
  · obtain ⟨rest, hagenda⟩ := List.head?_eq_some_iff.mp hhead
    have hsame : (L.step m).world = m.world := congrArg (fun n => n.world) (h.step_turn hagenda)
    exact h.congr hreads (hspared paths hpaths) (by rw [hsame])
  · exact h.congr hreads (hspared paths hpaths) hread

end PropertyBinding

/-! ### An attach -/

/-- A context is attached under the tree `tree`: the bindings are carried out in order,
and `rest` is what comes after the attach. -/
structure Attach (κ : Type) where
  tree : TreeId
  context : ObjectId
  bindings : List (PropertyBinding κ)
  rest : List (Task κ)

namespace Attach

variable (A : Attach κ)

/-- What is left of it when these bindings are still to be carried out. -/
def remaining (todo : List (PropertyBinding κ)) : List (Task κ) :=
  todo.map (fun b => .request (.perform (.assign b.source b.property) A.context)) ++
    .request (.attach A.tree A.context) :: A.rest

/-- It is the turn of `b`, after `done` and before `todo`. -/
structure IsTurn (m : Machine κ σ) (done : List (PropertyBinding κ)) (b : PropertyBinding κ)
    (todo : List (PropertyBinding κ)) : Prop where
  split : A.bindings = done ++ b :: todo
  agenda : m.agenda = b.turn A.context :: .release (.value (.object A.context)) :: A.remaining todo

/-- The bindings are in order, in the steps `later`. -/
structure InOrder (L : Language κ σ) (later : List (Machine κ σ)) : Prop where
  /-- No binding depends on the property that it sets itself or that a later one sets. -/
  ordered : ∀ done b todo, A.bindings = done ++ b :: todo → ∀ n ∈ later, n.agenda.head? = some (b.turn A.context) →
    ∀ d ∈ done ++ [b], ¬ d.DependsOn b n.world A.context
  /-- Once a binding has been carried out, nobody but a binding changes what it reads. -/
  kept : later.Pairwise fun n m => ∀ done b todo, A.IsTurn m done b todo →
    (∃ d ∈ A.bindings, n.agenda.head? = some (d.turn A.context)) ∨ b.Spared L A.context n

/-- The binding has been carried out, and holds. -/
structure Carried (L : Language κ σ) (later : List (Machine κ σ)) (m : Machine κ σ) (b : PropertyBinding κ) : Prop where
  taken : ∃ n ∈ later, ∃ done todo, A.IsTurn n done b todo
  holds : b.Holds L A.context m

/-- How far the attach has come. -/
inductive Proceeds (L : Language κ σ) (plan : WatchPlan κ) (later : List (Machine κ σ)) (m : Machine κ σ) : Prop
  /-- Nothing has been done yet. -/
  | start (hagenda : m.agenda = .request (.newTree plan) :: A.remaining A.bindings)
  /-- Some bindings have been carried out, and what the last of them has caused is being done. -/
  | between {done todo : List (PropertyBinding κ)} {front : List (Task κ)} (hsplit : A.bindings = done ++ todo)
      (hagenda : m.agenda = front ++ A.remaining todo) (hdone : ∀ d ∈ done, A.Carried L later m d)
  | turn {done todo : List (PropertyBinding κ)} {b : PropertyBinding κ} (hturn : A.IsTurn m done b todo)
      (hdone : ∀ d ∈ done, A.Carried L later m d)
  /-- All have been carried out, and the tree is being attached or is. -/
  | attached (hdone : ∀ d ∈ A.bindings, A.Carried L later m d)

variable {A} {plan : WatchPlan κ} {roster : Roster (Action κ)} {later : List (Machine κ σ)} {m n : Machine κ σ}

theorem InOrder.tail (h : A.InOrder L (n :: later)) : A.InOrder L later :=
  ⟨fun done b todo hsplit k hk => h.ordered done b todo hsplit k (List.mem_cons_of_mem _ hk), h.kept.tail⟩

section

variable (horder : A.InOrder L (m :: later)) (hforce : ∀ b ∈ A.bindings, b.InForce L roster A.context (m :: later))
  (hpaths : ∀ b ∈ A.bindings, ∃ paths, b.paths.resolve = .ok paths)

include horder hforce hpaths

/-- **Every step** leaves right what has been carried out. -/
theorem InOrder.holds_step {done todo : List (PropertyBinding κ)} (hsplit : A.bindings = done ++ todo)
    (hdone : ∀ d ∈ done, A.Carried L later m d) : ∀ d ∈ done, A.Carried L (m :: later) (L.step m) d := by
  intro d hd
  have hmem : d ∈ A.bindings := hsplit ▸ List.mem_append_left _ hd
  obtain ⟨paths, hpaths⟩ := hpaths d hmem
  have hreads := (hforce d hmem).reads paths hpaths
  have halone := (hforce d hmem).alone m List.mem_cons_self
  obtain ⟨⟨n, hn, before, after, hturn⟩, hholds⟩ := hdone d hd
  refine ⟨⟨n, List.mem_cons_of_mem _ hn, before, after, hturn⟩, ?_⟩
  rcases (List.pairwise_cons.mp horder.kept).1 n hn before d after hturn with ⟨b, hb, hhead⟩ | hspared
  · obtain ⟨rest, hagenda⟩ := List.head?_eq_some_iff.mp hhead
    rw [hsplit] at hb
    rcases List.mem_append.mp hb with hb | hb
    · -- a binding that holds already does nothing
      rw [(hdone b hb).holds.step_turn hagenda]
      exact hholds.congr hreads (fun p _ => World.agrees_of_outline rfl _ _) rfl
    · obtain ⟨x, y, rfl⟩ := List.append_of_mem hb
      have hsplit' : A.bindings = (done ++ x) ++ b :: y := by rw [hsplit, List.append_assoc]
      have hindependent := horder.ordered _ b y hsplit' m List.mem_cons_self hhead d (by simp [hd])
      exact hholds.step hreads hpaths (PropertyBinding.spared_turn hagenda hindependent) halone
  · exact hholds.step hreads hpaths hspared halone

/-- **At its turn** a binding is carried out. -/
theorem InOrder.carried_turn {done todo : List (PropertyBinding κ)} {b : PropertyBinding κ}
    (hturn : A.IsTurn m done b todo) (hsane : m.world.unhooked.Sane) (hcontext : m.world.hasObject A.context = true) :
    A.Carried L (m :: later) (L.step m) b := by
  have hmem : b ∈ A.bindings := hturn.split ▸ List.mem_append_right _ List.mem_cons_self
  obtain ⟨paths, hpaths⟩ := hpaths b hmem
  have hhead : m.agenda.head? = some (b.turn A.context) := by rw [hturn.agenda]; rfl
  have hself := horder.ordered done b todo hturn.split m List.mem_cons_self hhead b (by simp)
  exact ⟨⟨m, List.mem_cons_self, done, todo, hturn⟩,
    (hforce b hmem).holds_turn hturn.agenda List.mem_cons_self hpaths hsane hcontext hself⟩

/-- **Every step** of the machine takes the attach on. -/
theorem Proceeds.step (h : A.Proceeds L plan later m) (hsane : m.world.unhooked.Sane)
    (hcontext : m.world.hasObject A.context = true) : A.Proceeds L plan (m :: later) (L.step m) := by
  cases h with
  | start hagenda =>
    have hagenda' : (L.step m).agenda = [] ++ A.remaining A.bindings := by
      simp [Language.step, hagenda, Language.carry, World.grant]
    exact .between (List.nil_append _).symm hagenda' (by simp)
  | @between done todo front hsplit hagenda hdone =>
    have hdone' := horder.holds_step hforce hpaths hsplit hdone
    cases front with
    | cons u front =>
      set e := L.carry m.world m.state u (front ++ A.remaining todo) with he
      have hagenda' : (L.step m).agenda = (e.tasks ++ front) ++ A.remaining todo := by
        simp [Language.step, hagenda, he]
      exact .between hsplit hagenda' hdone'
    | nil =>
      cases todo with
      | nil =>
        rw [List.append_nil] at hsplit
        exact .attached (hsplit ▸ hdone')
      | cons b todo =>
        refine .turn ⟨hsplit, ?_⟩ hdone'
        simp [Language.step, hagenda, remaining, Language.carry, World.grant, hcontext, PropertyBinding.turn]
  | @turn done todo b hturn hdone =>
    set e := L.carry m.world m.state (b.turn A.context)
      (.release (.value (.object A.context)) :: A.remaining todo) with he
    have hagenda' : (L.step m).agenda = (e.tasks ++ [.release (.value (.object A.context))]) ++ A.remaining todo := by
      simp [Language.step, hturn.agenda, he]
    have hsplit : A.bindings = (done ++ [b]) ++ todo := by simp [hturn.split]
    refine .between hsplit hagenda' fun d hd => ?_
    rcases List.mem_append.mp hd with hd | hd
    · exact horder.holds_step hforce hpaths hturn.split hdone d hd
    · obtain rfl := List.mem_singleton.mp hd
      exact horder.carried_turn hforce hpaths hturn hsane hcontext
  | attached hdone => exact .attached (horder.holds_step hforce hpaths (List.append_nil _).symm hdone)

end

/-- **In every run** from the start of the attach on, the attach proceeds. -/
theorem proceeds {past : List (Machine κ σ)} {m₀ : Machine κ σ} (h : Run L past m₀) (h' : Resumes L m₀ later m)
    (hagenda : m₀.agenda = .request (.newTree plan) :: A.remaining A.bindings)
    (hcontext : m₀.world.hasObject A.context = true) (horder : A.InOrder L later)
    (hforce : ∀ b ∈ A.bindings, b.InForce L roster A.context later)
    (hpaths : ∀ b ∈ A.bindings, ∃ paths, b.paths.resolve = .ok paths) : A.Proceeds L plan later m := by
  induction h' with
  | here => exact .start hagenda
  | @ask later g s _ requests s' ih =>
    -- only an attach that has come to its end can be at rest
    cases ih horder hforce with
    | start hagenda => cases hagenda
    | between _ hagenda => simp [machine, remaining] at hagenda
    | turn hturn => cases hturn.agenda
    | attached hdone =>
      refine .attached fun d hd => ⟨(hdone d hd).taken, ?_⟩
      obtain ⟨paths, hpaths⟩ := hpaths d hd
      exact (hdone d hd).holds.congr ((hforce d hd).reads paths hpaths) (fun p _ => World.agrees_of_outline rfl _ _) rfl
  | step h' ih =>
    exact (ih horder.tail fun b hb => (hforce b hb).tail).step horder hforce hpaths (h.resume h').sane
      (h'.outlives.1.hasObject hcontext)

/-- When the attach returns, everything has been carried out. -/
theorem Proceeds.returned {g : World κ} {s : σ} (h : A.Proceeds L plan later (machine g A.rest s)) :
    ∀ b ∈ A.bindings, b.Holds L A.context (machine g A.rest s) := by
  cases h with
  | start hagenda => exact absurd (congrArg List.length hagenda) (by simp [machine, remaining]; omega)
  | between _ hagenda => exact absurd (congrArg List.length hagenda) (by simp [machine, remaining]; omega)
  | turn hturn => exact absurd (congrArg List.length hturn.agenda) (by simp [machine, remaining]; omega)
  | attached hdone => exact fun b hb => (hdone b hb).holds

/-- Bindings that hold do nothing when they are carried out. -/
theorem idle {g : World κ} {s : σ} (todo : List (PropertyBinding κ)) (hcontext : g.hasObject A.context = true)
    (hholds : ∀ b ∈ todo, ∀ agenda, b.Holds L A.context (machine g agenda s)) :
    ∃ k, L.step^[k] (machine g (A.remaining todo) s) = machine g (.request (.attach A.tree A.context) :: A.rest) s := by
  induction todo with
  | nil => exact ⟨0, rfl⟩
  | cons b todo ih =>
    obtain ⟨k, hk⟩ := ih fun d hd => hholds d (List.mem_cons_of_mem _ hd)
    refine ⟨k + 3, ?_⟩
    have hask : L.step (machine g (A.remaining (b :: todo)) s) =
        machine g (b.turn A.context :: .release (.value (.object A.context)) :: A.remaining todo) s := by
      simp [Language.step, machine, remaining, Language.carry, World.grant, hcontext, PropertyBinding.turn]
    have hturn : L.step (machine g (b.turn A.context :: .release (.value (.object A.context)) :: A.remaining todo) s) =
        machine g (.release (.value (.object A.context)) :: A.remaining todo) s :=
      (hholds b List.mem_cons_self _).step_turn rfl
    have hrelease : L.step (machine g (.release (.value (.object A.context)) :: A.remaining todo) s) =
        machine g (A.remaining todo) s := rfl
    rw [Function.iterate_add_apply]
    show L.step^[k] (L.step (L.step (L.step _))) = _
    rw [hask, hturn]
    exact hk

end Attach

/-! ### A binder of bindings -/

/-- Attaching a binder whose rules are bindings is such an attach. -/
theorem Kept.attach_bindings {b : Binder κ} {roster : Roster (Action κ)} (h : Kept b roster) (A : Attach κ)
    (hlive : roster.live.map (·.rule) = A.bindings.map (·.rule)) (hattach : ∀ d ∈ A.bindings, d.runOnAttach = true) :
    (b.attach A.tree A.context).map .request ++ A.rest = .request (.newTree b.plan) :: A.remaining A.bindings := by
  have hphase : ∀ e ∈ roster.live, e.rule.runsIn .initial = true ∧ e.rule.runsIn .settle = false := by
    intro e he
    obtain ⟨d, hd, hrule⟩ := List.mem_map.mp (hlive ▸ List.mem_map_of_mem he : e.rule ∈ A.bindings.map (·.rule))
    rw [← hrule]
    simp [Rule.runsIn, PropertyBinding.rule, Rule.withKey, hattach d hd]
  have hinitial : roster.live.filter (·.rule.runsIn .initial) = roster.live :=
    List.filter_eq_self.mpr fun e he => (hphase e he).1
  have hsettle : roster.live.filter (·.rule.runsIn .settle) = [] :=
    List.filter_eq_nil_iff.mpr fun e he => by simp [(hphase e he).2]
  have hactions : roster.live.map (·.rule.action) = A.bindings.map fun d => .assign d.source d.property := by
    have := congrArg (List.map Rule.action) hlive
    simpa [List.map_map, Function.comp_def, PropertyBinding.rule, Rule.withKey] using this
  have hruns : b.registry.attachRuns.map (fun e => (.request (.perform e.2 A.context) : Task κ)) =
      A.bindings.map fun d => .request (.perform (.assign d.source d.property) A.context) := by
    have := congrArg (List.map fun a => (.request (.perform a A.context) : Task κ)) hactions
    simpa [h.attachRuns, hinitial, hsettle, List.map_map, Function.comp_def] using this
  simp [Binder.attach, Attach.remaining, ← hruns, Function.comp_def]

/-- **Bindings that are attached in order hold.** A binder whose live rules are property
bindings that run on attach, whatever has been overridden and removed before, is attached
to a context in the course of any run. Each source reads along its paths, and nobody else
changes the target. The bindings are in order: none depends on what it sets itself or on
what one after it sets, and once one has been carried out nobody but a binding changes what
it reads. Then all of them hold when the attach returns, and if the context is attached
again at once, what runs on attach changes nothing. -/
theorem attached_in_order_hold {past later : List (Machine κ σ)} {m₀ : Machine κ σ} {g : World κ} {s : σ}
    (h : Run L past m₀) (A : Attach κ) (h' : Resumes L m₀ later (machine g A.rest s)) (ops : List (Operation κ))
    (hlive : (history ops).2.live.map (·.rule) = A.bindings.map (·.rule))
    (hattach : ∀ b ∈ A.bindings, b.runOnAttach = true) (hcontext : m₀.world.hasObject A.context = true)
    (hagenda : m₀.agenda = ((history ops).1.attach A.tree A.context).map .request ++ A.rest)
    (hforce : ∀ b ∈ A.bindings, b.InForce L (history ops).2 A.context later) (horder : A.InOrder L later) :
    (∀ b ∈ A.bindings, b.Holds L A.context (machine g A.rest s)) ∧
      ∃ k, L.step^[k] (machine g (((history ops).1.attach g.trees.size A.context).map .request ++ A.rest) s) =
        machine { g with trees := g.trees.push { plan := (history ops).1.plan } }
          (.request (.attach g.trees.size A.context) :: A.rest) s := by
  have hkept := history_kept ops
  have hpaths : ∀ b ∈ A.bindings, ∃ paths, b.paths.resolve = .ok paths := by
    intro b hb
    obtain ⟨e, he, hrule⟩ := (hforce b hb).live
    obtain ⟨paths, htriggers⟩ := hkept.accepted e he
    exact ⟨paths, by rwa [hrule] at htriggers⟩
  have hstart := hagenda.trans (hkept.attach_bindings A hlive hattach)
  have hholds := (Attach.proceeds h h' hstart hcontext horder hforce hpaths).returned
  refine ⟨hholds, ?_⟩
  set again : World κ := { g with trees := g.trees.push { plan := (history ops).1.plan } } with hagain
  have hcontext' : again.hasObject A.context = true := h'.outlives.1.hasObject hcontext
  have houtline : again.outline = g.outline := rfl
  -- another tree is of no concern to the bindings
  have hholds' : ∀ b ∈ A.bindings, ∀ agenda, b.Holds L A.context (machine again agenda s) := by
    intro b hb agenda
    obtain ⟨paths, hpaths⟩ := hpaths b hb
    exact (hholds b hb).congr ((hforce b hb).reads paths hpaths) (fun p _ => World.agrees_of_outline houtline _ _)
      (World.read_congr houtline _ _)
  obtain ⟨k, hk⟩ := Attach.idle (A := { A with tree := g.trees.size }) A.bindings hcontext' hholds'
  refine ⟨k + 1, ?_⟩
  have hattach' := hkept.attach_bindings { A with tree := g.trees.size } hlive hattach
  simp only at hattach'
  rw [Function.iterate_succ_apply, hattach']
  exact hk

/-! ### Copies in one order and in the other -/

/-- The bindings are attached to the first object. -/
def attachTo (bindings : List (PropertyBinding String)) : Attach String :=
  { tree := 0, context := 0, bindings, rest := [] }

def binderOf (bindings : List (PropertyBinding String)) : Binder String × Roster (Action String) :=
  history (bindings.map .bind)

/-- There is a context, whose first property is set. -/
def firstSet : List (Machine String Unit) × Machine String Unit :=
  fields.trail 1 [] (machine {} ([.newObject "context" [("first", .int 7)] none []].map .request) ())

def attachingTo (bindings : List (PropertyBinding String)) : Machine String Unit :=
  machine firstSet.2.world (((binderOf bindings).1.attach 0 0).map .request) ()

theorem attachingTo_run (bindings : List (PropertyBinding String)) : Run fields firstSet.1 (attachingTo bindings) :=
  Run.ask (((Run.start ()).ask _ ()).trail 1) _ ()

/-- The attach has returned. -/
def attachedTo (bindings : List (PropertyBinding String)) : List (Machine String Unit) × Machine String Unit :=
  fields.trail 18 [] (attachingTo bindings)

/-- Neither copy depends on what it sets itself, nor the first on what the second sets. -/
theorem copies_ordered : ∀ done b todo, copies = done ++ b :: todo → ∀ d ∈ done ++ [b], ∀ g, ¬ d.DependsOn b g 0 := by
  intro done b todo hsplit
  match done, hsplit with
  | [], hsplit =>
    cases hsplit
    intro d hd
    obtain rfl := List.mem_singleton.mp hd
    exact PropertyBinding.not_dependsOn rfl (by decide)
  | [c], hsplit =>
    cases hsplit
    intro d hd
    simp only [List.cons_append, List.nil_append, List.mem_cons, List.not_mem_nil, or_false] at hd
    rcases hd with rfl | rfl
    · exact PropertyBinding.not_dependsOn rfl (by decide)
    · exact PropertyBinding.not_dependsOn rfl (by decide)
  | c :: c' :: done, hsplit =>
    have := congrArg List.length hsplit
    simp [copies] at this

/-- It is the turn of a copy, or nothing that they read changes. -/
def leaves (n : Machine String Unit) : Bool :=
  isTurn "first" "second" n.agenda || isTurn "second" "third" n.agenda ||
    ((fields.step n).world.read 0 "first" = n.world.read 0 "first" &&
      (fields.step n).world.read 0 "second" = n.world.read 0 "second")

theorem copies_inOrder : (attachTo copies).InOrder fields (attachedTo copies).1 := by
  refine ⟨fun done b todo hsplit n _ _ d hd => copies_ordered done b todo hsplit d hd n.world,
    List.pairwise_of_forall_mem_list fun n hn m _ done b todo hturn => ?_⟩
  have hall : (attachedTo copies).1.all leaves = true := by decide +kernel
  have hleaves := List.all_eq_true.mp hall n hn
  simp only [leaves, Bool.or_eq_true, Bool.and_eq_true, decide_eq_true_eq] at hleaves
  rcases hleaves with (hturn | hturn) | ⟨hfirst, hsecond⟩
  · exact Or.inl ⟨_, List.mem_cons_self, head?_of_isTurn hturn⟩
  · exact Or.inl ⟨_, List.mem_cons_of_mem _ List.mem_cons_self, head?_of_isTurn hturn⟩
  · refine Or.inr fun paths hpaths p hp => ?_
    have hb : b ∈ copies := by
      show b ∈ (attachTo copies).bindings
      rw [hturn.split]
      simp
    simp only [copies, List.mem_cons, List.not_mem_nil, or_false] at hb
    rcases hb with rfl | rfl <;> cases hpaths <;> obtain rfl := List.mem_singleton.mp hp
    · intro s hs
      cases hs
      exact ⟨hfirst, trivial⟩
    · intro s hs
      cases hs
      exact ⟨hsecond, trivial⟩

/-- What the first property held when the context was attached is in the third. -/
theorem attached_in_order_hold_copies : (attachedTo copies).2.world.read 0 "third" = .int 7 ∧
    ∀ b ∈ copies, b.Holds fields 0 (attachedTo copies).2 := by
  have hlive : copying.2.live.map (·.rule) = copies.map (·.rule) := by rw [copying_live]; rfl
  have hresumes : Resumes fields (attachingTo copies) (attachedTo copies).1
      (machine (attachedTo copies).2.world (attachTo copies).rest ()) := Resumes.here.trail 18
  have hforce : ∀ b ∈ copies, b.InForce fields copying.2 0 (attachedTo copies).1 :=
    copies_inForce (by decide +kernel) (by decide +kernel)
  exact ⟨by decide +kernel,
    (attached_in_order_hold (attachingTo_run copies) (attachTo copies) hresumes (copies.map .bind)
      hlive (by decide) (by decide +kernel) (List.append_nil _).symm hforce copies_inOrder).1⟩

/-- Whenever it is told of a change, this code writes the first property. -/
def answering : Language String Unit :=
  { fields with
    run := fun _ signal _ s =>
      (s, match signal with
        | .enter none _ => [.write 0 "first" (.int 8)]
        | _ => []) }

/-- There is a context, whose first property is set, and code listens to the second. -/
def listened : List (Machine String Unit) × Machine String Unit :=
  answering.trail 5 [] (machine {} ([.newObject "context" [("first", .int 7)] none [],
    .subscribe (.object 0) "second" "listener" none "receiver"].map .request) ())

/-- Then a copy of the first property to the second is attached. -/
def attachingListened : Machine String Unit :=
  machine listened.2.world (((binderOf [copy "first" "second"]).1.attach 0 0).map .request) ()

def attachedListened : List (Machine String Unit) × Machine String Unit :=
  answering.trail 15 [] attachingListened

/-- **In the other order** the copies do not hold when the attach returns: the first to be
carried out reads what the second is about to set. Neither depends on itself, nor both on
one another, each reads along its path, and nobody else writes their targets. And a copy
that is attached alone does not hold, either, if code that listens to its target answers by
writing its source. -/
theorem attached_out_of_order :
    (Run fields firstSet.1 (attachingTo copies.reverse) ∧
      Resumes fields (attachingTo copies.reverse) (attachedTo copies.reverse).1
        (machine (attachedTo copies.reverse).2.world [] ()) ∧
      (∀ b ∈ copies.reverse, b.InForce fields (binderOf copies.reverse).2 0 (attachedTo copies.reverse).1) ∧
      (∀ done b todo, copies = done ++ b :: todo → ∀ d ∈ done ++ [b], ∀ g, ¬ d.DependsOn b g 0) ∧
      ¬ ∀ b ∈ copies.reverse, b.Holds fields 0 (machine (attachedTo copies.reverse).2.world [] ())) ∧
    (Run answering listened.1 attachingListened ∧
      Resumes answering attachingListened attachedListened.1 (machine attachedListened.2.world [] ()) ∧
      (copy "first" "second").InForce answering (binderOf [copy "first" "second"]).2 0 attachedListened.1 ∧
      (∀ g, ¬ (copy "first" "second").DependsOn (copy "first" "second") g 0) ∧
      ¬ (copy "first" "second").Holds answering 0 (machine attachedListened.2.world [] ())) := by
  have hlive : (binderOf copies.reverse).2.live =
      [⟨0, (copy "second" "third").rule⟩, ⟨1, (copy "first" "second").rule⟩] := rfl
  have hsingle : (binderOf [copy "first" "second"]).2.live = [⟨0, (copy "first" "second").rule⟩] := rfl
  refine ⟨⟨attachingTo_run _, Resumes.here.trail 18, fun b hb => ?_, copies_ordered, fun hholds => ?_⟩,
    Run.ask (((Run.start ()).ask _ ()).trail 5) _ (), Resumes.here.trail 15, ?_, ?_, fun hholds => ?_⟩
  · simp only [copies, List.reverse_cons, List.reverse_nil, List.nil_append, List.cons_append, List.mem_cons,
      List.not_mem_nil, or_false] at hb
    rcases hb with rfl | rfl
    · exact copy_inForce rfl rfl rfl ⟨_, hlive ▸ List.mem_cons_self, rfl⟩ (by decide +kernel)
    · exact copy_inForce rfl rfl rfl ⟨_, hlive ▸ List.mem_cons_of_mem _ List.mem_cons_self, rfl⟩ (by decide +kernel)
  · have hthird : (attachedTo copies.reverse).2.world.read 0 "third" = .null := by decide +kernel
    have hsecond : (attachedTo copies.reverse).2.world.read 0 "second" = .int 7 := by decide +kernel
    have hcopy : (attachedTo copies.reverse).2.world.read 0 "third" =
        (attachedTo copies.reverse).2.world.read 0 "second" :=
      hholds (copy "second" "third") (by simp [copies])
    rw [hthird, hsecond] at hcopy
    cases hcopy
  · have hvalue : answering.value = fields.value := rfl
    exact copy_inForce hvalue rfl rfl ⟨_, hsingle ▸ List.mem_cons_self, rfl⟩ (by decide +kernel)
  · exact PropertyBinding.not_dependsOn rfl (by decide)
  · have hsecond : attachedListened.2.world.read 0 "second" = .int 7 := by decide +kernel
    have hfirst : attachedListened.2.world.read 0 "first" = .int 8 := by decide +kernel
    have hcopy : attachedListened.2.world.read 0 "second" = attachedListened.2.world.read 0 "first" := hholds
    rw [hsecond, hfirst] at hcopy
    cases hcopy

end LiveRules
