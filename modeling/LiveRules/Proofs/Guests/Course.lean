/-
# Machines with guests

A machine hosts guests of another. Each of its steps is one that the other takes as well,
and then both do the same, or the step of a guest: then the other one waits, and nothing
that is looked at changes.

Key definitions: `World.Tame`, `Deed`, `Machine.Hosts`, `Machine.Corresponds`,
`Machine.Visited`.
Key theorems: `Machine.Hosts.corresponds`, `Machine.Hosts.visited`, `Machine.Hosts.step`.
-/
import LiveRules.Proofs.Guests.Steps
import LiveRules.Proofs.Machine.Alterations

namespace LiveRules

variable {κ σ : Type} {L : Language κ σ}

/-! ### What shows -/

/-- No code is due on a subscription, and everything that exists has a name, which keeps
it alive. -/
structure World.Tame (g : World κ) : Prop where
  unhooked : ∀ (o : ObjectId) (x : Object κ), g.objects[o]? = some x → x.hooks = []
  named : ∀ o, g.hasObject o = true → g.isNamed o = true

theorem World.Tame.congr {g g' : World κ} (hg : g.Tame) (h : g'.outline = g.outline) : g'.Tame where
  unhooked o x hx := by
    have hobjects : g'.outline.objects[o]? = g.outline.objects[o]? := by rw [h]
    simp only [World.outline, Array.getElem?_map, hx, Option.map_some] at hobjects
    obtain ⟨y, hy, hxy⟩ := Option.map_eq_some_iff.mp hobjects.symm
    exact (congrArg Object.hooks hxy).symm.trans (hg.unhooked o y hy)
  named o ho := by
    have hnames : g'.objectNames = g.objectNames := (congrArg World.objectNames h :)
    have hobject : g'.hasObject o = g.hasObject o := World.hasValue_congr h (.object o)
    have hnamed := hg.named o (hobject ▸ ho)
    unfold World.isNamed at hnamed ⊢
    rwa [hnames]

/-- A world is sane but for hooks, and there are none. -/
theorem World.Tame.sane {g : World κ} (hg : g.Tame) (h : g.unhooked.Sane) : g.Sane := by
  have hobjects : g.objects.map Object.unhooked = g.objects := by
    refine Array.ext_getElem? fun o => ?_
    rw [Array.getElem?_map]
    cases hx : g.objects[o]? with
    | none => rfl
    | some x =>
      obtain ⟨_, _, _, _, _, hooks⟩ := x
      obtain rfl : hooks = [] := hg.unhooked o _ hx
      rfl
  have hsame : g.unhooked = g := by
    show ({ g with objects := g.objects.map Object.unhooked } : World κ) = g
    rw [hobjects]
  exact hsame ▸ h

theorem World.Hosts.unhooked_sane {G : Guests κ} {M : Matching} {g g' : World κ} (h : g.Hosts G M g')
    (hg : g.unhooked.Sane) : g'.unhooked.Sane :=
  hg.congr (World.outline_dressed h.outline _ _)

/-- What shows of a step; that a subscription has been made shows, but not its number. -/
inductive Deed (κ : Type)
  /-- A tree runs a batch on its context. -/
  | fires (t : TreeId) (context : ObjectId) (batch : Batch κ)
  | acts (a : Action κ) (context : ObjectId)
  /-- Code is run on a context. -/
  | enters (k : κ) (context : Option ObjectId) (argument : Int64)
  | hears (k : κ) (change : Change)
  /-- Code is told that a subscription has been made. -/
  | told (k : κ)

def Task.deed? : Task κ → Option (Deed κ)
  | .fire site batch => some (.fires site.tree site.context batch)
  | .perform a context => some (.acts a context)
  | .request (.call k (.enter context argument)) => some (.enters k context argument)
  | .request (.call k (.changed change)) => some (.hears k change)
  | .request (.call k (.subscribed _)) => some (.told k)
  | _ => none

/-- What the next step shows. -/
def Machine.deed? (m : Machine κ σ) : Option (Deed κ) :=
  m.agenda.head?.bind Task.deed?

/-- A guest fires, or does what changes nothing. -/
def Deed.OfGuest (G : Guests κ) : Deed κ → Prop
  | .fires t _ batch => t < G.trees ∧ Batch.Quiet G batch
  | .acts a _ => a.Quiet G
  | .enters k _ _ => G.quiet k
  | _ => False

theorem Task.Matched.deed {G : Guests κ} {M : Matching} {t t' : Task κ} (h : t.Matched G M t') :
    t'.deed? = t.deed? := by
  cases h with
  | request hr => cases hr <;> rfl
  | fire hsite batch => simp only [Task.deed?, hsite.tree, hsite.context]
  | _ => rfl

theorem Task.Guest.deed {G : Guests κ} {M : Matching} {t : Task κ} (h : t.Guest G M) {d : Deed κ}
    (hd : t.deed? = some d) : d.OfGuest G := by
  cases h with
  | call hk context argument => cases hd; exact hk
  | perform ha hcontext => cases hd; exact ha
  | fire hsite hbatch => cases hd; exact ⟨hsite.tree, hbatch⟩
  | _ => cases hd

/-- The machines are at **corresponding states**: what properties and collections hold is
the same, who is alive, and how many subscriptions each tree has that is no guest; and the
next step shows the same. -/
structure Machine.Corresponds (G : Guests κ) (m m' : Machine κ σ) : Prop where
  scene : m.toScene.Resembles G.trees m'.toScene
  deed : m'.deed? = m.deed?
  rest : m'.agenda = [] ↔ m.agenda = []

/-- The next step is a **visit's**: all that is the same at corresponding states stays as
it is, and what shows is what a guest does. -/
structure Machine.Visited (L : Language κ σ) (G : Guests κ) (m : Machine κ σ) : Prop where
  scene : m.toScene.Resembles G.trees (L.step m).toScene
  deed : ∀ d, m.deed? = some d → d.OfGuest G
  busy : m.agenda ≠ []

/-! ### One step -/

/-- The machine `m'` hosts guests that `m` has nothing to do with. -/
structure Machine.Hosts {G : Guests κ} (hL : L.Opaque G) (M : Matching) (m m' : Machine κ σ) : Prop where
  world : m.world.Hosts G M m'.world
  agenda : Woven (Task.Matched G M) (Task.Guest G M) m.agenda m'.agenda
  state : hL.same M.ids.Pairs m.state m'.state

theorem Scene.Resembles.of_both {n : Nat} {scene scene₁ scene₂ : Scene κ} (h₁ : scene.Resembles n scene₁)
    (h₂ : scene.Resembles n scene₂) : scene₁.Resembles n scene₂ where
  outline := h₂.outline.trans h₁.outline.symm
  alive o := (h₂.alive o).trans (h₁.alive o).symm
  forest := h₂.forest.trans h₁.forest.symm
  attached t ht := (h₂.attached t ht).trans (h₁.attached t ht).symm
  count t ht := (h₂.count t ht).trans (h₁.count t ht).symm

namespace Machine.Hosts

variable {G : Guests κ} {hL : L.Opaque G} {M : Matching} {m m' : Machine κ σ}

theorem resembles (h : m.Hosts hL M m') (htame : m'.world.Tame) : m.toScene.Resembles G.trees m'.toScene :=
  h.world.resembles h.agenda htame.named

/-- Where the next task is the same, or there is none, the machines are at
**corresponding states**. -/
theorem corresponds (h : m.Hosts hL M m') (htame : m'.world.Tame)
    (hfront : Option.Rel (Task.Matched G M) m.agenda.head? m'.agenda.head?) : m.Corresponds G m' where
  scene := h.resembles htame
  deed := by
    unfold Machine.deed?
    generalize m.agenda.head? = t at hfront ⊢
    generalize m'.agenda.head? = t' at hfront ⊢
    cases hfront with
    | none => rfl
    | some ht => exact ht.deed
  rest := by
    rw [← List.head?_eq_none_iff, ← List.head?_eq_none_iff]
    generalize m.agenda.head? = t at hfront ⊢
    generalize m'.agenda.head? = t' at hfront ⊢
    cases hfront <;> simp

/-- Where the next task is a guest's, **the step is a visit's**. -/
theorem visited {g' : World κ} {s' : σ} {t' : Task κ} {rest' : List (Task κ)}
    (h : m.Hosts hL M (machine g' (t' :: rest') s')) (htame : g'.Tame) (hsane : g'.unhooked.Sane) (ht : t'.Guest G M)
    (hrest : Woven (Task.Matched G M) (Task.Guest G M) m.agenda rest') :
    (machine g' (t' :: rest') s').Visited L G ∧ ∃ N, M ≤ N ∧ m.Hosts hL N (L.step (machine g' (t' :: rest') s')) := by
  have hsteps := Language.Opaque.carry_guest hL h.world (htame.sane hsane) h.state ht rest'
  obtain ⟨N, hMN, hworld, htasks, hstate⟩ := hsteps
  have hhosts : m.Hosts hL N (L.step (machine g' (t' :: rest') s')) := by
    refine ⟨hworld, ?_, hstate⟩
    have hagenda := htasks.append (woven_mono hMN hrest)
    rwa [List.nil_append] at hagenda
  have htame' : (L.step (machine g' (t' :: rest') s')).world.Tame :=
    htame.congr (hhosts.world.outline.trans h.world.outline.symm)
  exact ⟨⟨(h.resembles htame).of_both (hhosts.resembles htame'), fun d => ht.deed, by simp [machine]⟩, N, hMN, hhosts⟩

/-- **What one step keeps**: the machine that hosts guests takes the same step, or a
guest's. -/
theorem step (h : m.Hosts hL M m') (htame : m'.world.Tame) (hsane : m'.world.unhooked.Sane) :
    (m.Corresponds G m' ∧ ∃ N, M ≤ N ∧ (L.step m).Hosts hL N (L.step m')) ∨
      m'.Visited L G ∧ ∃ N, M ≤ N ∧ m.Hosts hL N (L.step m') := by
  obtain ⟨⟨g, agenda⟩, s⟩ := m
  obtain ⟨⟨g', agenda'⟩, s'⟩ := m'
  have hwhole := h
  obtain ⟨hworld, hagenda, hstate⟩ := h
  cases hagenda with
  | nil => exact Or.inl ⟨hwhole.corresponds htame .none, M, le_rfl, hwhole⟩
  | other ht hrest => exact Or.inr (hwhole.visited htame hsane ht hrest)
  | cons ht hrest =>
    refine Or.inl ⟨hwhole.corresponds htame (.some ht), ?_⟩
    obtain ⟨N, hMN, hworld', htasks, hstate'⟩ :=
      Language.Opaque.carry hL hworld hrest htame.named (htame.sane hsane) hstate ht
    exact ⟨N, hMN, hworld', htasks.append (woven_mono hMN hrest), hstate'⟩

end Machine.Hosts

end LiveRules
