/-
# Two machines side by side

Two machines are compared that are asked for the same when they are at rest, and of
which each takes its own steps meanwhile. What client code is run and which actions act
on which context is what shows of a run.

Key definitions: `Event`, `Machine.event?`, `Abreast`.
-/
import LiveRules.Proofs.Firing.Idling

namespace LiveRules

variable {κ σ : Type} {L : Language κ σ}

/-- What shows of a step. -/
inductive Event (κ : Type)
  /-- An action acts on an object. -/
  | acts (a : Action κ) (context : ObjectId)
  /-- Client code is run. -/
  | runs (k : κ) (signal : Signal)

/-- An action that acts on the base of its context shows when it acts there. -/
def Task.event? : Task κ → Option (Event κ)
  | .perform (.onBase _) _ => none
  | .perform a context => some (.acts a context)
  | .request (.call k signal) => some (.runs k signal)
  | _ => none

/-- What the next step shows. -/
def Machine.event? (m : Machine κ σ) : Option (Event κ) :=
  m.agenda.head?.bind Task.event?

/-- Each machine takes its steps, and when both are at rest they are asked for the same,
and the client's state may have changed in the same way. The machines that took a step
are listed for each, the last one first. -/
inductive Abreast (L : Language κ σ) (m₀ m₀' : Machine κ σ) :
    List (Machine κ σ) → Machine κ σ → List (Machine κ σ) → Machine κ σ → Prop
  | here : Abreast L m₀ m₀' [] m₀ [] m₀'
  | ask {later later' : List (Machine κ σ)} {g g' : World κ} {s s' : σ}
      (h : Abreast L m₀ m₀' later (machine g [] s) later' (machine g' [] s')) (requests : List (Request κ)) (s₁ : σ) :
      Abreast L m₀ m₀' later (machine g (requests.map .request) s₁) later' (machine g' (requests.map .request) s₁)
  | left {later later' : List (Machine κ σ)} {m m' : Machine κ σ} (h : Abreast L m₀ m₀' later m later' m') :
      Abreast L m₀ m₀' (m :: later) (L.step m) later' m'
  | right {later later' : List (Machine κ σ)} {m m' : Machine κ σ} (h : Abreast L m₀ m₀' later m later' m') :
      Abreast L m₀ m₀' later m (m' :: later') (L.step m')

namespace Abreast

variable {m₀ m₀' m m' n' : Machine κ σ} {later later' : List (Machine κ σ)}

/-- The second machine goes on. -/
theorem passes (h : Abreast L m₀ m₀' later m later' m') {ms : List (Machine κ σ)} (hpasses : L.Passes m' ms n') :
    Abreast L m₀ m₀' later m (ms.reverse ++ later') n' := by
  induction hpasses generalizing later' with
  | done m' => exact h
  | step _ ih =>
    rw [List.reverse_cons, List.append_assoc]
    exact ih h.right

end Abreast
end LiveRules
