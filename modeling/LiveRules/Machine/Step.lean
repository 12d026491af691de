/-
# One step of the machine

A step carries out the most urgent task: it changes the world and the client's
state, and puts the tasks this causes in front of the agenda. The machine is at
rest when the agenda is empty.

Key definitions: `Language.carry`, `Language.step`, `Language.settleDown`.
-/
import LiveRules.Machine.Delivery
import LiveRules.Machine.Grant
import LiveRules.Machine.Performance

namespace LiveRules
namespace Language

variable {κ σ : Type} (L : Language κ σ)

/-- Carries out the task `t`, with `rest` behind it. -/
def carry (g : World κ) (s : σ) (t : Task κ) (rest : List (Task κ)) : Effect κ σ :=
  let scene : Scene κ := { world := g, agenda := t :: rest }
  let pure (r : World κ × List (Task κ)) : Effect κ σ := { world := r.1, state := s, tasks := r.2 }
  match t with
  | .request (.call k signal) =>
    let (s, requests) := L.run k signal scene s
    { world := g, state := s, tasks := requests.map .request }
  | .request r => pure (g.grant rest r)
  | .perform a context => L.perform scene s a context
  | .fire site batch =>
    pure (g, if scene.alive site.context then
        batch.map (fun e => .perform e.2 site.context) ++ [.release (.value (.object site.context))]
      else [])
  | .deliver subject id l => pure (g, scene.deliver subject id l)
  | .deliverChange c id l change => pure (scene.deliverChange c id l change)
  | .bind w v => pure (g.bind w v)
  | .bindMembers b => pure (g.bindMembers b)
  | .enrol e => pure (g.enrol e)
  | .subscribe subject property l r => pure (g.subscribe subject property l r)
  | .register subject property l r => pure (g.register subject property l r)
  | .plant t w => pure (g.modifyTree t fun x => { x with root := some w }, [])
  | .release (.tree t) => pure (({ world := g, agenda := rest } : Scene κ).bury t, [])
  | .release _ => pure (g, [])

/-- One step; a machine at rest stays as it is. -/
def step (m : Machine κ σ) : Machine κ σ :=
  match m.agenda with
  | [] => m
  | t :: rest =>
    let e := L.carry m.world m.state t rest
    { world := e.world, state := e.state, agenda := e.tasks ++ rest }

/-- Steps until the machine is at rest, but at most `n` times. -/
def settleDown : Nat → Machine κ σ → Machine κ σ
  | 0, m => m
  | n + 1, m => if m.agenda.isEmpty then m else settleDown n (L.step m)

end Language
end LiveRules
