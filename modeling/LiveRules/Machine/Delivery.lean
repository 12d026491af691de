/-
# Subscribing and delivering

A subscription through an object first runs the hook that is due on it, and is
then made, there or at the base that answers for the property. A delivery of a
round passes over listeners that are gone, contexts that are gone and watchers
that are gone.

Key definitions: `World.subscribe`, `World.register`, `Scene.deliver`,
`Scene.deliverChange`.
-/
import LiveRules.Machine.Watching

namespace LiveRules

variable {κ : Type}

/-- Code runs on a context that is held meanwhile. -/
def callOn (k : κ) (context : ObjectId) : List (Task κ) :=
  [.request (.call k (.enter (some context) 0)), .release (.value (.object context))]

/-- Hands a subscription that has been made to whoever waits for it. -/
def World.answer (g : World κ) (id : SubscriptionId) : Receiver κ → World κ × List (Task κ)
  | .code k => (g, [.request (.call k (.subscribed id))])
  | .binding b => g.bindChild b id

/-- Makes a subscription: at the base, if the object does not answer for the
property itself, which may make another hook due. -/
def World.register (g : World κ) (s : Subject) (property : String) (l : Listener κ) (r : Receiver κ) :
    World κ × List (Task κ) :=
  let here := (g.enterListener s property l).answer g.nextSubscription r
  match s with
  | .object o =>
    match g.baseOf o with
    | some b => if g.answersFor property o then here else (g, [.subscribe (.object b) property l r])
    | none => here
  | .command _ => here

/-- Runs the hook that is due before a subscription, and then makes it. -/
def World.subscribe (g : World κ) (s : Subject) (property : String) (l : Listener κ) (r : Receiver κ) :
    World κ × List (Task κ) :=
  match s with
  | .object o =>
    match g.takeHook o property with
    | some (k, g) => (g, callOn k o ++ [.register s property l r])
    | none => (g, [.register s property l r])
  | .command _ => (g, [.register s property l r])

/-- What telling one listener comes to: nothing, if its subscription was taken back
or what it works for is gone. -/
def Scene.deliver (scene : Scene κ) (s : Subject) (id : SubscriptionId) (l : Listener κ) : List (Task κ) :=
  let g := scene.world
  if (g.notifierOf s).isLive id then
    match l with
    | .code k none => [.request (.call k (.enter none 0))]
    | .code k (some o) => if scene.alive o then callOn k o else []
    | .member w index =>
      if scene.isLive w then g.memberChanged w index else []
  else []

/-- The same for a listener of a collection. -/
def Scene.deliverChange (scene : Scene κ) (c : CollectionId) (id : SubscriptionId) (l : ChangeListener κ)
    (change : Change) : World κ × List (Task κ) :=
  let g := scene.world
  if (g.listenersOfCollection c).has id then
    match l with
    | .code k => (g, [.request (.call k (.changed change))])
    | .membership w =>
      if scene.isLive w then g.membershipChanged w change else (g, [])
  else (g, [])

end LiveRules
