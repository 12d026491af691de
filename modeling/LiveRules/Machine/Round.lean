/-
# Rounds of notifications

When a property or a collection changes, its listeners are told one after the
other. Who is told is fixed when the round starts: the tasks of a round are one
delivery for each listener there is then. Whether a listener is still subscribed
is asked at its turn.

Key definitions: `World.round`, `World.changeRound`, `World.write`, `World.set`.
-/
import LiveRules.Machine.Task

namespace LiveRules

variable {κ : Type}

/-- One delivery for each listener that a property has now. -/
def World.round (g : World κ) (s : Subject) (property : String) : List (Task κ) :=
  ((g.notifierOf s).listenersOf property).map fun l => .deliver s l.1 l.2

/-- One delivery for each listener that a collection has now; what the change
speaks of is held until all are done. -/
def World.changeRound (g : World κ) (c : CollectionId) (change : Change) : List (Task κ) :=
  ((g.listenersOfCollection c).map fun l => .deliverChange c l.1 l.2 change) ++
    (change.added ++ change.removed).map fun o => .release (.value (.object o))

/-- Gives a collection new members and starts the round for the change. -/
def World.changeItems (g : World κ) (c : CollectionId) (items : List ObjectId) (change : Change) :
    World κ × List (Task κ) :=
  (g.modifyCollection c fun x => { x with items }, g.changeRound c change)

/-- Stores a value and starts the round for it. -/
def World.write (g : World κ) (o : ObjectId) (property : String) (v : Value) :
    World κ × List (Task κ) :=
  (g.store o property v, g.round (.object (g.holder o property)) property)

/-- The same, unless the property holds the value already. -/
def World.set (g : World κ) (o : ObjectId) (property : String) (v : Value) :
    World κ × List (Task κ) :=
  if g.read o property = v then (g, []) else g.write o property v

end LiveRules
