/-
# Subscriptions

Listeners are entered in the notifier of one object or command, or in one
collection, under ids that are never used twice. Taking a subscription back asks
the object it was made through and everything that object is based on, since
that is where it can be.

Key definitions: `World.enterListener`, `World.unsubscribe`,
`World.enterChangeListener`, `World.unsubscribeChanges`, `World.takeHook`.
-/
import LiveRules.World.Property

namespace LiveRules
namespace World

variable {κ : Type}

def notifierOf (g : World κ) : Subject → Notifier (Listener κ)
  | .object o => (g.objects[o]?.map (·.notifier)).getD {}
  | .command c => (g.commands[c]?.map (·.notifier)).getD {}

def modifyNotifier (g : World κ) (s : Subject) (f : Notifier (Listener κ) → Notifier (Listener κ)) :
    World κ :=
  match s with
  | .object o => g.modifyObject o fun x => { x with notifier := f x.notifier }
  | .command c => g.modifyCommand c fun x => { x with notifier := f x.notifier }

/-- Enters a listener under the next subscription id. -/
def enterListener (g : World κ) (s : Subject) (property : String) (l : Listener κ) : World κ :=
  { g.modifyNotifier s (·.subscribe property g.nextSubscription l) with
    nextSubscription := g.nextSubscription + 1 }

/-- The subjects at which a subscription made through `s` can be found. -/
def reach (g : World κ) : Subject → List Subject
  | .object o => (g.lineage o).map .object
  | .command c => [.command c]

def unsubscribe (g : World κ) (s : Subject) (id : SubscriptionId) : World κ :=
  (g.reach s).foldl (fun g s => g.modifyNotifier s (·.unsubscribe id)) g

def listenersOfCollection (g : World κ) (c : CollectionId) :
    Table SubscriptionId (ChangeListener κ) :=
  (g.collections[c]?.map (·.listeners)).getD []

def enterChangeListener (g : World κ) (c : CollectionId) (l : ChangeListener κ) : World κ :=
  { g.modifyCollection c (fun x => { x with listeners := x.listeners.set g.nextSubscription l }) with
    nextSubscription := g.nextSubscription + 1 }

def unsubscribeChanges (g : World κ) (c : CollectionId) (id : SubscriptionId) : World κ :=
  g.modifyCollection c fun x => { x with listeners := x.listeners.erase id }

def itemsOf (g : World κ) (c : CollectionId) : List ObjectId :=
  (g.collections[c]?.map (·.items)).getD []

/-- Takes the oldest hook on a property off its object. -/
def takeHook (g : World κ) (o : ObjectId) (property : String) : Option (κ × World κ) := do
  let x ← g.objects[o]?
  let i ← x.hooks.findIdx? fun h => h.1 = property
  let h ← x.hooks[i]?
  return (h.2, g.modifyObject o fun x => { x with hooks := x.hooks.eraseIdx i })

end World
end LiveRules
