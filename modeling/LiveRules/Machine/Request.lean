/-
# Requests

What client code can ask for. Client code touches the world by its requests
only. They are carried out one after the other, each with everything it causes
before the next, and a request that names something that does not exist is
ignored.

Key definitions: `Signal`, `Request`.
-/
import LiveRules.World.Basic

namespace LiveRules

/-- Why code is run. -/
inductive Signal
  /-- On a context, if there is one, and with an argument (zero if none was
  given). -/
  | enter (context : Option ObjectId) (argument : Int64)
  /-- Because a collection it listens to has changed. -/
  | changed (change : Change)
  /-- Because a subscription it asked for has been made. -/
  | subscribed (id : SubscriptionId)

inductive Request (κ : Type)
  /-- Makes an object and names it. -/
  | newObject (name : String) (properties : Table String Value) (base : Option ObjectId)
      (own : List String)
  /-- Makes a collection and names it. -/
  | newCollection (name : String) (items : List ObjectId) (free : Bool)
  /-- Makes a command that is bound to nothing and names it. -/
  | newCommand (name : String) (takesArgument : Bool)
  | nameCommand (name : String) (c : CommandId)
  | forgetObject (name : String)
  | forgetCollection (name : String)
  /-- Stores a value in a property and notifies. -/
  | write (o : ObjectId) (property : String) (v : Value)
  /-- Notifies on the object that holds a property. -/
  | notify (o : ObjectId) (property : String)
  | hook (o : ObjectId) (property : String) (k : κ)
  /-- Subscribes `k`; then `receiver` is told the subscription's id. -/
  | subscribe (s : Subject) (property : String) (k : κ) (context : Option ObjectId) (receiver : κ)
  | unsubscribe (s : Subject) (id : SubscriptionId)
  | subscribeChanges (c : CollectionId) (k receiver : κ)
  | unsubscribeChanges (c : CollectionId) (id : SubscriptionId)
  | push (c : CollectionId) (o : ObjectId)
  /-- Past the end means at the end. -/
  | insert (c : CollectionId) (index : Nat) (o : ObjectId)
  | remove (c : CollectionId) (index : Nat)
  | clear (c : CollectionId)
  /-- Gives a free collection new members, if any are given, and reports a change
  that need not fit. -/
  | report (c : CollectionId) (items : Option (List ObjectId)) (change : Change)
  | perform (a : Action κ) (context : ObjectId)
  /-- Makes a tree, not attached; its id is the number of trees before. -/
  | newTree (plan : WatchPlan κ)
  | attach (t : TreeId) (context : ObjectId)
  | dispose (t : TreeId)
  /-- Gives up a tree: it is disposed of once no call on it is running. -/
  | drop (t : TreeId)
  | call (k : κ) (signal : Signal)
  /-- Keeps a thing alive until this request's turn. -/
  | hold (v : Value)

end LiveRules
