/-
# Notifiers

Who is told when a property of one object changes. A notifier keeps two
indexes: for each property its listeners, in order of subscription, and for
each subscription the property it is for. A round takes the first as it is
when it starts and asks the second before each call, so that a subscription
taken back during the round is not called any more.

Key definitions: `Notifier`, `Notifier.subscribe`, `Notifier.unsubscribe`,
`Notifier.listenersOf`, `Notifier.isLive`.
-/
import LiveRules.Table

namespace LiveRules

abbrev SubscriptionId := Nat

structure Notifier (α : Type) where
  subscribers : Table String (List (SubscriptionId × α)) := []
  owners : Table SubscriptionId String := []

namespace Notifier

variable {α : Type}

/-- The listeners of a property, in order of subscription. -/
def listenersOf (n : Notifier α) (property : String) : List (SubscriptionId × α) :=
  (n.subscribers.get? property).getD []

def isLive (n : Notifier α) (id : SubscriptionId) : Bool :=
  n.owners.has id

def subscribe (n : Notifier α) (property : String) (id : SubscriptionId) (listener : α) : Notifier α :=
  { subscribers := n.subscribers.set property (n.listenersOf property ++ [(id, listener)])
    owners := n.owners.set id property }

/-- Takes a subscription back. An unknown id changes nothing. -/
def unsubscribe (n : Notifier α) (id : SubscriptionId) : Notifier α :=
  match n.owners.get? id with
  | none => n
  | some property =>
    let rest := (n.listenersOf property).filter fun l => l.1 ≠ id
    { subscribers :=
        if rest.isEmpty then n.subscribers.erase property else n.subscribers.set property rest
      owners := n.owners.erase id }

def listener? (n : Notifier α) (id : SubscriptionId) : Option α :=
  (n.owners.get? id).bind fun property => Table.get? (n.listenersOf property) id

/-- The number of subscriptions. -/
def count (n : Notifier α) : Nat :=
  n.owners.length

def countOf (n : Notifier α) (property : String) : Nat :=
  (n.listenersOf property).length

end Notifier
end LiveRules
