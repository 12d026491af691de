/-
# Granting requests

What a request of client code does. Making, naming and forgetting things has no
further consequences; writes and changes of collections start a round. A client
can take back its own subscriptions only, not those of watchers.

Key definitions: `World.grant`.
-/
import LiveRules.Machine.Round
import LiveRules.Machine.Watching

namespace LiveRules
namespace World

variable {κ : Type}

/-- The subscription is one that client code made, or none. -/
def ownedByCode (g : World κ) (s : Subject) (id : SubscriptionId) : Bool :=
  (g.reach s).all fun s =>
    match (g.notifierOf s).listener? id with
    | some (.member _ _) => false
    | _ => true

def changeOwnedByCode (g : World κ) (c : CollectionId) (id : SubscriptionId) : Bool :=
  match (g.listenersOfCollection c).get? id with
  | some (.membership _) => false
  | _ => true

/-- The members of a collection that keeps its own account of them. -/
def listOf (g : World κ) (c : CollectionId) : Option (List ObjectId) :=
  g.collections[c]?.bind fun x => if x.free then none else some x.items

/-- Grants a request that is not a call of code; `rest` is what comes after it. -/
def grant (g : World κ) (rest : List (Task κ)) : Request κ → World κ × List (Task κ)
  | .newObject name properties base own =>
    if base.all g.hasObject && properties.all (fun e => g.hasValue e.2) then
      ({ g with
          objects := g.objects.push { label := name, properties, base, own }
          objectNames := g.objectNames.set name g.objects.size }, [])
    else (g, [])
  | .newCollection name items free =>
    if items.all g.hasObject then
      ({ g with
          collections := g.collections.push { label := name, items, free }
          collectionNames := g.collectionNames.set name g.collections.size }, [])
    else (g, [])
  | .newCommand name takesArgument =>
    ({ g with
        commands := g.commands.push { takesArgument }
        commandNames := g.commandNames.set name g.commands.size }, [])
  | .nameCommand name c =>
    if g.hasValue (.command c) then ({ g with commandNames := g.commandNames.set name c }, [])
    else (g, [])
  | .forgetObject name => ({ g with objectNames := g.objectNames.erase name }, [])
  | .forgetCollection name => ({ g with collectionNames := g.collectionNames.erase name }, [])
  | .write o property v =>
    if g.hasObject o && g.hasValue v then g.write o property v else (g, [])
  | .notify o property => (g, g.round (.object (g.holder o property)) property)
  | .hook o property k =>
    (g.modifyObject o fun x => { x with hooks := x.hooks ++ [(property, k)] }, [])
  | .subscribe s property k context receiver =>
    if g.hasValue s.value then (g, [.subscribe s property (.code k context) (.code receiver)])
    else (g, [])
  | .unsubscribe s id => (if g.ownedByCode s id then g.unsubscribe s id else g, [])
  | .subscribeChanges c k receiver =>
    if g.hasValue (.collection c) then
      (g.enterChangeListener c (.code k), [.request (.call receiver (.subscribed g.nextSubscription))])
    else (g, [])
  | .unsubscribeChanges c id => (if g.changeOwnedByCode c id then g.unsubscribeChanges c id else g, [])
  | .push c o =>
    match g.listOf c with
    | some items => if g.hasObject o then g.changeItems c (items ++ [o]) { added := [o] } else (g, [])
    | none => (g, [])
  | .insert c index o =>
    match g.listOf c with
    | some items =>
      if g.hasObject o then
        g.changeItems c (items.take index ++ o :: items.drop index) { added := [o] }
      else (g, [])
    | none => (g, [])
  | .remove c index =>
    match g.listOf c with
    | some items =>
      match items[index]? with
      | some o => g.changeItems c (items.eraseIdx index) { removed := [o] }
      | none => (g, [])
    | none => (g, [])
  | .clear c =>
    match g.listOf c with
    | some items => if items.isEmpty then (g, []) else g.changeItems c [] { removed := items }
    | none => (g, [])
  | .report c items change =>
    match g.collections[c]? with
    | some x =>
      if x.free && (items.getD [] ++ change.added ++ change.removed).all g.hasObject then
        g.changeItems c (items.getD x.items) change
      else (g, [])
    | none => (g, [])
  | .perform a context =>
    (g, if g.hasObject context then [.perform a context, .release (.value (.object context))] else [])
  | .newTree plan => ({ g with trees := g.trees.push { plan } }, [])
  | .attach t context => if g.hasObject context then g.attach t context else (g, [])
  | .dispose t => (g.dispose t, [])
  | .drop t =>
    let g := g.modifyTree t fun x => { x with dropped := true }
    (({ world := g, agenda := rest } : Scene κ).bury t, [])
  | .call _ _ => (g, [])
  | .hold _ => (g, [])

end World
end LiveRules
