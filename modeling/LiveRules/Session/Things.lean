/-
# Statements about objects and collections

What a statement answers is known before anything it causes has run: whether a
value is set, what was removed, and so on. What is named in it is held until all
that it causes is done.

Key definitions: `Session.Turn.objectStatement`, `Session.Turn.collectionStatement`.
-/
import LiveRules.Session.Expression

namespace LiveRules
namespace Session
namespace Turn

/-- Requests during which an object is held. -/
def holding (o : ObjectId) (requests : List (Request Code)) : List (Request Code) :=
  requests ++ [.hold (.object o)]

def holdingCollection (c : CollectionId) (requests : List (Request Code)) : List (Request Code) :=
  requests ++ [.hold (.collection c)]

/-- The second value counts as the same as the first. -/
def Sameness.accepts : Sameness → Value → Value → Bool
  | .always, _, _ => true
  | .never, _, _ => false
  | .magnitude, a, b => a.toNumber = b.toNumber || a.toNumber = -b.toNumber

/-- Writes a value unless it is the `same` as what is there. -/
def writeUnless (t : Turn) (o : ObjectId) (property : String) (v : Value) (same : Bool) : Outcome :=
  if same then t.reply (.flag false) else t.reply (.flag true) (holding o [.write o property v])

def objectStatement (t : Turn) : ObjectStatement Script → Except Failure Outcome
  | .make name properties base own => do
    let base ← base.mapM t.object
    let properties ← t.evalProperties properties
    return t.reply .done [.newObject name properties base own]
  | .forget name =>
    return t.reply (.flag (t.world.objectNames.has name)) [.forgetObject name]
  | .hook ref property body => do
    return t.reply .done [.hook (← t.object ref) property (.script body)]
  | .get ref => do return t.reply (.value (t.world.shown (← t.resolve ref)))
  | .member ref property => do
    let v := t.world.read (← t.object ref) property
    return t.reply (.member (match v with
      | .scalar _ => none
      | _ => some (v.subject?.isSome, v.collection?.isSome)))
  | .set ref property e => do
    let o ← t.object ref
    let v ← t.eval e
    return t.writeUnless o property v (t.world.read o property = v)
  | .setBy ref property e same => do
    let o ← t.object ref
    let v ← t.eval e
    return t.writeUnless o property v (Sameness.accepts same (t.world.read o property) v)
  | .replace ref property e => do
    let o ← t.object ref
    let v ← t.eval e
    let old := t.world.read o property
    return t.reply (.value (t.world.shown old)) (holding o [.write o property v, .hold old])
  | .update ref property increment => do
    let o ← t.object ref
    let n ← t.eval increment
    let sum := (t.world.read o property).toNumber + n.toNumber
    return t.reply (.number sum) (holding o [.write o property (.int sum)])
  | .describe ref property => do
    return t.reply (.property property (t.world.shown (t.world.read (← t.object ref) property)))
  | .notify ref property => do
    let o ← t.object ref
    return t.reply .done (holding o [.notify o property])
  | .count ref property => do
    let n := t.world.notifierOf (.object (← t.object ref))
    return t.reply (.count (match property with
      | some p => n.countOf p
      | none => n.count))
  | .subscribe ref property name body => do
    let o ← t.object ref
    return t.reply .done (holding o
      [.subscribe (.object o) property (.script body) (some o) (.keepSubscription name)])
  | .unsubscribe ref name => do
    let o ← t.object ref
    return t.reply .done [.unsubscribe (.object o) (← t.state.subscription name)]

def collectionStatement (t : Turn) : CollectionStatement Script → Except Failure Outcome
  | .make name items free => do return t.reply .done [.newCollection name (← t.objects items) free]
  | .forget name =>
    return t.reply (.flag (t.world.collectionNames.has name)) [.forgetCollection name]
  | .push ref item => do
    let (c, _) ← t.collectionOf false ref
    return t.reply .done (holdingCollection c [.push c (← t.object item)])
  | .insert ref index item => do
    let (c, _) ← t.collectionOf false ref
    return t.reply .done (holdingCollection c [.insert c index (← t.object item)])
  | .remove ref index => do
    let (c, items) ← t.collectionOf false ref
    return t.reply (.label (items[index]?.map t.world.labelOf)) (holdingCollection c [.remove c index])
  | .removeItem ref item => do
    let (c, items) ← t.collectionOf false ref
    let o ← t.object item
    match items.findIdx? (· = o) with
    | some i => return t.reply (.flag true) (holdingCollection c [.remove c i])
    | none => return t.reply (.flag false)
  | .clear ref => do
    let (c, _) ← t.collectionOf false ref
    return t.reply .done (holdingCollection c [.clear c])
  | .get ref index => do
    let (_, items) ← t.collectionOf false ref
    return t.reply (.label (items[index]?.map t.world.labelOf))
  | .describe ref => do
    let (c, items) ← t.collectionOf false ref
    return t.reply (.collection
      { members := t.world.labelsOf items, subscriptions := (t.world.listenersOfCollection c).length })
  | .report ref items added removed => do
    let (c, _) ← t.collectionOf true ref
    let items ← items.mapM t.objects
    let change : Change := { added := ← t.objects added, removed := ← t.objects removed }
    return t.reply (.flag change.isEmpty) (holdingCollection c [.report c items change])
  | .subscribe ref name body => do
    let c ← t.anyCollection ref
    return t.reply .done [.subscribeChanges c (.listener name body) (.keepSubscription name)]
  | .unsubscribe ref name => do
    let c ← t.anyCollection ref
    return t.reply .done [.unsubscribeChanges c (← t.state.subscription name)]

end Turn
end Session
end LiveRules
