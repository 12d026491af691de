/-
# Watching

How the watchers of a tree follow what they watch. Two rules decide what
interleaves with what. A watcher subscribes to one property after the other and
looks at each value right after it has subscribed to it. And a watcher whose
property has changed binds to the new value before its batch fires.

Key definitions: `World.bind`, `World.bindMembers`, `World.bindChild`,
`World.enrol`, `World.memberChanged`, `World.membershipChanged`, `World.attach`.
-/
import LiveRules.Machine.Task

namespace LiveRules

variable {κ : Type}

/-- Starts to bind a watcher to a value, after releasing it. -/
def World.bind (g : World κ) (w : WatcherId) (v : Value) : World κ × List (Task κ) :=
  let g := g.unbind w
  match g.watchers[w]? with
  | some (.object plan site _) =>
    match v.subject? with
    | some s => (g, [.bindMembers { watcher := w, site, subject := s, rest := plan }])
    | none => (g, [])
  | some (.collection item _ site _) =>
    match v.collection? with
    | some c =>
      let g' := g.enterChangeListener c (.membership w)
      (g', [.enrol { watcher := w, site, item, binds := some (c, g.nextSubscription),
                     pending := g'.itemsOf c }])
    | none => (g, [])
  | none => (g, [])

/-- Subscribes to the next property, or binds the watcher if there is none. -/
def World.bindMembers (g : World κ) (b : Binding κ) : World κ × List (Task κ) :=
  let next (name : String) : World κ × List (Task κ) :=
    (g, [.subscribe b.subject name (.member b.watcher b.subscriptions.length) (.binding b)])
  match b.rest with
  | .nil =>
    (g.bindObject b.watcher
      { subject := b.subject, subscriptions := b.subscriptions, children := b.children }, [])
  | .value name _ _ => next name
  | .object name _ _ _ => next name
  | .collection name _ _ _ _ => next name

/-- The subscription to the first property of `rest` has been made: its value is
watched as the plan asks, and the binding goes on. -/
def World.bindChild (g : World κ) (b : Binding κ) (id : SubscriptionId) : World κ × List (Task κ) :=
  let subscriptions := b.subscriptions ++ [id]
  let child (name : String) (w : Watcher κ) (rest : WatchPlan κ) : World κ × List (Task κ) :=
    let c := g.watchers.size
    (g.addWatcher w,
      [.bind c (g.memberValue b.subject name),
       .bindMembers { b with subscriptions, children := b.children ++ [some c], rest }])
  match b.rest with
  | .nil => (g, [])
  | .value _ _ rest =>
    (g, [.bindMembers { b with subscriptions, children := b.children ++ [none], rest }])
  | .object name _ inside rest => child name (.object inside b.site none) rest
  | .collection name _ membership item rest =>
    child name (.collection item membership b.site none) rest

/-- Watches the next member, or ends the enrolment if there is none. Members that
the plan does not look into need no watcher. -/
def World.enrol (g : World κ) (e : Enrolment κ) : World κ × List (Task κ) :=
  match e.item.isNil, e.pending with
  | false, o :: os =>
    let w := g.watchers.size
    (g.addWatcher (.object e.item e.site none),
      [.bind w (.object o), .enrol { e with done := e.done ++ [(o, w)], pending := os }])
  | _, _ =>
    match e.binds with
    | some (collection, subscription) =>
      (g.bindCollection e.watcher { collection, subscription, items := e.done }, [])
    | none =>
      match g.watchers[e.watcher]? with
      | some (.collection _ membership site (some b)) =>
        (g.bindCollection e.watcher { b with items := b.items ++ e.done }, [.fire site membership])
      | _ => ((e.done.map (·.2)).foldl World.unbind g, [])

/-- A watched property has changed: its value is watched anew, and then its batch
fires. -/
def World.memberChanged (g : World κ) (w : WatcherId) (index : Nat) : List (Task κ) :=
  match g.watchers[w]? with
  | some (.object plan site (some b)) =>
    match plan.place? index with
    | some (name, batch) =>
      ((b.children[index]?.bind id).toList.map fun c => .bind c (g.memberValue b.subject name)) ++
        [.fire site batch, .release (.value b.subject.value), .release (.watcher w)]
    | none => []
  | _ => []

/-- Members have joined or left: watchers of those that left are released, those
that joined are watched, and then the batch fires. -/
def World.membershipChanged (g : World κ) (w : WatcherId) (change : Change) :
    World κ × List (Task κ) :=
  match g.watchers[w]?, change.isEmpty with
  | some (.collection item _ site (some b)), false =>
    let (taken, items) := World.takeItems b.items change.removed
    (taken.foldl World.unbind (g.bindCollection w { b with items }),
      [.enrol { watcher := w, site, item, binds := none, pending := change.added },
       .release (.watcher w)])
  | _, _ => (g, [])

/-- Moves a tree to a new context: a new root watcher is bound to it. -/
def World.attach (g : World κ) (t : TreeId) (context : ObjectId) : World κ × List (Task κ) :=
  let g := g.dispose t
  match g.trees[t]? with
  | some tree =>
    let w := g.watchers.size
    (g.addWatcher (.object tree.plan { tree := t, top := w, context } none),
      [.bind w (.object context), .plant t w, .release (.tree t)])
  | none => (g, [])

/-- Disposes of a tree that was given up, once no call on it is running. -/
def Scene.bury (scene : Scene κ) (t : TreeId) : World κ :=
  let g := scene.world
  if (g.trees[t]?.map (·.dropped)).getD false && !scene.held.contains (.tree t) then g.dispose t
  else g

end LiveRules
