/-
# What a collection's watcher watches

A collection's watcher keeps its account of the members by the changes it is
told of, and a change made while another is being told of reaches those at the
end of the list first. So it can be told that a member left before it is told
that it joined: it finds nothing to take out, and comes to watch the member
afterwards. What is watched at rest is exactly the members and whatever was
missed in this way.

Key definitions: `sweeper`, `sweeping`.
Key theorems: `watched_members_iff`, `swept_member_still_watched`.
-/
import LiveRules.Proofs.Machine.Runs

namespace LiveRules

variable {κ σ : Type} {L : Language κ σ}

/-- **The members that are watched** at rest are those of the collection and those
whose leaving was missed; so they are the members if and only if nothing was missed.
Each is watched by a watcher bound to it. -/
theorem watched_members_iff {past : List (Machine κ σ)} {g : World κ} {s : σ} (h : Run L past (machine g [] s))
    (hhooks : ∀ n ∈ past, n.hooks = false) {w : WatcherId} {item : WatchPlan κ} {membership : Batch κ}
    {site : Attachment} {b : BoundCollection}
    (hw : g.watchers[w]? = some (.collection item membership site (some b))) (hitem : item.isNil = false)
    {items : List ObjectId} (hitems : g.listOf b.collection = some items) :
    ((g.watchedItems w).map (·.1)).Perm (items ++ missedIn past b.subscription) ∧
      (((g.watchedItems w).map (·.1)).Perm items ↔ missedIn past b.subscription = []) ∧
      ∀ e ∈ g.watchedItems w, ∃ x, g.watchers[e.2]? = some x ∧ x.target = some (.object e.1) := by
  have hstable := (h.leads hhooks).stable
  have hwatched : g.watchedItems w = b.items := by
    simp only [World.watchedItems, World.boundCollection?, hw, Option.map_some, Option.getD_some]
  rw [hwatched]
  have hperm : (b.items.map (·.1)).Perm (items ++ missedIn past b.subscription) := by
    rw [List.perm_iff_count]
    intro o
    have hbal := hstable.balanced hw hitem items hitems o
    simpa [joining, leaving] using hbal
  refine ⟨hperm, ⟨fun hsame => ?_, fun hnone => ?_⟩, (hstable.complete w).items hw⟩
  · have hlength := (hsame.symm.trans hperm).length_eq
    rw [List.length_append] at hlength
    exact List.eq_nil_of_length_eq_zero (Nat.left_eq_add.mp hlength)
  · rwa [hnone, List.append_nil] at hperm

/-! ### A listener that sweeps -/

/-- Whenever the collection changes, its first member is taken out. -/
def sweeper : Language Unit Unit where
  run _ signal _ s :=
    match signal with
    | .changed _ => (s, [.remove 0 0])
    | _ => (s, [])
  value _ _ _ _ := .null
  test _ _ _ _ s := (true, s)

/-- The sweeper listens before a tree that watches the member's `name` is attached;
then a member joins. -/
def sweeping : List (Request Unit) :=
  [.newCollection "list" [] false, .newObject "item" [] none [],
    .newObject "context" [("list", .collection 0)] none [], .subscribeChanges 0 () (),
    .newTree (.collection "list" [] [] (.value "name" [] .nil) .nil), .attach 0 1, .push 0 0]

/-- The machines that take the next `n` steps, the last one first, and what comes of
them. -/
def Language.trail (L : Language κ σ) : Nat → List (Machine κ σ) → Machine κ σ → List (Machine κ σ) × Machine κ σ
  | 0, past, m => (past, m)
  | n + 1, past, m => L.trail n (m :: past) (L.step m)

theorem Run.trail {past : List (Machine κ σ)} {m : Machine κ σ} (h : Run L past m) (n : Nat) :
    Run L (L.trail n past m).1 (L.trail n past m).2 := by
  induction n generalizing past m with
  | zero => exact h
  | succ n ih => exact ih h.step

/-- What comes of sweeping, when the machine is at rest again. -/
def swept : List (Machine Unit Unit) × Machine Unit Unit :=
  sweeper.trail 41 [] (machine {} (sweeping.map .request) ())

theorem swept_run : Run sweeper swept.1 (machine swept.2.world [] ()) :=
  ((Run.start ()).ask sweeping ()).trail 41

theorem swept_hooks : ∀ n ∈ swept.1, n.hooks = false := by
  have hall : swept.1.all (fun n => !n.hooks) = true := by decide +kernel
  intro n hn
  simpa using List.all_eq_true.mp hall n hn

/-- What the collection's watcher keeps after sweeping. -/
def sweptBooks : BoundCollection :=
  { collection := 0, subscription := 2, items := [(0, 2)] }

theorem swept_watcher : swept.2.world.watchers[1]? =
    some (.collection (.value "name" [] .nil) [] { tree := 0, top := 0, context := 1 } (some sweptBooks)) := by
  rfl

/-- **A member that has left is still watched**: the collection is empty again, and the
item watched. -/
theorem swept_member_still_watched : ∃ (past : List (Machine Unit Unit)) (g : World Unit) (w : WatcherId)
    (item : WatchPlan Unit) (membership : Batch Unit) (site : Attachment) (b : BoundCollection) (items : List ObjectId),
    Run sweeper past (machine g [] ()) ∧ (∀ n ∈ past, n.hooks = false) ∧
      g.watchers[w]? = some (.collection item membership site (some b)) ∧ item.isNil = false ∧
        g.listOf b.collection = some items ∧ ¬ ((g.watchedItems w).map (·.1)).Perm items := by
  refine ⟨swept.1, swept.2.world, 1, .value "name" [] .nil, [], { tree := 0, top := 0, context := 1 }, sweptBooks, [],
    swept_run, swept_hooks, swept_watcher, rfl, rfl, ?_⟩
  have hwatched : swept.2.world.watchedItems 1 = [(0, 2)] := by rfl
  rw [hwatched]
  decide

/-- The general account of what was swept: the item was missed once. -/
theorem watched_members_swept :
    (∀ n ∈ swept.1, n.hooks = false) ∧ ((swept.2.world.watchedItems 1).map (·.1)).Perm ([] ++ missedIn swept.1 2) ∧
      missedIn swept.1 2 = [0] := by
  refine ⟨swept_hooks, ?_, by rfl⟩
  exact (watched_members_iff (s := ()) swept_run swept_hooks swept_watcher rfl rfl).1

end LiveRules
