/-
# What one notification fires

A tree may be subscribed to one property of one object at several positions: the
object may be reached by several paths, be a member more than once, or be on a
cycle. One notification of the property makes the tree run one batch for each
position that does not lie, through the property, below another one, in the order
of the subscriptions; each batch holds the actions with a trigger path through the
position, once each. The other positions are watched anew.

Key definitions: `Position`, `World.positions`, `World.foremost`, `World.Notifies`.
Key theorems: `World.Grown.flatMap_told`, `World.Grown.batch_ids`, `notification_fires`.
-/
import LiveRules.Proofs.Firing.Round
import LiveRules.Proofs.Mirror.Mirror

namespace LiveRules

variable {κ σ : Type} {L : Language κ σ}

/-- A watcher that is subscribed to a property, and the property's place in its plan. -/
structure Position where
  id : SubscriptionId
  watcher : WatcherId
  index : Nat
  deriving DecidableEq

namespace World

/-- The listener as a position of the tree `t`. -/
def position? (g : World κ) (t : TreeId) (e : SubscriptionId × Listener κ) : Option Position :=
  match e.2 with
  | .member w i => if g.isPart t w = true then some ⟨e.1, w, i⟩ else none
  | .code _ _ => none

/-- The positions of `t` that are subscribed to `p` at `s`, the oldest first. -/
def positions (g : World κ) (t : TreeId) (s : Subject) (p : String) : List Position :=
  (g.listeners s p).filterMap (g.position? t)

/-- `x` lies below `y`, through the property that `y` is subscribed to. -/
def liesBelow (g : World κ) (x y : Position) : Bool :=
  (g.belowAt y.watcher y.index).contains x.watcher

/-- The positions that lie below no other, through the property. -/
def foremost (g : World κ) (t : TreeId) (s : Subject) (p : String) : List Position :=
  (g.positions t s p).filter fun x => !(g.positions t s p).any (g.liesBelow x)

/-- The request notifies of the property `p` of `o`: it sets it, or says so. -/
def Notifies (g : World κ) (r : Request κ) (o : ObjectId) (p : String) : Prop :=
  r = .notify o p ∨ ∃ v, r = .write o p v ∧ g.hasObject o = true ∧ g.hasValue v = true

theorem position?_eq_some {g : World κ} {t : TreeId} {e : SubscriptionId × Listener κ} {x : Position} :
    g.position? t e = some x ↔ e = (x.id, .member x.watcher x.index) ∧ g.isPart t x.watcher = true := by
  obtain ⟨id, l⟩ := e
  obtain ⟨id', w, i⟩ := x
  cases l with
  | code k context => simp [position?]
  | member v j =>
    simp only [position?]
    split
    · rename_i hpart
      simp only [Option.some.injEq, Position.mk.injEq, Prod.mk.injEq, Listener.member.injEq]
      constructor
      · rintro ⟨rfl, rfl, rfl⟩
        exact ⟨⟨rfl, rfl, rfl⟩, hpart⟩
      · exact fun h => h.1
    · rename_i hpart
      simp only [reduceCtorEq, Prod.mk.injEq, Listener.member.injEq, false_iff, not_and]
      rintro ⟨-, rfl, -⟩
      exact hpart

theorem mem_positions {g : World κ} {t : TreeId} {s : Subject} {p : String} {x : Position} : x ∈ g.positions t s p ↔
    (x.id, .member x.watcher x.index) ∈ g.listeners s p ∧ g.isPart t x.watcher = true := by
  unfold positions
  rw [List.mem_filterMap]
  constructor
  · rintro ⟨e, he, hx⟩
    obtain ⟨rfl, hpart⟩ := position?_eq_some.mp hx
    exact ⟨he, hpart⟩
  · rintro ⟨he, hpart⟩
    exact ⟨_, he, position?_eq_some.mpr ⟨rfl, hpart⟩⟩

theorem flatMap_filter_filterMap {α β γ : Type} (f : α → Option β) (q : β → Bool) (h : β → List γ) (l : List α) :
    ((l.filterMap f).filter q).flatMap h =
      l.flatMap fun a => (f a).elim [] fun b => if q b = true then h b else [] := by
  induction l with
  | nil => rfl
  | cons a l ih =>
    rw [List.flatMap_cons, ← ih]
    cases hf : f a with
    | none =>
      rw [List.filterMap_cons_none hf]
      rfl
    | some b =>
      rw [List.filterMap_cons_some hf, List.filter_cons]
      split
      · rename_i hq
        simp [hq]
      · rename_i hq
        simp [hq]

section

variable {g : World κ} (hg : g.Grown g.roots) {t : TreeId} {s : Subject} {p : String}

include hg

/-- Positions stand in the order of their subscriptions. -/
theorem Grown.positions_ascending : (g.positions t s p).Pairwise fun x y => x.id < y.id := by
  unfold positions
  rw [List.pairwise_filterMap]
  refine ((hg.filed.agrees s).ascending p).imp fun {a b} hab x hx y hy => ?_
  obtain ⟨rfl, -⟩ := position?_eq_some.mp hx
  obtain ⟨rfl, -⟩ := position?_eq_some.mp hy
  exact hab

/-- Whoever covers a position of the tree is a position of the tree. -/
theorem Grown.covered_iff {x : Position} (hx : x ∈ g.positions t s p) :
    g.covered (g.listeners s p) x.watcher = (g.positions t s p).any (g.liesBelow x) := by
  obtain ⟨hm, hpart⟩ := mem_positions.mp hx
  rw [Bool.eq_iff_iff, List.any_eq_true, covered, List.any_eq_true]
  constructor
  · rintro ⟨⟨id, l⟩, hl, hcovers⟩
    cases l with
    | code k context => cases hcovers
    | member v j =>
      refine ⟨⟨id, v, j⟩, mem_positions.mpr ⟨hl, ?_⟩, hcovers⟩
      have hmem : x.watcher ∈ g.belowAt v j := by simpa [covers] using hcovers
      obtain ⟨plan, site, b, c, hv, hc, hunder⟩ := hg.mem_belowAt.mp hmem
      obtain ⟨y, hy, hsite⟩ := hg.site_of_under hv (Under.head.mpr (Or.inr ⟨c, mem_listed_of_child hv hc, hunder⟩))
      unfold isPart at hpart ⊢
      rw [hy, Option.map_some, hsite] at hpart
      rw [hv, Option.map_some]
      exact hpart
  · rintro ⟨y, hy, hbelow⟩
    exact ⟨_, (mem_positions.mp hy).1, hbelow⟩

/-- **What a tree is told to run** in a round are the batches of its foremost positions. -/
theorem Grown.flatMap_told : (g.listeners s p).flatMap (g.told t (g.listeners s p)) =
    (g.foremost t s p).flatMap fun x => g.batchAt x.watcher x.index := by
  unfold foremost
  generalize hq : (fun x => !(g.positions t s p).any (g.liesBelow x)) = q
  rw [positions, flatMap_filter_filterMap]
  refine List.flatMap_congr fun e he => ?_
  obtain ⟨id, l⟩ := e
  cases l with
  | code k context => rfl
  | member w i =>
    unfold told position?
    simp only
    by_cases hpart : g.isPart t w = true
    · have hx : ⟨id, w, i⟩ ∈ g.positions t s p := mem_positions.mpr ⟨he, hpart⟩
      have hcovered : g.covered (g.listeners s p) w = (g.positions t s p).any (g.liesBelow ⟨id, w, i⟩) :=
        hg.covered_iff hx
      rw [hcovered, if_pos hpart, Option.elim_some, ← hq]
      simp [hpart]
    · rw [if_neg hpart, if_neg (fun h => hpart h.1), Option.elim_none]

theorem Grown.mem_foremost {x : Position} (hx : x ∈ g.positions t s p) :
    x ∈ g.foremost t s p ↔ g.covered (g.listeners s p) x.watcher = false := by
  unfold foremost
  rw [List.mem_filter, hg.covered_iff hx, Bool.not_eq_true']
  exact and_iff_right hx

/-- A position that is alone is foremost. -/
theorem Grown.foremost_single {x : Position} (hx : g.positions t s p = [x]) : g.foremost t s p = [x] := by
  have hmem : x ∈ g.positions t s p := hx ▸ List.mem_singleton_self x
  have hm := (mem_positions.mp hmem).1
  have hself : g.liesBelow x x = false := by
    by_contra hbelow
    exact lt_irrefl x.id (hg.lt_of_covers hm hm (Bool.not_eq_false _ ▸ hbelow))
  unfold foremost
  simp [hx, hself]

/-- **The batch of a position** holds the actions with a trigger path through it. -/
theorem Grown.batch_ids (hrooted : g.Rooted) {tree : Tree κ} (htree : g.trees[t]? = some tree) {graph : Graph}
    (hgraph : graph.Built) {resolve : ActionId → Option (ActionId × Action κ)}
    (hplan : tree.plan = graph.compile resolve) {x : Position} (hx : x ∈ g.positions t s p) :
    ∃ (r : Nat) (word : List Label) (ids : List ActionId), tree.root = some r ∧ g.At r x.watcher word ∧
      ids.Pairwise (· < ·) ∧
        (∀ a, a ∈ ids ↔ ∃ path : Path, a ∈ graph.actionsAt path ∧ word ++ [.field p] <+: path.word) ∧
        g.batchAt x.watcher x.index = ids.filterMap resolve := by
  obtain ⟨hm, hpart⟩ := mem_positions.mp hx
  obtain ⟨u, batch, ⟨plan, site, b, hw, -, hplace, -⟩, -⟩ := hg.member.mp hm
  obtain ⟨tree', r, htree', hroot, hnodes⟩ := hg.root_of_part hrooted ⟨_, hw, rfl⟩ hpart
  rw [htree] at htree'
  cases htree'
  obtain ⟨context, b', htop, -⟩ := hrooted t tree r htree hroot
  rw [hplan] at htop
  obtain ⟨word, hat⟩ := hg.exists_at ((hg.mem_nodes (Array.getElem?_eq_some_iff.mp htop).1).mp hnodes)
  obtain ⟨ids, hascending, hids, hbatch⟩ := hg.batch_triggers hgraph htop hat hw hplace
  refine ⟨r, word, ids, hroot, hat, hascending, hids, ?_⟩
  rw [← hbatch]
  simp only [batchAt, hw, hplace]
  rfl

end

end World

/-! ### One notification -/

/-- The request starts the round, and disturbs nobody. -/
theorem World.Notifies.step {g : World κ} {r : Request κ} {o : ObjectId} {p : String} (hr : g.Notifies r o p)
    {missed : SubscriptionId → List ObjectId} (h : Stable g [] missed) (s : σ) :
    ∃ g₁, L.step (machine g [.request r] s) = machine g₁ (g.round (.object (g.holder o p)) p) s ∧ g.Undisturbed g₁ ∧
      Stable g₁ (g.round (.object (g.holder o p)) p) missed := by
  rcases hr with rfl | ⟨v, rfl, ho, hv⟩
  · refine ⟨g, ?_, World.Undisturbed.refl g, ?_⟩
    · simp [Language.step, machine, Language.carry, World.grant]
    · have hround := h.round (.object (g.holder o p)) p
      rwa [List.append_nil] at hround
  · have htended := h.grown.sane.store o p hv
    refine ⟨g.store o p v, ?_, ⟨htended.watchers, htended.trees, htended.next, htended.listeners⟩, ?_⟩
    · simp [Language.step, machine, Language.carry, World.grant, ho, hv, World.write]
    · have hwrite := h.write o p hv
      rwa [List.append_nil] at hwrite

/-- **One notification** of a property, when code is inert from then on: the tree runs
exactly the batches of its foremost positions, in the order of their subscriptions.
These stay subscribed; the others are released and watched anew. A batch holds the
actions with a trigger path through the position, as far as they are known, each once
and in ascending order. -/
theorem notification_fires {past : List (Machine κ σ)} {g : World κ} {s : σ} (h : Run L past (machine g [] s))
    (hhooks : ∀ n ∈ past, n.hooks = false) {o : ObjectId} {p : String} {r : Request κ} (hr : g.Notifies r o p) (s' : σ)
    (hinert : L.Inert (L.step (machine g [.request r] s'))) (t : TreeId) :
    let holder := Subject.object (g.holder o p)
    (∃ ms g' s'', L.Passes (machine g [.request r] s') ms (machine g' [] s'') ∧
      ms.flatMap (Machine.fired t) = (g.foremost t holder p).flatMap (fun x => g.batchAt x.watcher x.index) ∧
        ∀ x ∈ g.positions t holder p, (g'.notifierOf holder).isLive x.id = true ↔ x ∈ g.foremost t holder p) ∧
      (g.positions t holder p).Pairwise (fun x y => x.id < y.id) ∧
      (∀ x, g.positions t holder p = [x] → g.foremost t holder p = [x]) ∧
      ∀ (tree : Tree κ) (graph : Graph) (resolve : ActionId → Option (ActionId × Action κ)), g.trees[t]? = some tree →
        graph.Built → tree.plan = graph.compile resolve → ∀ x ∈ g.positions t holder p,
          ∃ (top : Nat) (word : List Label) (ids : List ActionId), tree.root = some top ∧ g.At top x.watcher word ∧
            ids.Pairwise (· < ·) ∧
            (∀ a, a ∈ ids ↔ ∃ path : Path, a ∈ graph.actionsAt path ∧ word ++ [.field p] <+: path.word) ∧
            g.batchAt x.watcher x.index = ids.filterMap resolve := by
  intro holder
  have hstable := (h.leads hhooks).stable
  have hgrown := hstable.grown
  obtain ⟨g₁, hstep, hundisturbed, hstable₁⟩ := hr.step (L := L) hstable s'
  rw [hstep] at hinert
  obtain ⟨ms, g', s'', hpasses, hmid, hend, hfired⟩ := ((Midway.start g holder p).undisturbed hundisturbed).run hgrown
    (List.nil_append _).symm hstable₁ s' hinert t
  refine ⟨⟨_, g', s'', .step (hstep ▸ hpasses), ?_, fun x hx => ?_⟩, hgrown.positions_ascending,
    fun x hx => hgrown.foremost_single hx, fun tree graph resolve htree hgraph hplan x hx => ?_⟩
  · rw [List.flatMap_cons, hfired, hgrown.flatMap_told]
    rfl
  · have hm := (World.mem_positions.mp hx).1
    rw [hgrown.mem_foremost hx, Notifier.isLive_iff (hend.grown.filed.agrees holder)]
    constructor
    · rintro ⟨q, l, hl⟩
      by_contra hcovered
      have hlt := hgrown.filed.older holder p _ hm
      -- what is left under the old id is the old entry
      rcases hmid.old hl with hold | hnew
      · obtain ⟨-, -, rfl⟩ := hgrown.filed.entry hold hm
        exact absurd hlt (not_lt.mpr (hmid.deaf (Bool.not_eq_false _ ▸ hcovered) hl))
      · exact absurd hlt (not_lt.mpr hnew)
    · exact fun hfree => ⟨p, _, hmid.listening hm hfree⟩
  · exact hgrown.batch_ids hstable.rooted htree hgraph hplan hx

/-! ### A circle -/

/-- The graph of `next.next`. -/
def nextGraph : Graph :=
  ⟨.node (.field "next") [] (.node (.field "next") [0] .nil .nil) .nil⟩

/-- A tree that watches `next.next`, attached to an object that is its own `next`. -/
def circling : List (Machine Unit Unit) × Machine Unit Unit :=
  idle.trail 16 [] (machine {} ([.newObject "node" [] none [], .write 0 "next" (.object 0),
    .newTree (nextGraph.compile fun a => some (a, .code ())), .attach 0 0].map .request) ())

theorem circling_run : Run idle circling.1 (machine circling.2.world [] ()) :=
  ((Run.start ()).ask _ ()).trail 16

theorem circling_hooks : ∀ n ∈ circling.1, n.hooks = false := by
  have hall : circling.1.all (fun n => !n.hooks) = true := by decide +kernel
  intro n hn
  simpa using List.all_eq_true.mp hall n hn

/-- Code is called or returns. -/
def Task.isPlain : Task Unit → Bool
  | .request (.call _ _) => true
  | .perform (.code _) _ => true
  | .release (.value _) => true
  | .release (.watcher _) => true
  | _ => false

/-- Code that does nothing is done in no time. -/
theorem idles_plain (g : World Unit) (rest : List (Task Unit)) {t : Task Unit} (ht : t.isPlain = true) :
    Idles idle (machine g (t :: rest) ()) (machine g rest ()) := by
  have hone : ∀ {t : Task Unit}, t.isIdle = true → (machine g (t :: rest) ()).hooks = false →
      idle.step (machine g (t :: rest) ()) = machine g rest () →
        Idles idle (machine g (t :: rest) ()) (machine g rest ()) := by
    intro t hidle hhook hstep
    refine .step rfl hidle hhook ?_ ?_
    · rw [hstep]
      exact World.Undisturbed.refl g
    · rw [hstep]
      exact .done _
  cases t with
  | request r =>
    cases r with
    | call k signal => exact hone rfl rfl rfl
    | _ => cases ht
  | perform a context =>
    cases a with
    | code k => exact .step rfl rfl rfl (World.Undisturbed.refl g) (hone rfl rfl rfl)
    | _ => cases ht
  | release held =>
    cases held with
    | tree t => cases ht
    | value v => exact hone rfl rfl rfl
    | watcher w => exact hone rfl rfl rfl
  | _ => cases ht

/-- In `n` steps the machine is at rest, and whenever it is the turn of code until
then, it is called or returns. -/
def plainFor : Nat → Machine Unit Unit → Bool
  | 0, m => m.agenda.isEmpty
  | n + 1, m => (m.agenda.head?.all fun t => !t.isIdle || t.isPlain) && plainFor n (idle.step m)

theorem inert_of_plainFor : ∀ (n : Nat) (m : Machine Unit Unit), plainFor n m = true → idle.Inert m
  | 0, m, h => by
    have hrest : m.agenda = [] := List.isEmpty_iff.mp h
    intro ms n hpasses t rest hn
    have hstays : n = m := by
      clear hn
      induction hpasses with
      | done m => rfl
      | @step m n ms _ ih =>
        have hstep : idle.step m = m := by
          unfold Language.step
          rw [hrest]
        rw [hstep] at ih
        exact ih h hrest
    rw [hstays, hrest] at hn
    cases hn
  | n + 1, m, h => by
    rw [plainFor, Bool.and_eq_true] at h
    intro ms k hpasses t rest hk ht
    cases hpasses with
    | done =>
      obtain ⟨⟨g, agenda⟩, s⟩ := m
      cases hk
      have hplain : t.isPlain = true := by simpa [ht] using h.1
      exact ⟨g, (), idles_plain g rest hplain⟩
    | step hpasses => exact inert_of_plainFor n _ h.2 _ k hpasses t rest hk ht

/-- The object is watched at two positions, one below the other: its tree runs the
action once. -/
theorem circling_fires_once : circling.2.world.positions 0 (.object 0) "next" = [⟨0, 0, 0⟩, ⟨1, 1, 0⟩] ∧
    ∃ ms g' s', idle.Passes (machine circling.2.world [.request (.notify 0 "next")] ()) ms (machine g' [] s') ∧
      ms.flatMap (Machine.fired 0) = [(0, .code ())] := by
  refine ⟨by decide +kernel, ?_⟩
  have hinert : idle.Inert (idle.step (machine circling.2.world [.request (.notify 0 "next")] ())) :=
    inert_of_plainFor 13 _ (by decide +kernel)
  obtain ⟨⟨ms, g', s', hpasses, hfired, -⟩, -⟩ :=
    notification_fires (s := ()) circling_run circling_hooks (Or.inl rfl) () hinert 0
  exact ⟨ms, g', s', hpasses, hfired.trans rfl⟩

end LiveRules
