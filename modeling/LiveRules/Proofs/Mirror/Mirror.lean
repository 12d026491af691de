/-
# Trees mirror the objects

At rest a tree holds the subscriptions that the words of its paths let expect from
the objects there are, and no others, however the objects and collections came to be
what they are.

Key definitions: `World.Mirrors`, `World.keptBelow`.
Key theorems: `World.Shaped.keepsAsked`, `subscriptions_mirror`.
-/
import LiveRules.Proofs.Machine.Membership
import LiveRules.Proofs.Machine.Sequence
import LiveRules.Proofs.Mirror.Census

namespace LiveRules

variable {κ σ : Type} {L : Language κ σ}

/-! ### Positions -/

/-- Where no collection is free, each keeps account of its members. -/
theorem World.listOf_itemsOf {g : World κ} (hfree : ∀ x ∈ g.collections, x.free = false) {c : CollectionId}
    (hc : g.hasValue (.collection c) = true) : g.listOf c = some (g.itemsOf c) := by
  simp only [World.hasValue, decide_eq_true_eq] at hc
  unfold World.listOf World.itemsOf
  rw [Array.getElem?_eq_getElem hc]
  simp [hfree _ (Array.getElem_mem hc)]

/-- The members that are watched are those there are, if no news of them is pending. -/
theorem Stable.watched_perm {g : World κ} {agenda : List (Task κ)} (h : Stable g agenda fun _ => []) {w : Nat}
    {item batch site b} (hw : g.watchers[w]? = some (.collection item batch site (some b))) (hitem : item.isNil = false)
    (hfree : ∀ x ∈ g.collections, x.free = false) (hjoining : joining agenda b.subscription = [])
    (hleaving : leaving agenda b.subscription = []) : (b.items.map (·.1)).Perm (g.itemsOf b.collection) := by
  rw [List.perm_iff_count]
  intro o
  have hbal := h.balanced hw hitem _ (World.listOf_itemsOf hfree (h.grown.known hw rfl)) o
  simpa [hjoining, hleaving] using hbal

/-- All of the plan of `w` is subscribed to, what is right below it follows the values that
are there, and the members that are watched are those there are. -/
structure World.Mirrors (g : World κ) (w : WatcherId) : Prop extends World.Complete g w where
  fresh : ∀ {plan site b}, g.watchers[w]? = some (.object plan site (some b)) → ∀ i, g.FreshAt plan b i
  members : ∀ {item batch site b}, g.watchers[w]? = some (.collection item batch site (some b)) → item.isNil = false →
    (b.items.map (·.1)).Perm (g.itemsOf b.collection)

theorem World.Settled.mirrors {g : World κ} {w : WatcherId} (h : g.Settled w) : g.Mirrors w where
  toComplete := h.toComplete
  fresh := h.fresh
  members hw hitem := by
    rw [h.gathered hw, wanted, hitem]
    exact .refl _

/-- At rest every watcher mirrors what is there. -/
theorem Stable.mirrors {g : World κ} (h : Stable g [] fun _ => []) (hfree : ∀ x ∈ g.collections, x.free = false)
    (w : WatcherId) : g.Mirrors w where
  toComplete := h.complete w
  fresh {plan site b} hw i c name batch hc hentry := by
    have hi : i < b.subscriptions.length := by
      rw [← h.grown.paired hw]
      exact (List.getElem?_eq_some_iff.mp hc).1
    refine h.fresh hw i _ (List.getElem?_eq_getElem hi) ?_ c name batch hc hentry
    rintro ⟨s, l, hm⟩
    cases hm
  members hw hitem := h.watched_perm hw hitem hfree rfl rfl

/-! ### What is kept is what is asked for -/

/-- What is kept at and below a watcher. -/
def World.keptBelow (g : World κ) (w : WatcherId) : List Subscription :=
  ((g.nodes w).flatMap g.keptBy).map (·.2)

theorem World.Shaped.keptBelow_eq {g : World κ} (hg : g.Shaped) {w : Nat} {x : Watcher κ}
    (hw : g.watchers[w]? = some x) :
    g.keptBelow w = (g.keptBy w).map (·.2) ++ (g.listed w).flatMap g.keptBelow := by
  unfold keptBelow
  rw [hg.nodes_eq hw, List.flatMap_cons, List.map_append, List.flatMap_assoc, List.map_flatMap]

theorem World.keptBelow_dormant {g : World κ} (hg : g.Shaped) {w : Nat} {x : Watcher κ} (hw : g.watchers[w]? = some x)
    (ht : x.target = none) : g.keptBelow w = [] := by
  have hkept : g.keptBy w = [] := by
    cases x with
    | object plan site bound =>
      cases bound with
      | none => simp only [keptBy, hw]
      | some b => cases ht
    | collection item batch site bound =>
      cases bound with
      | none => simp only [keptBy, hw]
      | some b => cases ht
  have hlisted : g.listed w = [] := by
    refine List.eq_nil_iff_forall_not_mem.mpr fun c hc => ?_
    rw [listed_of_get hw] at hc
    have := Watcher.target_of_mem_listed hc
    rw [ht] at this
    cases this
  rw [hg.keptBelow_eq hw, hkept, hlisted]
  rfl

theorem Subject.value_injective {s t : Subject} (h : s.value = t.value) : s = t := by
  cases s <;> cases t <;> cases h <;> rfl

theorem Value.subject?_value {v : Value} {s : Subject} (h : v.subject?.map Subject.value = some s.value) :
    v.subject? = some s := by
  obtain ⟨t, ht, heq⟩ := Option.map_eq_some_iff.mp h
  rw [ht, Subject.value_injective heq]

theorem perm_insert_middle {α : Type} {a b c d e : List α} (hb : b.Perm d) (hac : (a ++ c).Perm e) :
    (a ++ (b ++ c)).Perm (d ++ e) := by
  have hmove : (a ++ (b ++ c)).Perm (b ++ (a ++ c)) := by
    rw [← List.append_assoc, ← List.append_assoc]
    exact List.perm_append_comm.append_right c
  exact hmove.trans (hb.append hac)

/-- All that hangs below `w`, and `w` itself, mirrors what is there. -/
def World.MirrorsBelow (g : World κ) (w : WatcherId) : Prop :=
  ∀ x, g.Under w x → g.Mirrors x

theorem World.MirrorsBelow.listed {g : World κ} {w c : WatcherId} (h : g.MirrorsBelow w) (hc : c ∈ g.listed w) :
    g.MirrorsBelow c :=
  fun x hx => h x (Under.head.mpr (Or.inr ⟨c, hc, hx⟩))

/-- That what is kept below a watcher for `plan` is what the plan asks for. -/
def KeepsAsked (g : World κ) (plan : WatchPlan κ) : Prop :=
  ∀ {s : Subject} {site : Attachment} {ids : List SubscriptionId} {cs : List (Option WatcherId)},
    ids.length = plan.length → cs.length = plan.length → (∀ i c, cs[i]? = some c → g.Posted c (plan.post? site i)) →
    (∀ (i : Nat) c name batch, cs[i]? = some (some c) → plan.place? i = some (name, batch) →
      g.Sees c (g.memberValue s name)) → (∀ c ∈ cs.reduceOption, g.MirrorsBelow c) →
    ((g.madeThrough s plan ids).map (·.2) ++ cs.reduceOption.flatMap g.keptBelow).Perm (g.asked plan s)

section

variable {g : World κ} (hg : g.Shaped)

include hg

theorem KeepsAsked.object {plan : WatchPlan κ} (hplan : KeepsAsked g plan) {w : Nat} {site b}
    (hw : g.watchers[w]? = some (.object plan site (some b))) (hbelow : g.MirrorsBelow w) :
    (g.keptBelow w).Perm (g.asked plan b.subject) := by
  have hmirrors := hbelow w .refl
  have hlisted := World.listed_of_get hw
  rw [hg.keptBelow_eq hw, hlisted]
  simp only [World.keptBy, hw]
  exact hplan (hmirrors.plan hw) ((hg.paired hw).trans (hmirrors.plan hw)) (hg.posts hw)
    (fun i c name batch hc hentry => hmirrors.fresh hw i c name batch hc hentry)
    fun c hc => hbelow.listed (hlisted ▸ hc)

/-- A watcher that sees a value keeps what is asked for at its subject. -/
theorem KeepsAsked.seen {plan : WatchPlan κ} (hplan : KeepsAsked g plan) {w : Nat} {site bound} {v : Value}
    (hw : g.watchers[w]? = some (.object plan site bound)) (hsees : g.Sees w v) (hbelow : g.MirrorsBelow w) :
    (g.keptBelow w).Perm (v.subject?.elim [] (g.asked plan)) := by
  obtain ⟨x, hx, ht⟩ := hsees
  rw [hw] at hx
  cases hx
  cases bound with
  | none =>
    have hnone : v.subject? = none := by
      cases hs : v.subject? with
      | none => rfl
      | some s => simp [Watcher.target, Watcher.seen, hs] at ht
    rw [World.keptBelow_dormant hg hw rfl, hnone]
    exact .refl _
  | some b =>
    rw [Value.subject?_value (s := b.subject) ht.symm]
    exact hplan.object hg hw hbelow

theorem KeepsAsked.collection {item : WatchPlan κ} (hitem : KeepsAsked g item) {w : Nat} {batch site bound} {v : Value}
    (hw : g.watchers[w]? = some (.collection item batch site bound)) (hsees : g.Sees w v) (hbelow : g.MirrorsBelow w) :
    (g.keptBelow w).Perm (v.collection?.elim [] fun c =>
      .changes c :: (g.itemsOf c).flatMap fun o => g.asked item (.object o)) := by
  obtain ⟨x, hx, ht⟩ := hsees
  rw [hw] at hx
  cases hx
  cases bound with
  | none =>
    have hnone : v.collection? = none := by
      cases hc : v.collection? with
      | none => rfl
      | some c => simp [Watcher.target, Watcher.seen, hc] at ht
    rw [World.keptBelow_dormant hg hw rfl, hnone]
    exact .refl _
  | some b =>
    have hc : v.collection? = some b.collection := by
      obtain ⟨c, hc, heq⟩ := Option.map_eq_some_iff.mp ht.symm
      cases heq
      exact hc
    have hmirrors := hbelow w .refl
    have hlisted := World.listed_of_get hw
    rw [hg.keptBelow_eq hw, hlisted, hc]
    simp only [World.keptBy, hw, List.map_cons, List.map_nil, List.cons_append, List.nil_append, Option.elim]
    refine .cons _ ?_
    -- each watched member keeps what is asked for there
    have hmembers : ((b.items.map (·.2)).flatMap g.keptBelow).Perm
        ((b.items.map (·.1)).flatMap fun o => g.asked item (.object o)) := by
      rw [List.flatMap_map, List.flatMap_map]
      refine List.Perm.flatMap_left _ fun e he => ?_
      obtain ⟨bound, hy⟩ := hg.member hw he
      obtain ⟨z, hz, htarget⟩ := hmirrors.items hw e he
      rw [hy] at hz
      cases hz
      exact hitem.seen hg (v := .object e.1) hy ⟨_, hy, htarget⟩
        (hbelow.listed (hlisted ▸ List.mem_map_of_mem (f := fun e : ObjectId × WatcherId => e.2) he))
    refine hmembers.trans ?_
    cases hnil : item.isNil with
    | true =>
      cases item with
      | nil =>
        have hnone : ∀ os : List ObjectId, (os.flatMap fun o => g.asked .nil (.object o)) = [] :=
          fun os => List.flatMap_eq_nil_iff.mpr fun o _ => rfl
        rw [hnone, hnone]
      | _ => cases hnil
    | false => exact (hmirrors.members hw hnil).flatMap_right _

/-- **What is kept** below a watcher that mirrors what is there is what its plan asks for. -/
theorem World.Shaped.keepsAsked (plan : WatchPlan κ) : KeepsAsked g plan := by
  induction plan with
  | nil =>
    intro s site ids cs hids hcs hposted hsees hbelow
    rw [List.eq_nil_of_length_eq_zero hcs, List.eq_nil_of_length_eq_zero hids]
    exact .refl _
  | value n f next ih =>
    intro s site ids cs hids hcs hposted hsees hbelow
    cases ids with
    | nil => cases hids
    | cons id ids =>
      cases cs with
      | nil => cases hcs
      | cons c cs =>
        obtain rfl : c = none := (hposted 0 c rfl).eq_none
        rw [List.reduceOption_cons_of_none] at hbelow ⊢
        exact .cons _ (ih (Nat.succ.inj hids) (Nat.succ.inj hcs) (fun i d hd => hposted (i + 1) d hd)
          (fun i d name batch hd hentry => hsees (i + 1) d name batch hd hentry) hbelow)
  | object n f inside next ihInside ih =>
    intro s site ids cs hids hcs hposted hsees hbelow
    cases ids with
    | nil => cases hids
    | cons id ids =>
      cases cs with
      | nil => cases hcs
      | cons c cs =>
        have hnext := ih (s := s) (Nat.succ.inj hids) (Nat.succ.inj hcs) (fun i d hd => hposted (i + 1) d hd)
          fun i d name batch hd hentry => hsees (i + 1) d name batch hd hentry
        obtain ⟨c, bound, rfl, hx⟩ := (hposted 0 c rfl).object
        rw [List.reduceOption_cons_of_some] at hbelow ⊢
        rw [List.flatMap_cons]
        obtain ⟨hfirst, hothers⟩ := List.forall_mem_cons.mp hbelow
        exact .cons _ (perm_insert_middle (ihInside.seen hg hx (hsees 0 c n f rfl rfl) hfirst) (hnext hothers))
  | collection n f m item next ihItem ih =>
    intro s site ids cs hids hcs hposted hsees hbelow
    cases ids with
    | nil => cases hids
    | cons id ids =>
      cases cs with
      | nil => cases hcs
      | cons c cs =>
        have hnext := ih (s := s) (Nat.succ.inj hids) (Nat.succ.inj hcs) (fun i d hd => hposted (i + 1) d hd)
          fun i d name batch hd hentry => hsees (i + 1) d name batch hd hentry
        obtain ⟨c, bound, rfl, hx⟩ := (hposted 0 c rfl).collection
        rw [List.reduceOption_cons_of_some] at hbelow ⊢
        rw [List.flatMap_cons]
        obtain ⟨hfirst, hothers⟩ := List.forall_mem_cons.mp hbelow
        exact .cons _ (perm_insert_middle (ihItem.collection hg hx (hsees 0 c n f rfl rfl) hfirst) (hnext hothers))

end

/-! ### Trees -/

namespace World

/-- The context a tree is attached to. -/
def contextOf (g : World κ) (t : TreeId) : Option ObjectId :=
  (g.treeRoot t).bind fun r => g.watchers[r]?.map (·.site.context)

/-- The subscriptions to be expected of a tree with these paths on a context. -/
def mirror (g : World κ) (paths : List Path) (context : ObjectId) : List Subscription :=
  g.expected ((paths.map (·.word.length)).foldr max 0) (paths.map Path.word) (.object context)

end World

theorem le_foldr_max {n : Nat} {ns : List Nat} (h : n ∈ ns) : n ≤ ns.foldr max 0 := by
  induction ns with
  | nil => cases h
  | cons m ns ih =>
    rcases List.mem_cons.mp h with rfl | h
    · exact le_max_left _ _
    · exact (ih h).trans (le_max_right _ _)

/-- **A tree mirrors the objects**: whatever was written, subscribed to, attached and
disposed of, and whatever joined and left, at rest an attached tree holds exactly the
subscriptions that its paths let expect, and one that is not attached holds none. No
code is hooked on subscriptions, and changes are told of one after the other. -/
theorem subscriptions_mirror {past : List (Machine κ σ)} {g : World κ} {s : σ} (h : Run L past (machine g [] s))
    (hhooks : ∀ n ∈ past, n.hooks = false) (hnest : ∀ n ∈ past, ¬ n.Nests L)
    (hfree : ∀ x ∈ g.collections, x.free = false) (t : TreeId) :
    (g.isAttached t = false → g.subscriptionsOf t = [] ∧ g.subscriptionCount t = 0) ∧
      (g.isAttached t = true → ∃ tree context, g.trees[t]? = some tree ∧ g.contextOf t = some context ∧
        ∀ (graph : Graph) (resolve : ActionId → Option (ActionId × Action κ)) (paths : List Path),
          graph.Built → tree.plan = graph.compile resolve → (∀ p, p ∈ paths ↔ graph.actionsAt p ≠ []) →
            ((g.subscriptionsOf t).map (·.2)).Perm (g.mirror paths context) ∧
              g.subscriptionCount t = (g.mirror paths context).length) := by
  have hstable := h.mirrored hhooks hnest
  have hgrown := hstable.grown
  refine ⟨fun hnot => ?_, fun hattached => ?_⟩
  · refine ⟨hgrown.subscriptionsOf_nil hstable.rooted hnot, ?_⟩
    rw [hgrown.subscriptionCount_eq]
    unfold World.isAttached at hnot
    rw [Option.isSome_eq_false_iff, Option.isNone_iff_eq_none] at hnot
    rw [hnot]
    rfl
  · obtain ⟨r, hroot⟩ := Option.isSome_iff_exists.mp hattached
    obtain ⟨tree, ht, hr⟩ : ∃ tree, g.trees[t]? = some tree ∧ tree.root = some r := Option.bind_eq_some_iff.mp hroot
    obtain ⟨context, b, hw, hb⟩ := hstable.rooted t tree r ht hr
    refine ⟨tree, context, ht, ?_, fun graph resolve paths hbuilt hplan hpaths => ?_⟩
    · unfold World.contextOf
      rw [hroot, Option.bind_some, hw]
      rfl
    · have hkept :=
        KeepsAsked.object hgrown.toShaped (hgrown.keepsAsked tree.plan) hw fun x _ => hstable.mirrors hfree x
      rw [hb, hplan] at hkept
      have hexpected := hkept.trans (hbuilt.asked hpaths g
        (fun p hp => le_foldr_max (List.mem_map_of_mem (f := (·.word.length)) hp)) (.object context))
      have hheld := (hgrown.subscriptionsOf_perm hstable.rooted ht hr).map (·.2)
      refine ⟨hheld.trans hexpected, ?_⟩
      rw [hgrown.subscriptionCount_eq, hroot]
      have hlength := hexpected.length_eq
      rw [World.keptBelow, List.length_map] at hlength
      unfold World.mirror
      simpa using hlength

/-! ### One tree -/

/-- Code that does nothing. -/
def idle : Language Unit Unit where
  run _ _ _ s := (s, [])
  value _ _ _ _ := .null
  test _ _ _ _ s := (true, s)

/-- `list[].name` -/
def namesInList : Path where
  steps := [.collection "list", .property "name"]
  faultless := by decide +kernel

def namesGraph : Graph :=
  ⟨.node (.field "list") [] (.node .member [] (.node (.field "name") [0] .nil .nil) .nil) .nil⟩

theorem namesGraph_insert : Graph.empty.insert [namesInList] 0 = .ok namesGraph := by
  decide +kernel

/-- A tree that watches the names in a list, attached to a context whose list has two
members that are the same item. -/
def watchingNames : List (Machine Unit Unit) × Machine Unit Unit :=
  idle.trail 26 [] (machine {} ([.newObject "item" [] none [], .newCollection "list" [0, 0] false,
    .newObject "context" [("list", .collection 0)] none [],
    .newTree (namesGraph.compile fun a => some (a, .code ())), .attach 0 1].map .request) ())

theorem watchingNames_run : Run idle watchingNames.1 (machine watchingNames.2.world [] ()) :=
  ((Run.start ()).ask _ ()).trail 26

theorem watchingNames_quiet : ∀ n ∈ watchingNames.1, n.hooks = false ∧ ¬ n.Nests idle :=
  Machine.quiet_of_all (by decide +kernel)

theorem namesGraph_paths (p : Path) : p ∈ [namesInList] ↔ namesGraph.actionsAt p ≠ [] := by
  rw [Graph.actionsAt_insert namesGraph_insert (fun q b hb => by simp [Graph.actionsAt_empty] at hb),
    Graph.actionsAt_empty]
  by_cases h : p ∈ [namesInList] <;> simp [h]

/-- The item is a member twice, and so is the subscription to its name. -/
theorem subscriptions_mirror_names :
    ((watchingNames.2.world.subscriptionsOf 0).map (·.2)).Perm
        [.property (.object 1) (some (.object 1)) "list", .changes 0,
          .property (.object 0) (some (.object 0)) "name", .property (.object 0) (some (.object 0)) "name"] ∧
      watchingNames.2.world.subscriptionCount 0 = 4 := by
  obtain ⟨-, hattached⟩ := subscriptions_mirror (s := ()) watchingNames_run (fun n hn => (watchingNames_quiet n hn).1)
    (fun n hn => (watchingNames_quiet n hn).2) (by decide +kernel) 0
  obtain ⟨tree, context, ht, hcontext, hmirror⟩ := hattached rfl
  have hplan : watchingNames.2.world.trees[0]? =
      some { plan := namesGraph.compile fun a => some (a, .code ()), root := some 0, dropped := false } := by rfl
  rw [hplan] at ht
  cases ht
  have hone : watchingNames.2.world.contextOf 0 = some 1 := by rfl
  rw [hone] at hcontext
  cases hcontext
  exact hmirror namesGraph _ [namesInList] (.insert .empty namesGraph_insert) rfl namesGraph_paths

end LiveRules
