/-
# Guests leave

What guests have to do comes to an end: a watcher is bound along its plan, which is a
tree, and the members of a collection are watched one after the other. Meanwhile the
machine that has nothing to do with guests waits, and then it is its turn.

Key definitions: `Leaves`, `LeavesBinding`.
Key theorems: `leaves_subscribe`, `leaves_members`, `leaves_all`, `Machine.Hosts.leaves`.
-/
import LiveRules.Proofs.Firing.Idling
import LiveRules.Proofs.Guests.Course

namespace LiveRules

variable {κ σ : Type} {L : Language κ σ} {G : Guests κ}

/-- In the world `g'` the tasks `ts` of guests come to an end, and all they cause, while
what is behind them waits, and so does the machine `m`. -/
def Leaves (hL : L.Opaque G) (m : Machine κ σ) (g' : World κ) (ts : List (Task κ)) : Prop :=
  ∀ (M : Matching) (s' : σ) (rest' : List (Task κ)), m.Hosts hL M (machine g' rest' s') → (∀ t ∈ ts, t.Guest G M) →
    ∃ N ms g'' s'', M ≤ N ∧ L.Passes (machine g' (ts ++ rest') s') ms (machine g'' rest' s'') ∧
      m.Hosts hL N (machine g'' rest' s'') ∧ ∀ k ∈ ms, k.Visited L G

/-! ### One after the other -/

namespace Leaves

variable {hL : L.Opaque G} {m : Machine κ σ} {g' : World κ} {t : Task κ} {ts : List (Task κ)}

theorem nil (g' : World κ) : Leaves hL m g' [] :=
  fun M _ _ h _ => ⟨M, [], _, _, le_rfl, .done _, h, by simp⟩

theorem cons (h : Leaves hL m g' [t]) (hs : ∀ g'', Leaves hL m g'' ts) : Leaves hL m g' (t :: ts) := by
  intro M s' rest' hhosts hguests
  obtain ⟨hguest, hguests⟩ := List.forall_mem_cons.mp hguests
  have hbehind : m.Hosts hL M (machine g' (ts ++ rest') s') :=
    ⟨hhosts.world, (Woven.of_others hguests).append hhosts.agenda, hhosts.state⟩
  obtain ⟨N, ms, g₁, s₁, hMN, hpasses, hhosts₁, hvisited⟩ := h M s' _ hbehind (List.forall_mem_singleton.mpr hguest)
  obtain ⟨K, ms', g₂, s₂, hNK, hpasses', hhosts₂, hvisited'⟩ := hs g₁ N s₁ rest'
    ⟨hhosts₁.world, woven_mono hMN hhosts.agenda, hhosts₁.state⟩ fun t ht => (hguests t ht).mono hMN
  exact ⟨K, ms ++ ms', g₂, s₂, hMN.trans hNK, hpasses.trans hpasses', hhosts₂,
    fun k hk => (List.mem_append.mp hk).elim (hvisited k) (hvisited' k)⟩

variable (htame : m.world.Tame) (hsane : m.world.unhooked.Sane)

include htame hsane

/-- What the task causes comes to an end. -/
theorem step (h : ∀ M s' rest', m.Hosts hL M (machine g' rest' s') → t.Guest G M →
    Leaves hL m (L.carry g' s' t rest').world (L.carry g' s' t rest').tasks) : Leaves hL m g' [t] := by
  intro M s' rest' hhosts hguests
  have hguest := hguests t List.mem_cons_self
  have houtline := hhosts.world.outline
  have hsane' : g'.unhooked.Sane := hhosts.world.unhooked_sane hsane
  have hwhole : m.Hosts hL M (machine g' (t :: rest') s') := ⟨hhosts.world, .other hguest hhosts.agenda, hhosts.state⟩
  obtain ⟨hvisited, -⟩ := hwhole.visited (htame.congr houtline) hsane' hguest hhosts.agenda
  obtain ⟨N, hMN, hworld, htasks, hstate⟩ := Language.Opaque.carry_guest hL hhosts.world
    ((htame.congr houtline).sane hsane') hhosts.state hguest rest'
  obtain ⟨K, ms, g'', s'', hNK, hpasses, hhosts', hms⟩ := h M s' rest' hhosts hguest N _ rest'
    ⟨hworld, woven_mono hMN hhosts.agenda, hstate⟩ htasks.all_other
  exact ⟨K, _ :: ms, g'', s'', hMN.trans hNK, .step hpasses, hhosts', List.forall_mem_cons.mpr ⟨hvisited, hms⟩⟩

/-- A task that only concerns the world. -/
theorem pure {r : World κ × List (Task κ)}
    (hcarry : ∀ s' rest', L.carry g' s' t rest' = { world := r.1, state := s', tasks := r.2 })
    (h : g'.Sane → Leaves hL m r.1 r.2) : Leaves hL m g' [t] :=
  step htame hsane fun _ s' rest' hhosts _ => by
    simpa only [hcarry] using h ((htame.sane hsane).congr hhosts.world.outline)

/-- A task that causes nothing. -/
theorem last (h : ∀ M s' rest', m.Hosts hL M (machine g' rest' s') → t.Guest G M → (L.carry g' s' t rest').tasks = []) :
    Leaves hL m g' [t] :=
  step htame hsane fun M s' rest' hhosts hguest => by simpa only [h M s' rest' hhosts hguest] using nil _

end Leaves

/-! ### Actions -/

section

variable {hL : L.Opaque G} {m : Machine κ σ} (htame : m.world.Tame) (hsane : m.world.unhooked.Sane)

include htame hsane

theorem leaves_release (g' : World κ) (x : Held) : Leaves hL m g' [.release x] :=
  .last htame hsane fun _ _ _ _ _ => by cases x <;> rfl

theorem leaves_call (g' : World κ) (k : κ) (signal : Signal) : Leaves hL m g' [.request (.call k signal)] := by
  refine .last htame hsane fun M s' rest' hhosts hguest => ?_
  cases hguest with
  | call hk context argument =>
    have hstate : hL.same M.ids.Pairs m.state s' := hhosts.state
    obtain ⟨hnone, -⟩ :=
      hL.quiet { world := g', agenda := .request (.call k (.enter context argument)) :: rest' } context
      argument hk hstate
    simp only [Language.carry, hnone, List.map_nil]

theorem leaves_perform (a : Action κ) (g' : World κ) (context : ObjectId) : Leaves hL m g' [.perform a context] := by
  induction a generalizing g' context with
  | code k => exact .step htame hsane fun _ _ _ _ _ => leaves_call htame hsane _ k _
  | onBase inner ih =>
    exact .step htame hsane fun _ _ _ _ _ => .cons (ih _ _) fun _ => leaves_release htame hsane _ _
  | _ => exact .step htame hsane fun _ _ _ _ hguest => by cases hguest; contradiction

theorem leaves_fire (g' : World κ) (site : Attachment) (batch : Batch κ) : Leaves hL m g' [.fire site batch] := by
  have hall (ts : List (Task κ)) (hts : ∀ t ∈ ts, (∃ a context, t = .perform a context) ∨ ∃ x, t = .release x)
      (g' : World κ) : Leaves hL m g' ts := by
    induction ts generalizing g' with
    | nil => exact .nil g'
    | cons t ts ih =>
      obtain ⟨ht, hts⟩ := List.forall_mem_cons.mp hts
      refine .cons ?_ (ih hts)
      rcases ht with ⟨a, context, rfl⟩ | ⟨x, rfl⟩
      · exact leaves_perform htame hsane a g' context
      · exact leaves_release htame hsane g' x
  refine .step htame hsane fun _ s' rest' _ _ => hall _ (fun t ht => ?_) _
  simp only [Language.carry] at ht
  split at ht
  · rcases List.mem_append.mp ht with ht | ht
    · obtain ⟨e, -, rfl⟩ := List.mem_map.mp ht
      exact Or.inl ⟨_, _, rfl⟩
    · exact Or.inr ⟨_, List.mem_singleton.mp ht⟩
  · cases ht

/-! ### Binding -/

/-- Where no hook is due, a subscription is handed from base to base until it is made. -/
theorem leaves_subscribe {b : Binding κ}
    (h : ∀ g' id, Leaves hL m (World.bindChild g' b id).1 (World.bindChild g' b id).2)
    (g' : World κ) (s : Subject) (p : String) (l : Listener κ) :
    Leaves hL m g' [.register s p l (.binding b)] ∧ Leaves hL m g' [.subscribe s p l (.binding b)] := by
  have hhere (s : Subject) : Leaves hL m ((g'.enterListener s p l).answer g'.nextSubscription (.binding b)).1
      ((g'.enterListener s p l).answer g'.nextSubscription (.binding b)).2 := h _ _
  cases s with
  | command c =>
    have hregister : Leaves hL m g' [.register (.command c) p l (.binding b)] :=
      .pure htame hsane (r := g'.register (.command c) p l (.binding b)) (fun _ _ => rfl) fun _ => hhere _
    exact ⟨hregister, .pure htame hsane (r := (g', [.register (.command c) p l (.binding b)])) (fun _ _ => rfl) fun _ =>
      hregister⟩
  | object o =>
    induction o using Nat.strong_induction_on with
    | _ o ih =>
      have hregister : Leaves hL m g' [.register (.object o) p l (.binding b)] := by
        refine .pure htame hsane (r := g'.register (.object o) p l (.binding b)) (fun _ _ => rfl) fun hg' => ?_
        unfold World.register
        simp only
        cases hbase : g'.baseOf o with
        | none => exact hhere _
        | some c =>
          simp only
          split
          · exact hhere _
          · exact (ih c (hg'.older o c hbase)).2
      refine ⟨hregister, .pure htame hsane (r := g'.subscribe (.object o) p l (.binding b))
        (fun _ _ => rfl) fun hg' => ?_⟩
      simp only [World.subscribe, hg'.takeHook]
      exact hregister

omit htame hsane in
/-- A watcher that has just been added has nothing to be released from. -/
theorem World.getElem?_unbind_addWatcher (g : World κ) {x : Watcher κ} (hx : x.target = none) :
    ((g.addWatcher x).unbind g.watchers.size).watchers[g.watchers.size]? = some x := by
  have hadded : (g.addWatcher x).watchers[g.watchers.size]? = some x := by rw [World.getElem?_addWatcher, if_pos rfl]
  rw [World.unbind_dormant hadded hx]
  exact hadded

/-- Binding to the properties of `plan` comes to an end. -/
def LeavesBinding (hL : L.Opaque G) (m : Machine κ σ) (plan : WatchPlan κ) : Prop :=
  ∀ (g' : World κ) (b : Binding κ), b.rest = plan → Leaves hL m g' [.bindMembers b]

theorem LeavesBinding.bindObject {plan : WatchPlan κ} (h : LeavesBinding hL m plan) {g' : World κ} {w : WatcherId}
    {site : Attachment} {bound : Option BoundObject}
    (hw : (g'.unbind w).watchers[w]? = some (.object plan site bound)) (v : Value) : Leaves hL m g' [.bind w v] := by
  refine .pure htame hsane (r := g'.bind w v) (fun _ _ => rfl) fun _ => ?_
  simp only [World.bind, hw]
  cases v.subject? with
  | none => exact .nil _
  | some s => exact h _ _ rfl

theorem LeavesBinding.enrol {item : WatchPlan κ} (h : LeavesBinding hL m item) (pending : List ObjectId) :
    ∀ (g' : World κ) (e : Enrolment κ), e.item = item → e.pending = pending → Leaves hL m g' [.enrol e] := by
  have hclosed (g' : World κ) (e : Enrolment κ) (hdone : e.item.isNil = true ∨ e.pending = []) :
      Leaves hL m g' [.enrol e] := by
    refine .pure htame hsane (r := g'.enrol e) (fun _ _ => rfl) fun _ => ?_
    rw [World.enrol_closed hdone]
    unfold World.closed
    split
    · exact .nil _
    · split
      · exact leaves_fire htame hsane _ _ _
      · exact .nil _
  induction pending with
  | nil => exact fun g' e _ hpending => hclosed g' e (Or.inr hpending)
  | cons o os ih =>
    intro g' e hitem hpending
    cases hnil : e.item.isNil with
    | true => exact hclosed g' e (Or.inl hnil)
    | false =>
      refine .pure htame hsane (r := g'.enrol e) (fun _ _ => rfl) fun _ => ?_
      simp only [World.enrol, hnil, hpending]
      have hadded := World.getElem?_unbind_addWatcher g' (x := .object e.item e.site none) rfl
      exact .cons (LeavesBinding.bindObject htame hsane (hitem ▸ h) hadded _) fun g'' => ih g'' _ hitem rfl

theorem LeavesBinding.bindCollection {item : WatchPlan κ} (h : LeavesBinding hL m item) {g' : World κ} {w : WatcherId}
    {membership : Batch κ} {site : Attachment} {bound : Option BoundCollection}
    (hw : (g'.unbind w).watchers[w]? = some (.collection item membership site bound)) (v : Value) :
    Leaves hL m g' [.bind w v] := by
  refine .pure htame hsane (r := g'.bind w v) (fun _ _ => rfl) fun _ => ?_
  simp only [World.bind, hw]
  cases v.collection? with
  | none => exact .nil _
  | some c => exact h.enrol htame hsane _ _ _ rfl rfl

/-- **Binding** to properties comes to an end. -/
theorem leaves_members (plan : WatchPlan κ) : LeavesBinding hL m plan := by
  -- a subscription is made, and then the binding goes on with what is left of the plan
  have hnext {g' : World κ} {b : Binding κ} (name : String)
      (hrest : g'.bindMembers b =
        (g', [.subscribe b.subject name (.member b.watcher b.subscriptions.length) (.binding b)]))
      (hchild : ∀ g' id, Leaves hL m (World.bindChild g' b id).1 (World.bindChild g' b id).2) :
      Leaves hL m g' [.bindMembers b] := by
    refine .pure htame hsane (r := g'.bindMembers b) (fun _ _ => rfl) fun _ => ?_
    rw [hrest]
    exact (leaves_subscribe htame hsane hchild _ _ _ _).2
  induction plan with
  | nil =>
    intro g' b hrest
    refine .pure htame hsane (r := g'.bindMembers b) (fun _ _ => rfl) fun _ => ?_
    simp only [World.bindMembers, hrest]
    exact .nil _
  | value name fire next ih =>
    intro g' b hrest
    refine hnext name (by simp only [World.bindMembers, hrest]) fun g' id => ?_
    simp only [World.bindChild, hrest]
    exact ih _ _ rfl
  | object name fire inside next ihInside ih =>
    intro g' b hrest
    refine hnext name (by simp only [World.bindMembers, hrest]) fun g' id => ?_
    simp only [World.bindChild, hrest]
    exact .cons (ihInside.bindObject htame hsane (World.getElem?_unbind_addWatcher g' rfl) _) fun _ => ih _ _ rfl
  | collection name fire membership item next ihItem ih =>
    intro g' b hrest
    refine hnext name (by simp only [World.bindMembers, hrest]) fun g' id => ?_
    simp only [World.bindChild, hrest]
    exact .cons (ihItem.bindCollection htame hsane (World.getElem?_unbind_addWatcher g' rfl) _) fun _ => ih _ _ rfl

theorem leaves_bind (g' : World κ) (w : WatcherId) (v : Value) : Leaves hL m g' [.bind w v] := by
  cases hw : (g'.unbind w).watchers[w]? with
  | none =>
    refine .pure htame hsane (r := g'.bind w v) (fun _ _ => rfl) fun _ => ?_
    simp only [World.bind, hw]
    exact .nil _
  | some x =>
    cases x with
    | object plan site bound => exact (leaves_members htame hsane plan).bindObject htame hsane hw v
    | collection item membership site bound => exact (leaves_members htame hsane item).bindCollection htame hsane hw v

/-! ### All tasks -/

theorem leaves_memberChanged (g g' : World κ) (w : WatcherId) (i : Nat) : Leaves hL m g' (g.memberChanged w i) := by
  unfold World.memberChanged
  split
  · split
    · rename_i plan site b _ _ name batch _
      have hfires (g' : World κ) :
          Leaves hL m g' [.fire site batch, .release (.value b.subject.value), .release (.watcher w)] :=
        .cons (leaves_fire htame hsane g' site batch) fun _ => .cons (leaves_release htame hsane _ _) fun _ =>
          leaves_release htame hsane _ _
      cases b.children[i]?.bind id with
      | none => exact hfires g'
      | some c => exact .cons (leaves_bind htame hsane g' c _) hfires
    · exact .nil _
  · exact .nil _

theorem leaves_attach (g' : World κ) (t : TreeId) (context : ObjectId) :
    Leaves hL m (g'.attach t context).1 (g'.attach t context).2 := by
  unfold World.attach
  simp only
  split
  · refine .cons (leaves_bind htame hsane _ _ _) fun _ => .cons (.last htame hsane fun _ _ _ _ _ => rfl) fun _ => ?_
    exact leaves_release htame hsane _ _
  · exact .nil _

theorem leaves_bindChild (g' : World κ) (b : Binding κ) (id : SubscriptionId) :
    Leaves hL m (g'.bindChild b id).1 (g'.bindChild b id).2 := by
  unfold World.bindChild
  simp only
  split
  · exact .nil _
  · exact leaves_members htame hsane _ _ _ rfl
  all_goals exact .cons (leaves_bind htame hsane _ _ _) fun _ => leaves_members htame hsane _ _ _ rfl

/-- **What a guest has to do** comes to an end. -/
theorem leaves_one (g' : World κ) (t : Task κ) : Leaves hL m g' [t] := by
  have hchild (b : Binding κ) (g' : World κ) (id : SubscriptionId) :
      Leaves hL m (g'.bindChild b id).1 (g'.bindChild b id).2 :=
    leaves_bindChild htame hsane g' b id
  cases t with
  | request r =>
    cases r with
    | call k signal => exact leaves_call htame hsane g' k signal
    | attach t context =>
      refine .pure htame hsane (r := g'.grant [] (.attach t context)) (fun _ _ => rfl) fun _ => ?_
      simp only [World.grant]
      split
      · exact leaves_attach htame hsane g' t context
      · exact .nil _
    | dispose t => exact .last htame hsane fun _ _ _ _ _ => rfl
    | drop t => exact .last htame hsane fun _ _ _ _ _ => rfl
    | _ => exact .last htame hsane fun _ _ _ _ hguest => by cases hguest
  | perform a context => exact leaves_perform htame hsane a g' context
  | fire site batch => exact leaves_fire htame hsane g' site batch
  | deliver s id l =>
    refine .step htame hsane fun M s' rest' _ hguest => ?_
    cases hguest with
    | deliver _ _ hl =>
      cases hl with
      | member hw i =>
        simp only [Language.carry, Scene.deliver]
        split
        · split
          · exact leaves_memberChanged htame hsane _ _ _ _
          · exact .nil _
        · exact .nil _
  | deliverChange c id l change =>
    refine .step htame hsane fun M s' rest' _ hguest => ?_
    cases hguest with
    | deliverChange _ _ hl =>
      cases hl with
      | membership hw =>
        simp only [Language.carry, Scene.deliverChange]
        split
        · split
          · unfold World.membershipChanged
            split
            · refine .cons (LeavesBinding.enrol htame hsane (leaves_members htame hsane _) _ _ _ rfl rfl) fun _ => ?_
              exact leaves_release htame hsane _ _
            · exact .nil _
          · exact .nil _
        · exact .nil _
  | bind w v => exact leaves_bind htame hsane g' w v
  | bindMembers b => exact leaves_members htame hsane _ g' b rfl
  | enrol e => exact LeavesBinding.enrol htame hsane (leaves_members htame hsane _) _ g' e rfl rfl
  | subscribe s p l r =>
    cases r with
    | code k => exact .last htame hsane fun _ _ _ _ hguest => by cases hguest
    | binding b => exact (leaves_subscribe htame hsane (hchild b) g' s p l).2
  | register s p l r =>
    cases r with
    | code k => exact .last htame hsane fun _ _ _ _ hguest => by cases hguest
    | binding b => exact (leaves_subscribe htame hsane (hchild b) g' s p l).1
  | plant t w => exact .last htame hsane fun _ _ _ _ _ => rfl
  | release x => exact leaves_release htame hsane g' x

theorem leaves_all (ts : List (Task κ)) (g' : World κ) : Leaves hL m g' ts := by
  induction ts generalizing g' with
  | nil => exact .nil g'
  | cons t ts ih => exact .cons (leaves_one htame hsane g' t) ih

/-- **Guests leave**: the machine that hosts them comes to a state that corresponds, by
visits alone. -/
theorem Machine.Hosts.leaves {M : Matching} {m' : Machine κ σ} (h : m.Hosts hL M m') :
    ∃ N others n', M ≤ N ∧ L.Passes m' others n' ∧ m.Hosts hL N n' ∧ (∀ k ∈ others, k.Visited L G) ∧
      m.Corresponds G n' := by
  obtain ⟨⟨g', agenda'⟩, s'⟩ := m'
  -- the guests in front, and then what is to be done anyway
  have hfront : ∃ ts rest', agenda' = ts ++ rest' ∧ (∀ t ∈ ts, t.Guest G M) ∧
      Woven (Task.Matched G M) (Task.Guest G M) m.agenda rest' ∧
      Option.Rel (Task.Matched G M) m.agenda.head? rest'.head? := by
    have hagenda : Woven (Task.Matched G M) (Task.Guest G M) m.agenda agenda' := h.agenda
    generalize m.agenda = agenda at hagenda
    cases agenda with
    | nil => exact ⟨agenda', [], (List.append_nil _).symm, hagenda.all_other, .nil, .none⟩
    | cons t rest =>
      obtain ⟨ts, t', rest', rfl, hts, ht, hrest⟩ := hagenda.front
      exact ⟨ts, t' :: rest', rfl, hts, .cons ht hrest, .some ht⟩
  obtain ⟨ts, rest', rfl, hts, hrest, hhead⟩ := hfront
  obtain ⟨N, others, g'', s'', hMN, hpasses, hhosts, hvisited⟩ :=
    leaves_all htame hsane ts g' M s' rest' ⟨h.world, hrest, h.state⟩ hts
  have htame'' : g''.Tame := htame.congr hhosts.world.outline
  refine ⟨N, others, _, hMN, hpasses, hhosts, hvisited, hhosts.corresponds htame'' ?_⟩
  exact optionRel_mono (fun _ _ => Task.Matched.mono hMN) hhead

end

end LiveRules
