/-
# Registering a command: all or nothing

A command binding stands for three rules, which are registered one after the other: no
working copy is kept aside for the three of them, and what the first has changed would stay
if the second failed. But only the first has paths, so only the first can be refused, and
only the first may override, so the rules that follow, under the same key, leave it alone.
The three are registered or nothing is.

Key definitions: `CommandRules.register`.
Key theorems: `pathsOf_eq_ok`, `pathsOf_eq_error`, `CommandRules.register_eq`,
`Roster.addAll_rules`, `command_all_or_nothing`.
-/
import LiveRules.Proofs.Registration

namespace LiveRules

/-! ### The paths of several sources -/

/-- `e` is the error of the first source that has one. -/
def FirstFault (sources : List PathSource) (e : Error) : Prop :=
  ∃ done d rest, sources = done ++ d :: rest ∧ (∀ x ∈ done, ∃ ps, x.resolve = .ok ps) ∧ d.resolve = .error e

/-- No source has an error, and `paths` are those of the first, then of the second, and so on. -/
def Gathered (sources : List PathSource) (paths : List Path) : Prop :=
  ∃ parts : List (List Path), sources.map PathSource.resolve = parts.map .ok ∧ paths = parts.flatten

section

variable {sources : List PathSource} {paths before : List Path} {e : Error}

theorem foldl_addPaths_error (e : Error) (sources : List PathSource) :
    sources.foldl addPaths (.error e) = .error e := by
  induction sources with
  | nil => rfl
  | cons d sources ih => exact ih

theorem foldl_addPaths_eq_ok : sources.foldl addPaths (.ok before) = .ok paths ↔
    ∃ parts : List (List Path), sources.map PathSource.resolve = parts.map .ok ∧ paths = before ++ parts.flatten := by
  induction sources generalizing before with
  | nil =>
    constructor
    · intro h
      cases h
      exact ⟨[], rfl, (List.append_nil _).symm⟩
    · rintro ⟨parts, hparts, rfl⟩
      obtain rfl : parts = [] := by simpa using hparts.symm
      simp
  | cons d sources ih =>
    rw [List.foldl_cons, List.map_cons]
    cases hd : d.resolve with
    | error e =>
      have hstep : addPaths (.ok before) d = .error e := by simp [addPaths, hd, bind, Except.bind]
      rw [hstep, foldl_addPaths_error]
      constructor
      · intro h
        cases h
      · rintro ⟨parts, hparts, -⟩
        cases parts <;> simp at hparts
    | ok ps =>
      have hstep : addPaths (.ok before) d = .ok (before ++ ps) := by
        simp [addPaths, hd, bind, Except.bind, pure, Except.pure]
      rw [hstep, ih]
      constructor
      · rintro ⟨parts, hparts, rfl⟩
        exact ⟨ps :: parts, by simp [hparts], by simp⟩
      · rintro ⟨parts, hparts, rfl⟩
        cases parts with
        | nil => simp at hparts
        | cons qs parts =>
          simp only [List.map_cons, List.cons.injEq, Except.ok.injEq] at hparts
          obtain ⟨rfl, hparts⟩ := hparts
          exact ⟨parts, hparts, by simp⟩

theorem pathsOf_eq_ok : pathsOf sources = .ok paths ↔ Gathered sources paths := by
  rw [pathsOf, foldl_addPaths_eq_ok]
  simp [Gathered]

theorem foldl_addPaths_eq_error : sources.foldl addPaths (.ok before) = .error e ↔ FirstFault sources e := by
  induction sources generalizing before with
  | nil =>
    constructor
    · intro h
      cases h
    · rintro ⟨done, d, rest, h, -⟩
      simp at h
  | cons x sources ih =>
    rw [List.foldl_cons]
    cases hx : x.resolve with
    | error e' =>
      have hstep : addPaths (.ok before) x = .error e' := by simp [addPaths, hx, bind, Except.bind]
      rw [hstep, foldl_addPaths_error]
      constructor
      · intro h
        cases h
        exact ⟨[], x, sources, rfl, by simp, hx⟩
      · rintro ⟨done, d, rest, h, hdone, hd⟩
        cases done with
        | nil =>
          cases h
          exact hx.symm.trans hd
        | cons y done =>
          cases h
          obtain ⟨ps, hps⟩ := hdone x List.mem_cons_self
          cases hx.symm.trans hps
    | ok ps =>
      have hstep : addPaths (.ok before) x = .ok (before ++ ps) := by
        simp [addPaths, hx, bind, Except.bind, pure, Except.pure]
      rw [hstep, ih]
      constructor
      · rintro ⟨done, d, rest, rfl, hdone, hd⟩
        refine ⟨x :: done, d, rest, rfl, fun y hy => ?_, hd⟩
        rcases List.mem_cons.mp hy with rfl | hy
        · exact ⟨ps, hx⟩
        · exact hdone y hy
      · rintro ⟨done, d, rest, h, hdone, hd⟩
        cases done with
        | nil =>
          cases h
          cases hx.symm.trans hd
        | cons y done =>
          cases h
          exact ⟨done, d, rest, rfl, fun z hz => hdone z (List.mem_cons_of_mem _ hz), hd⟩

theorem pathsOf_eq_error : pathsOf sources = .error e ↔ FirstFault sources e :=
  foldl_addPaths_eq_error

end

/-! ### Three registrations -/

variable {κ : Type}

/-- A rule without paths that may not override is registered. -/
theorem Binder.add_pathless (b : Binder κ) (rule : Rule (Action κ)) (htriggers : rule.triggers = .ok [])
    (hkeeps : rule.canOverride = false) : ∃ b', b.add rule = .ok (b.registry.nextId, b') ∧ b'.graph = b.graph := by
  have hold : b.registry.superseded rule = [] := by
    unfold Registry.superseded
    cases rule.key <;> simp [hkeeps]
  refine ⟨{ b with registry := Registry.enterAction (Registry.enterKey
    { b.registry with nextId := b.registry.nextId + 1 } rule [] b.registry.nextId) rule b.registry.nextId }, ?_, rfl⟩
  unfold Binder.add Registry.add
  rw [htriggers, hold]
  rfl

theorem Binder.register_rule (b : Binder κ) (rule : Rule (Action κ)) :
    (Registry.register rule).outcome (b.registry, b.graph) =
      match b.add rule with
      | .ok (a, b') => (.ok a, b'.registry, b'.graph)
      | .error e => (.error e, b.registry, b.graph) := by
  rw [Registry.register_eq, Binder.add]
  cases b.registry.add b.graph rule <;> rfl

namespace CommandRules

variable (c : CommandRules κ)

/-- Registers the three rules in place, one after the other. -/
def register : Registry.InPlace (Action κ) Unit := do
  let _ ← Registry.register c.refreshRule
  let _ ← Registry.register c.createRule
  let _ ← Registry.register c.settleRule

/-- Once the first rule is registered, so are the others. -/
theorem addAll_rules (b : Binder κ) :
    (∀ e, b.add c.refreshRule = .error e → b.addAll c.rules = .error e) ∧
      ∀ r, b.add c.refreshRule = .ok r → ∃ b₁ b₂, r.2.add c.createRule = .ok (r.2.registry.nextId, b₁) ∧
        b₁.add c.settleRule = .ok (b₁.registry.nextId, b₂) ∧ b₁.graph = r.2.graph ∧ b₂.graph = r.2.graph ∧
          b.addAll c.rules = .ok b₂ := by
  refine ⟨fun e he => ?_, fun r hr => ?_⟩
  · simp [Binder.addAll, rules, he, bind, Except.bind, Except.map]
  · obtain ⟨b₁, hcreate, hsame⟩ := r.2.add_pathless c.createRule rfl rfl
    obtain ⟨b₂, hsettle, hsame'⟩ := b₁.add_pathless c.settleRule rfl rfl
    refine ⟨b₁, b₂, hcreate, hsettle, hsame, hsame'.trans hsame, ?_⟩
    simp [Binder.addAll, rules, hr, hcreate, hsettle, bind, Except.bind, Except.map, pure, Except.pure]

/-- **In place** the three registrations do what `addAll` says, and nothing if that fails. -/
theorem register_eq (b : Binder κ) :
    c.register.outcome (b.registry, b.graph) =
      match b.addAll c.rules with
      | .ok b' => (.ok (), b'.registry, b'.graph)
      | .error e => (.error e, b.registry, b.graph) := by
  obtain ⟨hrefused, hadded⟩ := c.addAll_rules b
  unfold register
  rw [Registry.InPlace.outcome_bind, b.register_rule]
  cases hr : b.add c.refreshRule with
  | error e => rw [hrefused e hr]
  | ok r =>
    obtain ⟨b₁, b₂, hcreate, hsettle, -, -, hall⟩ := hadded r hr
    rw [hall]
    simp only
    rw [Registry.InPlace.outcome_bind, Binder.register_rule, hcreate]
    simp only
    rw [Registry.InPlace.outcome_bind, Binder.register_rule, hsettle]
    rfl

end CommandRules

/-- The roster with the three rules of a command. -/
theorem Roster.addAll_rules (L : Roster (Action κ)) (c : CommandRules κ) :
    L.addAll c.rules =
      { live := (L.live.filter fun e => !c.refreshRule.replaces e.rule) ++
          [⟨L.fresh, c.refreshRule⟩, ⟨L.fresh + 1, c.createRule⟩, ⟨L.fresh + 2, c.settleRule⟩]
        issued := (L.fresh + 2) :: (L.fresh + 1) :: L.fresh :: L.issued } := by
  have hcreate : ∀ e : Entry (Action κ), c.createRule.replaces e.rule = false := fun e => rfl
  have hsettle : ∀ e : Entry (Action κ), c.settleRule.replaces e.rule = false := fun e => rfl
  have hall : L.addAll c.rules = ((L.add c.refreshRule).add c.createRule).add c.settleRule := rfl
  rw [hall]
  unfold Roster.add
  simp [hcreate, hsettle, Roster.fresh]

section

variable {b : Binder κ} {L : Roster (Action κ)} (c : CommandRules κ)

/-- All three rules are under the command's key, unless that is empty. -/
theorem CommandRules.key_eq {rule : Rule (Action κ)} (hrule : rule ∈ c.rules) (k : String) :
    rule.key = some k ↔ k = c.key.getD c.target ∧ c.key.getD c.target ≠ "" := by
  have hkey : rule.key = if c.key.getD c.target = "" then none else some (c.key.getD c.target) := by
    simp only [CommandRules.rules, List.mem_cons, List.not_mem_nil, or_false] at hrule
    rcases hrule with rfl | rfl | rfl <;> rfl
  rw [hkey]
  by_cases h : c.key.getD c.target = "" <;> simp [h, eq_comm]

/-- No rule is under the empty key. -/
theorem Kept.keyedIds_empty (h : Kept b L) : b.registry.keyedIds "" = [] := by
  rw [h.keyedIds]
  simpa [Roster.idsUnder, Roster.idsOf] using h.named

/-- What the rules of a command replace. -/
theorem Kept.command_replaces (h : Kept b L) :
    (L.idsOf fun r => c.refreshRule.replaces r) =
      if c.canOverride then b.registry.keyedIds (c.key.getD c.target) else [] := by
  rw [← h.superseded]
  have hkey : c.refreshRule.key = if c.key.getD c.target = "" then none else some (c.key.getD c.target) := rfl
  unfold Registry.superseded
  rw [hkey]
  by_cases hempty : c.key.getD c.target = ""
  · simp [hempty, h.keyedIds_empty]
  · simp only [if_neg hempty]
    rfl

/-- The ids of a kind, once the three rules are registered. -/
theorem Kept.idsOf_addAll_rules (h : Kept b L) (q : Rule (Action κ) → Bool) :
    (L.addAll c.rules).idsOf q = (L.idsOf q).filter (· ∉ L.idsOf fun r => c.refreshRule.replaces r) ++
      ((if q c.refreshRule then [L.fresh] else []) ++ (if q c.createRule then [L.fresh + 1] else []) ++
        if q c.settleRule then [L.fresh + 2] else []) := by
  rw [L.addAll_rules, h.idsOf_filter q L.issued]
  unfold Roster.idsOf
  rw [List.filter_append, List.map_append]
  congr 1
  cases hr : q c.refreshRule <;> cases hc : q c.createRule <;> cases hs : q c.settleRule <;> simp [hr, hc, hs]

end

/-- An operation that changes nothing may as well not have been made. -/
theorem history_skip {ops : List (Operation κ)} {op : Operation κ} (hb : (history ops).1.after op = (history ops).1)
    (hL : (history ops).2.after (history ops).1 op = (history ops).2) (later : List (Operation κ)) :
    history (ops ++ op :: later) = history (ops ++ later) := by
  rw [history_append_cons, hb, hL]
  unfold history
  rw [List.foldl_append]

/-- What a registered command leaves, read off the roster. -/
theorem Kept.command_added {b b' : Binder κ} {L : Roster (Action κ)} (h : Kept b L) (c : CommandRules κ)
    (hall : b.addAll c.rules = .ok b') :
    let key := c.key.getD c.target
    let replaced := if c.canOverride then b.registry.keyedIds key else []
    let r := b.registry.nextId
    ∃ paths, Gathered c.dependencies paths ∧
      b'.registry.nextId = r + 3 ∧
      b'.registry.actions = b.registry.actions.filter (·.1 ∉ replaced) ++
        [(r, .refresh c.binding.takesArgument c.property), (r + 1, .create c.binding c.property),
          (r + 2, .settle c.binding.takesArgument c.property)] ∧
      (∀ k, b'.registry.keyedIds k =
        if k = key ∧ key ≠ "" then (b.registry.keyedIds key).filter (· ∉ replaced) ++ [r, r + 1, r + 2]
        else b.registry.keyedIds k) ∧
      b'.registry.onAttach = b.registry.onAttach.filter (· ∉ replaced) ++ [r + 1] ∧
      b'.registry.onSettle = b.registry.onSettle.filter (· ∉ replaced) ++ [r + 2] ∧
      ∀ p, b'.graph.actionsAt p = (b.graph.actionsAt p).filter (· ∉ replaced) ++ if p ∈ paths then [r] else [] := by
  intro key replaced r
  have hk : Kept b' (L.addAll c.rules) := addAll_kept h c.key_ne hall
  have hrep : (L.idsOf fun r => c.refreshRule.replaces r) = replaced := h.command_replaces c
  have hr : r = L.fresh := h.next
  obtain ⟨paths, hpaths⟩ := hk.accepted ⟨L.fresh, c.refreshRule⟩ (by rw [L.addAll_rules]; simp)
  have hids := h.idsOf_addAll_rules c
  rw [hrep, ← hr] at hids
  refine ⟨paths, pathsOf_eq_ok.mp hpaths, ?_, ?_, fun k => ?_, ?_, ?_, fun p => ?_⟩
  · rw [hk.next, L.addAll_rules, hr]
    rfl
  · rw [hk.actions, L.addAll_rules, List.map_append, ← h.actions_filter, hrep, hr]
    rfl
  · rw [hk.keyedIds, Roster.idsUnder, hids]
    have hkeys : (c.refreshRule.key = some k ↔ _) ∧ (c.createRule.key = some k ↔ _) ∧
        (c.settleRule.key = some k ↔ _) :=
      ⟨c.key_eq (.head _) k, c.key_eq (.tail _ (.head _)) k, c.key_eq (.tail _ (.tail _ (.head _))) k⟩
    simp only [decide_eq_true_eq, hkeys.1, hkeys.2.1, hkeys.2.2]
    split_ifs with hin
    · rw [h.keyedIds, hin.1]
      simp [Roster.idsUnder, key]
    · -- what is replaced is under the command's own key
      have hother : ∀ i ∈ L.idsUnder k, decide (i ∉ replaced) = true := by
        intro i hi
        obtain ⟨e, he, hek, rfl⟩ := Roster.mem_idsOf.mp hi
        rw [← hrep, decide_eq_true_iff, Roster.mem_idsOf_id h.ascending he]
        intro hreplaces
        simp only [Rule.replaces, Bool.and_eq_true, decide_eq_true_eq] at hreplaces hek
        exact hin ((c.key_eq (.head _) k).mp (hreplaces.2.symm.trans hek))
      rw [h.keyedIds, ← Roster.idsUnder, List.filter_eq_self.mpr hother]
      simp
  · rw [hk.onAttach, hids, h.onAttach]
    rfl
  · rw [hk.onSettle, hids, h.onSettle]
    rfl
  · rw [hk.graph, hids, h.graph]
    have hpathless : (c.createRule.watches p = false) ∧ c.settleRule.watches p = false := ⟨rfl, rfl⟩
    have hwatch : c.refreshRule.watches p = paths.contains p := by
      unfold Rule.watches
      rw [hpaths]
    simp [hpathless, hwatch]

/-- **All three or none.** Whatever operations have been made, registering a command
fails exactly if one of its dependencies has an error, the first of which is returned,
or if all dependencies' paths, in order, do not go into the graph that is left without
the rules it replaces; and that is if the first of its three rules is refused. Then
nothing has changed, and no later history tells the difference. Otherwise three rules
have been added with consecutive ids, in place of those under the command's key if it
may override, and after them if not: all three are under that key, unless it is empty;
only the first is found on paths, those of all dependencies; the second runs on attach,
the third when attaching settles. -/
theorem command_all_or_nothing (ops : List (Operation κ)) (c : CommandRules κ) :
    let b := (history ops).1
    let key := c.key.getD c.target
    let replaced := if c.canOverride then b.registry.keyedIds key else []
    let r := b.registry.nextId
    let first := (Registry.register c.refreshRule).outcome (b.registry, b.graph)
    let out := c.register.outcome (b.registry, b.graph)
    (∀ e, out.1 = .error e ↔ FirstFault c.dependencies e ∨
      ∃ paths n, Gathered c.dependencies paths ∧ e = .shapeConflict n ∧
        FirstClash n (b.graph.eraseAll replaced).Uses paths) ∧
    (∀ e, out.1 = .error e ↔ first.1 = .error e) ∧
    (∀ e, out.1 = .error e → out.2 = (b.registry, b.graph) ∧
      ∀ later, history (ops ++ .command c :: later) = history (ops ++ later)) ∧
    (out.1 = .ok () → ∃ paths, Gathered c.dependencies paths ∧
      out.2.1.nextId = r + 3 ∧
      out.2.1.actions = b.registry.actions.filter (·.1 ∉ replaced) ++
        [(r, .refresh c.binding.takesArgument c.property), (r + 1, .create c.binding c.property),
          (r + 2, .settle c.binding.takesArgument c.property)] ∧
      (∀ k, out.2.1.keyedIds k =
        if k = key ∧ key ≠ "" then (b.registry.keyedIds key).filter (· ∉ replaced) ++ [r, r + 1, r + 2]
        else b.registry.keyedIds k) ∧
      out.2.1.onAttach = b.registry.onAttach.filter (· ∉ replaced) ++ [r + 1] ∧
      out.2.1.onSettle = b.registry.onSettle.filter (· ∉ replaced) ++ [r + 2] ∧
      (∀ p, out.2.2.actionsAt p = (b.graph.actionsAt p).filter (· ∉ replaced) ++ if p ∈ paths then [r] else []) ∧
      history (ops ++ [.command c]) =
        ({ registry := out.2.1, graph := out.2.2 }, (history ops).2.addAll c.rules)) := by
  intro b key replaced r first out
  have hk : Kept b (history ops).2 := history_kept ops
  have hrep : ((history ops).2.idsOf fun r => c.refreshRule.replaces r) = replaced := hk.command_replaces c
  have hout : out = c.register.outcome (b.registry, b.graph) := rfl
  have hfirst : ∀ e, first.1 = .error e ↔ b.add c.refreshRule = .error e := fun e => by
    show ((Registry.register c.refreshRule).outcome (b.registry, b.graph)).1 = _ ↔ _
    rw [b.register_rule]
    cases b.add c.refreshRule <;> simp
  obtain ⟨hrefused, hadded⟩ := c.addAll_rules b
  have hsame : ∀ e, out.1 = .error e ↔ b.add c.refreshRule = .error e := by
    intro e
    rw [hout, c.register_eq]
    cases hr : b.add c.refreshRule with
    | error e' => simp [hrefused e' hr]
    | ok r =>
      obtain ⟨b₁, b₂, -, -, -, -, hall⟩ := hadded r hr
      simp [hall]
  refine ⟨fun e => ?_, fun e => (hsame e).trans (hfirst e).symm, fun e he => ?_, fun hok => ?_⟩
  · have htriggers : c.refreshRule.triggers = pathsOf c.dependencies := rfl
    have hclash : ∀ paths, (b.graph.eraseAll replaced).insert paths (history ops).2.fresh = .error e ↔
        ∃ n, e = .shapeConflict n ∧ FirstClash n (b.graph.eraseAll replaced).Uses paths := fun _ =>
      ((history_built ops).eraseAll _).insert_eq_error
    rw [hsame, hk.add_eq_error, htriggers, hrep, pathsOf_eq_error]
    simp only [pathsOf_eq_ok, hclash, exists_and_left]
  · have hall := hrefused e ((hsame e).mp he)
    rw [hout, c.register_eq, hall]
    refine ⟨rfl, fun later => ?_⟩
    exact history_skip (by simp [Binder.after, b, hall])
      (by simp [Roster.after, b, hall, Except.isOk, Except.toBool]) later
  · cases hall : b.addAll c.rules with
    | error e =>
      rw [hout, c.register_eq, hall] at hok
      cases hok
    | ok b' =>
      obtain ⟨paths, hpaths, hadded⟩ := hk.command_added c hall
      rw [hout, c.register_eq, hall]
      refine ⟨paths, hpaths, hadded.1, hadded.2.1, hadded.2.2.1, hadded.2.2.2.1, hadded.2.2.2.2.1, hadded.2.2.2.2.2, ?_⟩
      rw [history_append_cons, Binder.after, Roster.after, hall]
      rfl

end LiveRules
