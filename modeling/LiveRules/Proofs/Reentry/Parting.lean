/-
# Releasing watchers while others are being bound

Releasing watchers does not concern those that are being bound, as long as these do not
hang below them. When afterwards all that is being bound belongs still to something that is
bound, nothing of it can have hung there.

Key definitions: `World.Fades`, `World.Sheds`.
Key theorems: `World.nodes_asIf`, `World.asIf_foldl_unbind`, `World.Grown.part`.
-/
import LiveRules.Proofs.Mirror.Census
import LiveRules.Proofs.Reentry.Drafts

namespace LiveRules
namespace World

variable {κ : Type} {g g' : World κ}

/-! ### Watchers that are released -/

/-- Of the watchers of `g` some are bound to nothing any more, and the others are as they were. -/
def Fades (g g' : World κ) : Prop :=
  ∀ y : Nat, g'.watchers[y]? = g.watchers[y]? ∨ g'.watchers[y]? = g.watchers[y]?.map Watcher.dormant

theorem Fades.trans {g'' : World κ} (h : g.Fades g') (h' : g'.Fades g'') : g.Fades g'' := by
  intro y
  rcases h' y with h' | h' <;> rcases h y with h | h <;> rw [h', h]
  · exact Or.inl rfl
  · exact Or.inr rfl
  · exact Or.inr rfl
  · refine Or.inr ?_
    rw [Option.map_map]
    exact congrArg (g.watchers[y]?.map ·) (funext Watcher.dormant_dormant)

theorem Fades.old (h : g.Fades g') {y : Nat} {x : Watcher κ} (hx : g.watchers[y]? = some x) :
    g'.watchers[y]? = some x ∨ g'.watchers[y]? = some x.dormant := by
  rcases h y with h | h <;> rw [h, hx]
  · exact Or.inl rfl
  · exact Or.inr rfl

theorem Fades.new (h : g.Fades g') {y : Nat} {x : Watcher κ} (hx : g'.watchers[y]? = some x) :
    g.watchers[y]? = some x ∨ x.target = none := by
  rcases h y with h | h <;> rw [h] at hx
  · exact Or.inl hx
  · obtain ⟨z, -, rfl⟩ := Option.map_eq_some_iff.mp hx
    exact Or.inr z.target_dormant

theorem Fades.size_eq (h : g.Fades g') : g'.watchers.size = g.watchers.size := by
  have hnone : ∀ y : Nat, g'.watchers[y]? = none ↔ g.watchers[y]? = none := by
    intro y
    rcases h y with h | h <;> rw [h]
    exact Option.map_eq_none_iff
  have hle := (hnone g.watchers.size).mpr (Array.getElem?_eq_none le_rfl)
  have hge := (hnone g'.watchers.size).mp (Array.getElem?_eq_none le_rfl)
  exact le_antisymm (Array.getElem?_eq_none_iff.mp hle) (Array.getElem?_eq_none_iff.mp hge)

theorem fades_unbind (g : World κ) (w : WatcherId) : g.Fades (g.unbind w) := by
  intro y
  unfold unbind
  rw [getElem?_foldl_release]
  split
  · exact Or.inr rfl
  · exact Or.inl rfl

theorem fades_foldl_unbind (ws : List WatcherId) (g : World κ) : g.Fades (ws.foldl unbind g) := by
  induction ws generalizing g with
  | nil => exact fun _ => Or.inl rfl
  | cons w ws ih => exact (fades_unbind g w).trans (ih _)

variable {ds : List Draft}

/-- What is listed afterwards was listed before. -/
theorem Fades.listed_asIf (h : g.Fades g') {v w : WatcherId} (hw : w ∈ (g'.asIf ds).listed v) :
    w ∈ (g.asIf ds).listed v := by
  have hfill : ∀ (d : Option Draft) (x : Watcher κ),
      w ∈ (d.elim x.dormant (·.fill x.dormant)).listed → w ∈ (d.elim x (·.fill x)).listed := by
    intro d x hx
    rcases d with - | (⟨v, b⟩ | ⟨v, b⟩)
    · rw [Option.elim_none, Watcher.listed_dormant] at hx
      cases hx
    all_goals cases x with
      | object => first | exact hx | cases hx
      | collection => first | exact hx | cases hx
  obtain ⟨x, hx, hmem⟩ := exists_of_mem_listed hw
  rw [getElem?_asIf] at hx
  obtain ⟨x', hx', rfl⟩ := Option.map_eq_some_iff.mp hx
  rcases h v with hv | hv
  · rw [hv] at hx'
    rw [listed_of_get (x := (ds.find? fun d => d.watcher = v).elim x' (·.fill x')) (by rw [getElem?_asIf, hx']; rfl)]
    exact hmem
  · rw [hv] at hx'
    obtain ⟨y, hy, rfl⟩ := Option.map_eq_some_iff.mp hx'
    rw [listed_of_get (x := (ds.find? fun d => d.watcher = v).elim y (·.fill y)) (by rw [getElem?_asIf, hy]; rfl)]
    exact hfill _ y hmem

/-- Who is being bound is bound to nothing, so nothing changes about it. -/
theorem Fades.get_draft (h : g.Fades g') (hd : g.Drafted ds) {d : Draft} (hmem : d ∈ ds) :
    g'.watchers[d.watcher]? = g.watchers[d.watcher]? := by
  obtain ⟨x, hx, hnone, -⟩ := hd d hmem
  rcases h d.watcher with h | h
  · exact h
  · rw [h, hx, Option.map_some, (holds_nothing hnone).2.2]

theorem Fades.drafted (h : g.Fades g') (hd : g.Drafted ds) : g'.Drafted ds := by
  intro d hmem
  rw [h.get_draft hd hmem]
  exact hd d hmem

/-- What is bound to nothing stays so. -/
theorem Fades.listed_nil (h : g.Fades g') {w : WatcherId} (hw : ∀ x, g.watchers[w]? = some x → x.listed = []) :
    g'.listed w = [] := by
  unfold listed
  rcases h w with h | h <;> rw [h]
  · cases hx : g.watchers[w]? with
    | none => rfl
    | some x => exact hw x hx
  · cases g.watchers[w]? with
    | none => rfl
    | some x => exact x.listed_dormant

/-- Watchers are released, `ws` and what hung below them: who is listed afterwards by
whoever listed it, and is none of `ws`, is as it was. -/
structure Sheds (ws : List WatcherId) (g g' : World κ) : Prop where
  fades : g.Fades g'
  kept : ∀ {c : Nat}, c ∉ ws → (∀ v, c ∈ g.listed v → c ∈ g'.listed v) → g'.watchers[c]? = g.watchers[c]?

theorem Sheds.refl (g : World κ) : Sheds [] g g :=
  ⟨fun _ => Or.inl rfl, fun _ _ => rfl⟩

theorem Grown.sheds {tops : List WatcherId} (hg : g.Grown tops) {ws : List WatcherId}
    (hws : ∀ w ∈ ws, w < g.watchers.size) : Sheds ws g (ws.foldl World.unbind g) := by
  obtain ⟨vs, hrel, -, hunder, hmem, hclosed⟩ := hg.foldl_unbind ws hws
  refine ⟨fades_foldl_unbind ws g, fun {c} hc hlisted => ?_⟩
  rw [hrel.watchers, if_neg]
  intro hcv
  -- what listed it hung below one of `ws` as well
  obtain ⟨t, ht, hunder⟩ := hunder c hcv
  rcases Relation.ReflTransGen.cases_tail hunder with rfl | ⟨z, htz, hcz⟩
  · exact hc ht
  · have hz : z ∈ vs := Under.mem_of_closed hclosed (hmem t ht) htz
    have hcz' := hlisted z hcz
    unfold listed at hcz'
    rw [hrel.watchers, if_pos hz] at hcz'
    cases hx : g.watchers[z]? <;> simp [hx] at hcz'

/-! ### Whom releasing concerns -/

/-- If nothing that is being bound hangs below a watcher, the same is there without drafts. -/
theorem nodes_asIf (hg : g.Shaped) (hasIf : (g.asIf ds).Shaped) (w : WatcherId)
    (hfree : ∀ d ∈ ds, ¬ (g.asIf ds).Under w d.watcher) : g.nodes w = (g.asIf ds).nodes w := by
  induction hn : g.watchers.size - w using Nat.strong_induction_on generalizing w with
  | _ n ih =>
    have hget : (g.asIf ds).watchers[w]? = g.watchers[w]? :=
      getElem?_asIf_of_not_mem fun d hd heq => hfree d hd (heq ▸ .refl)
    cases hx : g.watchers[w]? with
    | none =>
      rw [hx] at hget
      simp only [nodes, hx, hget]
    | some x =>
      have hlt : w < g.watchers.size := (Array.getElem?_eq_some_iff.mp hx).1
      have hlisted : (g.asIf ds).listed w = g.listed w := by
        unfold listed
        rw [hget]
      rw [hg.nodes_eq hx, hasIf.nodes_eq (hget.trans hx), hlisted]
      refine congrArg (w :: ·) (List.flatMap_congr fun c hc => ?_)
      refine ih (g.watchers.size - c) (hn ▸ Nat.sub_lt_sub_left hlt (hg.older hc)) c
        (fun d hd hunder => hfree d hd ?_) rfl
      exact Under.head.mpr (Or.inr ⟨c, hlisted ▸ hc, hunder⟩)

/-- On the way down to something that is being bound there is a first one such. -/
theorem exists_first_draft {w : WatcherId} {d : Draft} (hd : d ∈ ds) (hunder : (g.asIf ds).Under w d.watcher)
    (hw : ∀ d' ∈ ds, d'.watcher ≠ w) : ∃ v, g.Under w v ∧ ∃ d' ∈ ds, d'.watcher ∈ g.listed v := by
  induction hunder using Relation.ReflTransGen.head_induction_on with
  | refl => exact absurd rfl (hw d hd)
  | head hc hunder ih =>
    rename_i v c
    have hc' : c ∈ g.listed v := by
      unfold listed at hc ⊢
      rwa [getElem?_asIf_of_not_mem hw] at hc
    by_cases hdraft : ∃ d' ∈ ds, d'.watcher = c
    · obtain ⟨d', hd', rfl⟩ := hdraft
      exact ⟨v, .refl, d', hd', hc'⟩
    · push Not at hdraft
      obtain ⟨u, hu, hlast⟩ := ih hdraft
      exact ⟨u, Relation.ReflTransGen.head hc' hu, hlast⟩

section

variable {tops : List WatcherId}

/-- **Unbinding** watchers does not concern what is being bound, if that hangs on something
still when all is done. -/
theorem asIf_foldl_unbind (ws : List WatcherId) : ∀ {g : World κ}, (g.asIf ds).Grown tops → g.Drafted ds →
    (∀ w ∈ ws, w < g.watchers.size ∧ (w ∈ tops ∨ ∀ d ∈ ds, d.watcher ≠ w)) →
    (∀ d ∈ ds, d.watcher ∈ tops ∧ d.watcher ∉ ws ∨ ∃ v, d.watcher ∈ ((ws.foldl unbind g).asIf ds).listed v) →
    (ws.foldl unbind g).asIf ds = ws.foldl unbind (g.asIf ds) := by
  induction ws with
  | nil => exact fun _ _ _ _ => rfl
  | cons w ws ih =>
    intro g hg hd hws hkept
    obtain ⟨hlt, hw⟩ := hws w List.mem_cons_self
    have hfades : (g.unbind w).Fades (ws.foldl unbind (g.unbind w)) := fades_foldl_unbind ws _
    have hfades' : g.Fades (ws.foldl unbind (g.unbind w)) := fades_foldl_unbind (w :: ws) g
    have hshaped := hd.shaped hg.toShaped
    have hnot : ∀ d ∈ ds, d.watcher ≠ w := by
      rcases hw with htop | hnot
      · rintro d hmem rfl
        rcases hkept d hmem with ⟨-, hnot⟩ | ⟨v, hv⟩
        · exact hnot List.mem_cons_self
        · exact hg.topmost htop (hfades'.listed_asIf hv)
      · exact hnot
    have hfree : ∀ d ∈ ds, ¬ (g.asIf ds).Under w d.watcher := by
      intro d hmem hunder
      obtain ⟨v, hwv, d', hmem', hlisted⟩ := exists_first_draft hmem hunder hnot
      rcases hkept d' hmem' with ⟨htop, -⟩ | ⟨u, hu⟩
      · exact hg.topmost htop (hd.listed_asIf hlisted)
      -- the one that listed it has been released
      · obtain rfl : u = v := hg.single (hfades'.listed_asIf hu) (hd.listed_asIf hlisted)
        have hnil : (ws.foldl unbind (g.unbind w)).listed u = [] := by
          refine hfades.listed_nil fun x hx => ?_
          unfold unbind at hx
          rw [getElem?_foldl_release, if_pos ((hshaped.mem_nodes hlt).mpr hwv)] at hx
          obtain ⟨y, -, rfl⟩ := Option.map_eq_some_iff.mp hx
          exact y.listed_dormant
        obtain ⟨x, hx, hmemx⟩ := exists_of_mem_listed hlisted
        have hundrafted := hd.ne hx (Watcher.target_of_mem_listed hmemx)
        unfold listed at hu hnil
        rw [List.foldl_cons, getElem?_asIf_of_not_mem hundrafted, hnil] at hu
        cases hu
    have hasIf : (g.unbind w).asIf ds = (g.asIf ds).unbind w := by
      unfold unbind
      rw [← nodes_asIf hshaped hg.toShaped w hfree]
      refine asIf_foldl_release _ (fun v hv d hmem heq => hfree d hmem ?_) g
      rw [heq, ← hg.mem_nodes (by simpa using hlt), ← nodes_asIf hshaped hg.toShaped w hfree]
      exact hv
    have hsize : (g.unbind w).watchers.size = g.watchers.size := by
      rw [← size_asIf _ ds, hasIf, (hg.unbind (by simpa using hlt)).2.size, size_asIf]
    rw [List.foldl_cons, List.foldl_cons, ← hasIf]
    refine ih ?_ ((fades_unbind g w).drafted hd) (fun v hv => ?_) fun d hmem => ?_
    · rw [hasIf]
      exact (hg.unbind (by simpa using hlt)).1
    · rw [hsize]
      exact hws v (List.mem_cons_of_mem _ hv)
    · exact (hkept d hmem).imp_left fun h => ⟨h.1, fun hm => h.2 (List.mem_cons_of_mem _ hm)⟩

/-- The same, when the tops afterwards are `tops'`: what is left hangs on them. -/
theorem Grown.part {tops' : List WatcherId} {ws : List WatcherId} (hg : (g.asIf ds).Grown tops) (hd : g.Drafted ds)
    (hws : ∀ w ∈ ws, w < g.watchers.size ∧ (w ∈ tops ∨ ∀ d ∈ ds, d.watcher ≠ w)) (hsub : ∀ w ∈ tops', w ∈ tops)
    (hgone : ∀ w ∈ tops, w ∈ tops' ∨ w ∈ ws)
    (hkept : ∀ d ∈ ds, d.watcher ∈ tops' ∧ d.watcher ∉ ws ∨
      ∃ v, d.watcher ∈ ((ws.foldl World.unbind g).asIf ds).listed v) :
    Sheds ws (g.asIf ds) ((ws.foldl World.unbind g).asIf ds) ∧ ((ws.foldl World.unbind g).asIf ds).Grown tops' ∧
      (ws.foldl World.unbind g).nextSubscription = g.nextSubscription ∧
        ∀ {w k}, k ∈ ((ws.foldl World.unbind g).asIf ds).idsOf w → k ∈ (g.asIf ds).idsOf w := by
  have hasIf := asIf_foldl_unbind ws hg hd hws fun d hmem => (hkept d hmem).imp_left fun h => ⟨hsub _ h.1, h.2⟩
  have hsize : ∀ w ∈ ws, w < (g.asIf ds).watchers.size := fun w hw => (hws w hw).1.trans_eq (size_asIf g ds).symm
  obtain ⟨vs, hrel, hgrown, -, hmem, -⟩ := hg.foldl_unbind ws hsize
  have hnext : (ws.foldl World.unbind g).nextSubscription = g.nextSubscription :=
    (congrArg World.nextSubscription hasIf).trans hrel.next
  rw [hasIf]
  refine ⟨hg.sheds hsize, hgrown.retop (fun w hw hbound => ?_) fun w hw v hv => hgrown.topmost (hsub w hw) hv,
    hnext, hrel.ids⟩
  rcases hgone w hw with hw | hw
  · exact hw
  · obtain ⟨x, hx, ht⟩ := hbound
    rw [hrel.watchers, if_pos (hmem w hw)] at hx
    obtain ⟨y, -, rfl⟩ := Option.map_eq_some_iff.mp hx
    rw [Watcher.target_dormant] at ht
    cases ht

end

end World
end LiveRules
