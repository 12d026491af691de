/-
# What does not touch books

Most tasks change nothing about what watchers hold or are about to enter: client code and
actions, hooks that run before a subscription is made, and a subscription that is passed on
to a base. What is being bound meanwhile does not notice.

Key definitions: `Task.Light`.
Key theorems: `World.Underway.aside`, `World.light_grant`, `Language.light_perform`.
-/
import LiveRules.Proofs.Machine.Alterations
import LiveRules.Proofs.Reentry.Underway

namespace LiveRules

variable {κ σ : Type} {L : Language κ σ}

/-! ### Tasks of client code -/

/-- The task binds nothing, and what it speaks of exists. -/
def Task.Light (g : World κ) : Task κ → Prop
  | .request _ => True
  | .perform _ _ => True
  | .fire _ _ => True
  | .deliver _ _ _ => True
  | .deliverChange _ _ _ change => ∀ o ∈ change.added, g.hasObject o = true
  | .subscribe _ _ l (.code _) => ∃ k context, l = .code k context
  | .release _ => True
  | _ => False

namespace Task.Light

variable {g g' : World κ} {t : Task κ} (h : t.Light g)

include h

theorem draft : t.draft? = none := by
  cases t with
  | subscribe s p l r =>
    cases r with
    | code k => rfl
    | binding b => exact h.elim
  | bindMembers | enrol | register => exact h.elim
  | _ => rfl

theorem tops : t.tops = [] := by
  cases t with
  | enrol | plant => exact h.elim
  | _ => rfl

theorem mono (hknown : ∀ v, g.hasValue v = true → g'.hasValue v = true) : t.Light g' := by
  cases t with
  | deliverChange c id l change => exact fun o ho => hknown (.object o) (h o ho)
  | subscribe s p l r =>
    cases r with
    | code k => exact h
    | binding b => exact h.elim
  | _ => exact h

theorem fits (g'' : World κ) : t.Fits g g'' := by
  cases t with
  | deliverChange c id l change => exact h
  | subscribe s p l r =>
    cases r with
    | code k => exact h
    | binding b => exact h.elim
  | bind | bindMembers | enrol | register | plant => exact h.elim
  | _ => trivial

end Task.Light

theorem World.light_round {g : World κ} (s : Subject) (p : String) : ∀ t ∈ g.round s p, t.Light g := by
  intro t ht
  obtain ⟨l, -, rfl⟩ := List.mem_map.mp ht
  trivial

theorem World.light_changeRound {g : World κ} (c : CollectionId) {change : Change}
    (hadded : ∀ o ∈ change.added, g.hasObject o = true) : ∀ t ∈ g.changeRound c change, t.Light g := by
  intro t ht
  rcases List.mem_append.mp ht with ht | ht
  · obtain ⟨l, -, rfl⟩ := List.mem_map.mp ht
    exact hadded
  · obtain ⟨o, -, rfl⟩ := List.mem_map.mp ht
    trivial

/-- **What a request causes** binds nothing, unless it attaches a tree. -/
theorem World.light_grant {g : World κ} {r : Request κ} (hr : r.plants = false) (rest : List (Task κ)) :
    ∀ t ∈ (g.grant rest r).2, t.Light g := by
  have hnone : ∀ t ∈ ([] : List (Task κ)), t.Light g := by simp
  have hedit : ∀ {c}, r.edits = some c → ∀ t ∈ (g.grant rest r).2, t.Light g := by
    intro c hc
    rcases g.grant_edit_cases hc rest with heq | ⟨items, change, -, hchange, heq⟩ <;> rw [heq]
    · exact hnone
    · exact light_changeRound c fun o => Request.hasObject_of_added hchange
  cases r
  case push | insert | remove | clear => exact hedit rfl
  all_goals simp only [World.grant]
  case newObject => split <;> exact hnone
  case newCollection => split <;> exact hnone
  case newCommand => exact hnone
  case nameCommand => split <;> exact hnone
  case forgetObject => exact hnone
  case forgetCollection => exact hnone
  case write o p v =>
    split
    · exact light_round _ _
    · exact hnone
  case notify => exact light_round _ _
  case hook => exact hnone
  case subscribe s p k context receiver =>
    split
    · exact List.forall_mem_singleton.mpr ⟨k, context, rfl⟩
    · exact hnone
  case unsubscribe => exact hnone
  case subscribeChanges =>
    split
    · exact List.forall_mem_singleton.mpr trivial
    · exact hnone
  case unsubscribeChanges => exact hnone
  case report c items change =>
    split
    · split
      · rename_i hexist
        rw [Bool.and_eq_true, List.all_eq_true] at hexist
        exact light_changeRound c fun o ho =>
          hexist.2 o (List.mem_append_left _ (List.mem_append_right _ ho))
      · exact hnone
    · exact hnone
  case perform =>
    split
    · simp [Task.Light]
    · exact hnone
  case newTree => exact hnone
  case attach => cases hr
  case dispose => cases hr
  case drop => cases hr
  case call => exact hnone
  case hold => exact hnone

/-- **What an action causes** binds nothing. -/
theorem Language.light_perform (L : Language κ σ) (scene : Scene κ) (s : σ) (a : Action κ) (context : ObjectId) :
    ∀ t ∈ (L.perform scene s a context).tasks, t.Light scene.world := by
  have hset : ∀ (g : World κ) (p : String) (v : Value), ∀ t ∈ (g.set context p v).2, t.Light scene.world := by
    intro g p v t ht
    unfold World.set at ht
    split at ht
    · cases ht
    · obtain ⟨l, -, rfl⟩ := List.mem_map.mp ht
      trivial
  cases a with
  | code k => exact List.forall_mem_singleton.mpr trivial
  | assign source target =>
    simp only [Language.perform]
    split
    · exact hset _ _ _
    · simp
  | create binding target => exact hset _ _ _
  | refresh takesArgument target =>
    simp only [Language.perform]
    split
    · rename_i c hc
      unfold Language.refresh
      simp only
      split
      · split
        · simp only
          split
          · simp
          · exact World.light_round _ _
        · exact World.light_round _ _
      · simp
    · simp
  | settle takesArgument target =>
    simp only [Language.perform]
    split <;> simp
  | onBase inner => simp [Language.perform, Task.Light]

/-! ### Books are left alone -/

namespace World

variable {g g' : World κ} {t : Task κ} {rest new : List (Task κ)}

/-- **Where no books are touched**, and the drafts and the tops on the agenda are those
that were there, all holds as it did. -/
theorem Underway.aside (hu : g.Underway (t :: rest)) (hcalm : Scene.Undisturbed { world := g, agenda := t :: rest })
    (hwatchers : g'.watchers = g.watchers) (haltered : ∀ ws, (g.dressed ws).Altered (g'.dressed ws))
    (hdrafts : draftsOf new = t.draft?.toList) (htops : new.flatMap Task.tops = t.tops)
    (hfits : ∀ u ∈ new, u.Fits g' (g'.asIf (draftsOf (t :: rest)))) : g'.Underway (new ++ rest) := by
  have hsame : draftsOf (new ++ rest) = draftsOf (t :: rest) := by
    rw [draftsOf_append, hdrafts]
    unfold draftsOf
    cases ht : t.draft? with
    | none => rw [List.filterMap_cons_none ht, Option.toList_none, List.nil_append]
    | some d => rw [List.filterMap_cons_some ht, Option.toList_some, List.singleton_append]
  have hasIf : (g.asIf (draftsOf (t :: rest))).Altered (g'.asIf (draftsOf (t :: rest))) := by
    unfold asIf
    rw [hwatchers]
    exact haltered _
  have hretold := hasIf.retold hu.grown
  have htrees := hasIf.trees
  refine hu.next hcalm ?_ ?_ (hsame ▸ hfits) ?_ ?_ fun v r hr => Or.inl ?_
  · rw [hsame]
    constructor
    case dormant => exact fun {w x} hx => ⟨x, hwatchers ▸ hx, rfl⟩
    case drafts => exact fun d _ => by rw [hwatchers]
    case known =>
      intro v hv
      rw [← hasValue_dressed g' (written (draftsOf (t :: rest)) g'.watchers)]
      exact hretold.known ((hasValue_dressed ..).trans hv)
    case home =>
      intro s p hs
      have hhome := hretold.home p ((hasValue_dressed g (written (draftsOf (t :: rest)) g.watchers) s.value).trans hs)
      rwa [asIf, home_dressed, asIf, home_dressed] at hhome
    case trees => exact htrees.1
    case whole => exact fun hb => Or.inl (hwatchers ▸ hb)
    case bound => exact fun {w item membership site b'} _ hb => ⟨b', hwatchers ▸ hb, rfl⟩
    case ids =>
      intro w k hk
      unfold idsOf at hk ⊢
      rw [hretold.watchers] at hk
      exact Or.inl hk
  · rw [hsame, topsOf, List.flatMap_append, htops]
    have hroots : g'.roots = g.roots := hretold.trees
    rw [hroots]
    exact hretold.grown hu.grown
  · rw [htops]
    exact (List.nodup_append.mp hu.distinct).1
  · exact fun w hw => Or.inl (htops ▸ hw)
  · exact (htrees.2 v).symm.trans hr

/-- The same, where light tasks take the place of one that binds nothing. -/
theorem Underway.light (hu : g.Underway (t :: rest)) (hcalm : Scene.Undisturbed { world := g, agenda := t :: rest })
    (hwatchers : g'.watchers = g.watchers) (haltered : ∀ ws, (g.dressed ws).Altered (g'.dressed ws))
    (hdraft : t.draft? = none) (htops : t.tops = []) (hnew : ∀ u ∈ new, u.Light g) : g'.Underway (new ++ rest) := by
  have hknown : ∀ v, g.hasValue v = true → g'.hasValue v = true := by
    intro v hv
    have hretold := ((haltered (written (draftsOf (t :: rest)) g.watchers)).retold hu.grown).known (v := v)
    rw [hasValue_dressed, hasValue_dressed] at hretold
    exact hretold hv
  refine hu.aside hcalm hwatchers haltered ?_ ?_ fun u hmem => ((hnew u hmem).mono hknown).fits _
  · rw [hdraft]
    exact List.filterMap_eq_nil_iff.mpr fun u hmem => (hnew u hmem).draft
  · rw [htops]
    exact List.flatMap_eq_nil_iff.mpr fun u hmem => (hnew u hmem).tops

end World

end LiveRules
