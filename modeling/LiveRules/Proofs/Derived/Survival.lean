/-
# Who is alive beside a copy

What survives is the largest set of things each of which is a root or held by another of
the set. So it does not change with roots that survive anyway, and an object and its
base survive with either of them held, if the object does. Twins therefore agree on who
is alive, whichever of the two a tree is attached to.

Key definitions: `World.living`, `HeldAlike`.
Key theorems: `World.living_eq`, `World.Twin.alive`.
-/
import LiveRules.Proofs.Derived.Twin
import LiveRules.Proofs.Firing.Idling

namespace LiveRules

variable {κ : Type}

namespace World

/-! ### The largest supported set -/

section

variable {g : World κ} {roots : List Value}

theorem mem_supported {vs : List Value} {v : Value} :
    v ∈ g.supported roots vs ↔ v ∈ vs ∧ (v ∈ roots ∨ v ∈ vs.flatMap g.valueHolds) := by
  simp only [supported, List.mem_filter, Bool.or_eq_true, List.contains_iff_mem]

theorem survivors_subset (n : Nat) (vs : List Value) : g.survivors roots n vs ⊆ vs := by
  induction n generalizing vs with
  | zero => exact List.Subset.refl vs
  | succ n ih =>
    unfold survivors
    simp only
    split
    · exact List.Subset.refl vs
    · exact List.Subset.trans (ih _) fun v hv => (mem_supported.mp hv).1

/-- What is supported among itself survives. -/
theorem subset_survivors {vs : List Value} (h : ∀ v ∈ vs, v ∈ roots ∨ v ∈ vs.flatMap g.valueHolds) (n : Nat)
    {ws : List Value} (hsub : vs ⊆ ws) : vs ⊆ g.survivors roots n ws := by
  induction n generalizing ws with
  | zero => exact hsub
  | succ n ih =>
    have hkept : vs ⊆ g.supported roots ws := fun v hv =>
      mem_supported.mpr ⟨hsub hv, (h v hv).imp_right fun hheld => by
        obtain ⟨w, hw, hwv⟩ := List.mem_flatMap.mp hheld
        exact List.mem_flatMap.mpr ⟨w, hsub hw, hwv⟩⟩
    unfold survivors
    simp only
    split
    · exact hsub
    · exact ih hkept

/-- What survives long enough is supported among itself. -/
theorem survivors_supported (n : Nat) {vs : List Value} (hn : vs.length ≤ n) :
    ∀ v ∈ g.survivors roots n vs, v ∈ roots ∨ v ∈ (g.survivors roots n vs).flatMap g.valueHolds := by
  induction n generalizing vs with
  | zero =>
    obtain rfl : vs = [] := List.length_eq_zero_iff.mp (Nat.le_zero.mp hn)
    intro v hv
    cases hv
  | succ n ih =>
    have hsublist : (g.supported roots vs).Sublist vs := List.filter_sublist
    unfold survivors
    simp only
    split
    · rename_i hlength
      intro v hv
      rw [← hsublist.eq_of_length hlength] at hv
      exact (mem_supported.mp hv).2
    · rename_i hlength
      have hlt : (g.supported roots vs).length < vs.length := lt_of_le_of_ne hsublist.length_le hlength
      exact ih (Nat.le_of_lt_succ (lt_of_lt_of_le hlt hn))

end

/-- What is left of everything there is. -/
def living (g : World κ) (roots : List Value) : List Value :=
  g.survivors roots g.everything.length g.everything

section

variable {g : World κ} {roots roots' : List Value}

theorem living_supported {v : Value} (hv : v ∈ g.living roots) :
    v ∈ roots ∨ v ∈ (g.living roots).flatMap g.valueHolds :=
  survivors_supported _ le_rfl v hv

theorem subset_living {vs : List Value} (h : ∀ v ∈ vs, v ∈ roots ∨ v ∈ vs.flatMap g.valueHolds)
    (hsub : vs ⊆ g.everything) : vs ⊆ g.living roots :=
  subset_survivors h _ hsub

/-- What is held by something that lives is alive. -/
theorem mem_living_of_held {v : Value} (hv : v ∈ g.everything) (h : v ∈ (g.living roots).flatMap g.valueHolds) :
    v ∈ g.living roots := by
  have hsubset : v :: g.living roots ⊆ g.living roots := by
    refine subset_living (fun v hv => ?_) (List.cons_subset.mpr ⟨hv, survivors_subset _ _⟩)
    have hheld : v ∈ roots ∨ v ∈ (g.living roots).flatMap g.valueHolds := by
      rcases List.mem_cons.mp hv with rfl | hv
      · exact Or.inr h
      · exact living_supported hv
    exact hheld.imp_right fun hmem => by
      obtain ⟨w, hw, hwv⟩ := List.mem_flatMap.mp hmem
      exact List.mem_flatMap.mpr ⟨w, List.mem_cons_of_mem _ hw, hwv⟩
  exact hsubset List.mem_cons_self

/-- **Roots that live anyway** make no difference. -/
theorem living_eq (h : ∀ v ∈ roots, v ∈ roots' ∨ v ∈ (g.living roots).flatMap g.valueHolds)
    (h' : ∀ v ∈ roots', v ∈ g.everything → v ∈ roots ∨ v ∈ g.living roots) (v : Value) :
    v ∈ g.living roots' ↔ v ∈ g.living roots := by
  have hmono : ∀ {vs ws : List Value}, vs ⊆ ws → vs.flatMap g.valueHolds ⊆ ws.flatMap g.valueHolds := by
    intro vs ws hsub v hv
    obtain ⟨w, hw, hwv⟩ := List.mem_flatMap.mp hv
    exact List.mem_flatMap.mpr ⟨w, hsub hw, hwv⟩
  constructor
  · intro hv
    have hsubset : g.living roots' ++ g.living roots ⊆ g.living roots := by
      refine subset_living (fun w hw => ?_) (List.append_subset.mpr ⟨survivors_subset _ _, survivors_subset _ _⟩)
      have hold : ∀ {w}, w ∈ g.living roots → w ∈ roots ∨
          w ∈ (g.living roots' ++ g.living roots).flatMap g.valueHolds := fun hw =>
        (living_supported hw).imp_right fun hheld => hmono (List.subset_append_right _ _) hheld
      rcases List.mem_append.mp hw with hw | hw
      · rcases living_supported hw with hroot | hheld
        · rcases h' w hroot (survivors_subset _ _ hw) with hroot | hlives
          · exact Or.inl hroot
          · exact hold hlives
        · exact Or.inr (hmono (List.subset_append_left _ _) hheld)
      · exact hold hw
    exact hsubset (List.mem_append_left _ hv)
  · intro hv
    refine subset_living (fun w hw => ?_) (survivors_subset _ _) hv
    rcases living_supported hw with hroot | hheld
    · exact h w hroot
    · exact Or.inr hheld

theorem mem_heldValues {held : List Held} {v : Value} : v ∈ heldValues held ↔ .value v ∈ held := by
  simp only [heldValues, List.mem_filterMap]
  constructor
  · rintro ⟨h, hmem, hv⟩
    cases h with
    | value w => exact Option.some.inj hv ▸ hmem
    | watcher w => cases hv
    | tree t => cases hv
  · exact fun hmem => ⟨_, hmem, rfl⟩

/-- An object that exists is alive if it is among the living. -/
theorem alive_iff {agenda : List (Task κ)} {o : ObjectId} (ho : g.hasObject o = true) :
    Scene.alive { world := g, agenda } o = true ↔
      .object o ∈ g.living (g.rootValues (Scene.held { world := g, agenda })) := by
  have hroot : ∀ {roots : List Value}, .object o ∈ roots → .object o ∈ g.living roots := fun hmem =>
    mem_survivors hmem _ (mem_everything ho)
  unfold Scene.alive isHeld
  simp only [Bool.or_eq_true, List.contains_iff_mem]
  constructor
  · rintro (hnamed | hheld | hlives)
    · refine hroot ?_
      obtain ⟨e, he, heq⟩ := List.any_eq_true.mp hnamed
      obtain rfl : e.2 = o := by simpa using heq
      exact List.mem_append_left _ (List.mem_append_left _ (List.mem_append_left _ (List.mem_map_of_mem he)))
    · exact hroot (List.mem_append_left _ (List.mem_append_right _ (mem_heldValues.mpr hheld)))
    · exact hlives
  · exact fun hlives => Or.inr (Or.inr hlives)

end

/-! ### Worlds with the same objects -/

section

variable {g g' : World κ} (h : g'.outline = g.outline)

include h

theorem valueHolds_congr (v : Value) : g'.valueHolds v = g.valueHolds v := by
  cases v with
  | object o =>
    have hobject := congrArg (fun k : World κ => k.objects[o]?) h
    simp only [outline, Array.getElem?_map] at hobject
    unfold valueHolds
    cases hx : g.objects[o]? <;> cases hx' : g'.objects[o]? <;>
      simp only [hx, hx', Option.map_some, Option.map_none] at hobject ⊢
    · cases hobject
    · cases hobject
    · injection hobject with hobject
      injection hobject with _ hproperties hbase
      rw [hproperties, hbase]
  | collection c =>
    unfold valueHolds
    simp only [itemsOf_congr h]
  | _ => rfl

theorem everything_congr : g'.everything = g.everything := by
  have hobjects := congrArg (fun k : World κ => k.objects.size) h
  have hcollections := congrArg (fun k : World κ => k.collections.size) h
  simp only [outline, Array.size_map] at hobjects hcollections
  unfold everything
  rw [hobjects, hcollections]

theorem living_congr (roots : List Value) : g'.living roots = g.living roots := by
  unfold living
  rw [everything_congr h, survivors_congr (valueHolds_congr h)]

/-- Who is alive is a matter of what lives, and of what is held that does not exist. -/
theorem alive_congr {agenda agenda' : List (Task κ)}
    (hliving : ∀ v, v ∈ g'.living (g'.rootValues (Scene.held { world := g', agenda := agenda' })) ↔
      v ∈ g.living (g.rootValues (Scene.held { world := g, agenda })))
    (hheld : ∀ o, g.hasObject o = false → (Held.value (.object o) ∈ Scene.held { world := g', agenda := agenda' } ↔
      Held.value (.object o) ∈ Scene.held { world := g, agenda })) (o : ObjectId) :
    Scene.alive { world := g', agenda := agenda' } o = Scene.alive { world := g, agenda } o := by
  have hobject : g'.hasObject o = g.hasObject o := hasValue_congr h (.object o)
  cases ho : g.hasObject o with
  | true =>
    rw [Bool.eq_iff_iff, alive_iff ho, alive_iff (hobject.trans ho)]
    exact hliving _
  | false =>
    have hnamed : g'.isNamed o = g.isNamed o := by
      unfold isNamed
      rw [show g'.objectNames = g.objectNames from (congrArg World.objectNames h :)]
    unfold Scene.alive
    rw [Bool.eq_iff_iff]
    simp only [isHeld, hnamed, Bool.or_eq_true, List.contains_iff_mem, hheld o ho]
    exact or_congr Iff.rfl (or_congr Iff.rfl (hliving _))

end

/-! ### Twins -/

variable {t : TreeId} {d b : ObjectId} {g g' : World κ}

theorem Twin.watcherHolds (h : g.Twin t d b g') (w : WatcherId) :
    (∀ v ∈ g.watcherHolds w, v ∈ g'.watcherHolds w ∨ v = .object b) ∧
      ∀ v ∈ g'.watcherHolds w, v ∈ g.watcherHolds w ∨ v = .object d := by
  have hw := h.watcher w
  unfold World.watcherHolds
  generalize g.watchers[w]? = x at hw ⊢
  generalize g'.watchers[w]? = x' at hw ⊢
  cases hw with
  | none => exact ⟨by simp, by simp⟩
  | some hx =>
    cases hx with
    | object _ hbound =>
      cases hbound with
      | none => exact ⟨by simp, by simp⟩
      | @some y y' hb =>
        rcases hb.subject.value with heq | ⟨hb, hd⟩
        · simp [heq]
        · simp [hb, hd]
    | @collection _ _ _ _ _ bound _ => cases bound <;> exact ⟨fun v hv => Or.inl hv, fun v hv => Or.inl hv⟩

end World

/-- What is held in a world and in its twin: the same, the base or the object apart. -/
structure HeldAlike (d b : ObjectId) (held held' : List Held) : Prop where
  watchers : World.heldWatchers held' = World.heldWatchers held
  trees : ∀ t, .tree t ∈ held' ↔ .tree t ∈ held
  left : ∀ v, .value v ∈ held → .value v ∈ held' ∨ v = .object b
  right : ∀ v, .value v ∈ held' → .value v ∈ held ∨ v = .object b ∨ v = .object d

namespace HeldAlike

variable {d b : ObjectId} {held held' more more' : List Held}

theorem refl (d b : ObjectId) (held : List Held) : HeldAlike d b held held :=
  ⟨rfl, fun _ => Iff.rfl, fun _ => Or.inl, fun _ => Or.inl⟩

theorem append (h : HeldAlike d b held held') (h' : HeldAlike d b more more') :
    HeldAlike d b (held ++ more) (held' ++ more') where
  watchers := by
    simp only [World.heldWatchers, List.filterMap_append]
    exact congrArg₂ (· ++ ·) h.watchers h'.watchers
  trees t := by rw [List.mem_append, List.mem_append, h.trees, h'.trees]
  left v hv := by
    rcases List.mem_append.mp hv with hv | hv
    · exact (h.left v hv).imp_left (List.mem_append_left _)
    · exact (h'.left v hv).imp_left (List.mem_append_right _)
  right v hv := by
    rcases List.mem_append.mp hv with hv | hv
    · exact (h.right v hv).imp_left (List.mem_append_left _)
    · exact (h'.right v hv).imp_left (List.mem_append_right _)

theorem value {v v' : Value} (h : v.Twin d b v') : HeldAlike d b [.value v] [.value v'] := by
  rcases h with rfl | ⟨rfl, rfl⟩
  · exact .refl d b _
  · exact ⟨rfl, by simp, by simp, by simp⟩

/-- The derived side may hold the base meanwhile. -/
theorem base (d b : ObjectId) : HeldAlike d b [] [.value (.object b)] :=
  ⟨rfl, by simp, by simp, by simp⟩

end HeldAlike

namespace World

variable {t : TreeId} {d b : ObjectId} {g g' : World κ} {agenda agenda' : List (Task κ)}

/-- Who is based on a thing keeps it alive. -/
theorem Fronts.held_base (hfronts : g.Fronts d b) {roots : List Value} (hd : .object d ∈ g.living roots) :
    .object b ∈ (g.living roots).flatMap g.valueHolds := by
  obtain ⟨x, hx, hbase, -⟩ := hfronts.object
  exact List.mem_flatMap.mpr ⟨_, hd, by simp [valueHolds, hx, hbase]⟩

theorem Fronts.alive_base (hfronts : g.Fronts d b) (hd : Scene.alive { world := g, agenda } d = true) :
    Scene.alive { world := g, agenda } b = true :=
  (alive_iff hfronts.made_base).mpr
    (mem_living_of_held (mem_everything hfronts.made_base) (hfronts.held_base ((alive_iff hfronts.made).mp hd)))

section

variable (h : g.Twin t d b g') (hfronts : g.Fronts d b)
  (hheld : HeldAlike d b (Scene.held { world := g, agenda }) (Scene.held { world := g', agenda := agenda' }))
  (hd : Scene.alive { world := g, agenda } d = true)

include h hfronts hheld hd

/-- What survives survives in the twin as well: the roots differ in the object that
forwards and in its base only, and these survive anyway. -/
theorem Twin.living_iff (v : Value) :
    v ∈ g'.living (g'.rootValues (Scene.held { world := g', agenda := agenda' })) ↔
      v ∈ g.living (g.rootValues (Scene.held { world := g, agenda })) := by
  generalize hroots : g.rootValues (Scene.held { world := g, agenda }) = roots
  generalize hroots' : g'.rootValues (Scene.held { world := g', agenda := agenda' }) = roots'
  have hdlives : .object d ∈ g.living roots := hroots ▸ (alive_iff hfronts.made).mp hd
  have hbheld : .object b ∈ (g.living roots).flatMap g.valueHolds := hfronts.held_base hdlives
  have hblives : .object b ∈ g.living roots := mem_living_of_held (mem_everything hfronts.made_base) hbheld
  have hnodes : g'.planted ++ g'.heldNodes (Scene.held { world := g', agenda := agenda' }) =
      g.planted ++ g.heldNodes (Scene.held { world := g, agenda }) := by
    rw [h.planted, h.heldNodes hheld.watchers]
  have hobjectNames : g'.objectNames = g.objectNames := by rw [h.frame]; rfl
  have hcollectionNames : g'.collectionNames = g.collectionNames := by rw [h.frame]; rfl
  have hleft : ∀ v ∈ roots, v ∈ roots' ∨ v ∈ (g.living roots).flatMap g.valueHolds := by
    intro v hv
    rw [← hroots, rootValues, List.mem_append, List.mem_append] at hv
    rw [← hroots', rootValues, hobjectNames, hcollectionNames, hnodes, List.mem_append, List.mem_append]
    rcases hv with (hv | hv) | hv
    · exact Or.inl (Or.inl (Or.inl hv))
    · rcases hheld.left v (mem_heldValues.mp hv) with hv | rfl
      · exact Or.inl (Or.inl (Or.inr (mem_heldValues.mpr hv)))
      · exact Or.inr hbheld
    · obtain ⟨w, hw, hwv⟩ := List.mem_flatMap.mp hv
      rcases (h.watcherHolds w).1 v hwv with hwv | rfl
      · exact Or.inl (Or.inr (List.mem_flatMap.mpr ⟨w, hw, hwv⟩))
      · exact Or.inr hbheld
  have hright : ∀ v ∈ roots', v ∈ g.everything → v ∈ roots ∨ v ∈ g.living roots := by
    intro v hv _
    rw [← hroots', rootValues, hobjectNames, hcollectionNames, hnodes, List.mem_append, List.mem_append] at hv
    nth_rewrite 1 [← hroots]
    rw [rootValues, List.mem_append, List.mem_append]
    rcases hv with (hv | hv) | hv
    · exact Or.inl (Or.inl (Or.inl hv))
    · rcases hheld.right v (mem_heldValues.mp hv) with hv | rfl | rfl
      · exact Or.inl (Or.inl (Or.inr (mem_heldValues.mpr hv)))
      · exact Or.inr hblives
      · exact Or.inr hdlives
    · obtain ⟨w, hw, hwv⟩ := List.mem_flatMap.mp hv
      rcases (h.watcherHolds w).2 v hwv with hwv | rfl
      · exact Or.inl (Or.inr (List.mem_flatMap.mpr ⟨w, hw, hwv⟩))
      · exact Or.inr hdlives
  rw [← living_eq hleft hright v, living_congr h.outline]

/-- **Twins agree on who is alive**, if the object that forwards is. -/
theorem Twin.alive (o : ObjectId) :
    Scene.alive { world := g', agenda := agenda' } o = Scene.alive { world := g, agenda } o := by
  have hne : ∀ {o i}, g.hasObject o = false → g.hasObject i = true → o ≠ i := fun ho hi heq => by
    rw [heq, hi] at ho
    cases ho
  refine alive_congr h.outline (h.living_iff hfronts hheld hd) (fun o ho => ⟨fun hmem => ?_, fun hmem => ?_⟩) o
  -- what does not exist is not the object and not the base, and is held alike
  · rcases hheld.right _ hmem with hmem | heq | heq
    · exact hmem
    · exact absurd (Value.object.inj heq) (hne ho hfronts.made_base)
    · exact absurd (Value.object.inj heq) (hne ho hfronts.made)
  · rcases hheld.left _ hmem with hmem | heq
    · exact hmem
    · exact absurd (Value.object.inj heq) (hne ho hfronts.made_base)

end

end World
end LiveRules
