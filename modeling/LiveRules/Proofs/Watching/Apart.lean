/-
# Watchers that are not concerned

What is below a watcher does not look at its books: following a plan with other
watchers leaves a watcher as it is, and comes to the same whatever that watcher
has in its books. So it makes no difference whether books are entered as
binding goes on or when it is done.

Key definitions: `World.rewatch`, `World.Apart`.
Key theorems: `World.follow_apart`, `World.enlistAll_apart`.
-/
import LiveRules.Proofs.Watching.Follow

namespace LiveRules
namespace World

variable {κ : Type}

/-- Changes one watcher. -/
def rewatch (g : World κ) (w : WatcherId) (f : Watcher κ → Watcher κ) : World κ :=
  { g with watchers := g.watchers.modify w f }

theorem modify_comm {α : Type} (a : Array α) {i j : Nat} (h : i ≠ j) (f k : α → α) :
    (a.modify i f).modify j k = (a.modify j k).modify i f := by
  apply Array.ext_getElem?
  intro n
  simp only [Array.getElem?_modify]
  by_cases hi : i = n
  · have hj : j ≠ n := fun hj => h (hi.trans hj.symm)
    simp [hi, hj]
  · simp [hi]

theorem modify_push {α : Type} (a : Array α) {i : Nat} (h : i < a.size) (f : α → α) (x : α) :
    (a.modify i f).push x = (a.push x).modify i f := by
  apply Array.ext_getElem?
  intro n
  simp only [Array.getElem?_modify, Array.getElem?_push, Array.size_modify]
  by_cases hn : n = a.size
  · simp [hn, ne_of_lt h]
  · simp [hn]

theorem modify_modify {α : Type} (a : Array α) (i : Nat) (f k : α → α) :
    (a.modify i f).modify i k = a.modify i (k ∘ f) := by
  apply Array.ext_getElem?
  intro n
  simp only [Array.getElem?_modify]
  by_cases hi : i = n
  · simp [hi, Function.comp_def]
  · simp [hi]

section

variable (g : World κ) {w : WatcherId} (f : Watcher κ → Watcher κ)

theorem rewatch_outline : (g.rewatch w f).outline = g.outline := rfl

theorem rewatch_size : (g.rewatch w f).watchers.size = g.watchers.size := by
  simp [rewatch]

theorem rewatch_addWatcher (hw : w < g.watchers.size) (x : Watcher κ) :
    (g.rewatch w f).addWatcher x = (g.addWatcher x).rewatch w f := by
  simp only [rewatch, World.addWatcher, modify_push _ hw]

theorem rewatch_rewatch {c : WatcherId} (hc : c ≠ w) (k : Watcher κ → Watcher κ) :
    (g.rewatch w f).rewatch c k = (g.rewatch c k).rewatch w f := by
  simp only [rewatch, modify_comm _ (Ne.symm hc)]

theorem rewatch_enterListener (s : Subject) (p : String) (l : Listener κ) :
    (g.rewatch w f).enterListener s p l = (g.enterListener s p l).rewatch w f := by
  cases s <;> rfl

theorem rewatch_subscribeMember {c : WatcherId} (hc : c ≠ w) (b : BoundObject) (name : String)
    (child : Option WatcherId) :
    (g.rewatch w f).subscribeMember c b name child = (g.subscribeMember c b name child).rewatch w f := by
  unfold World.subscribeMember
  rw [home_congr (g.rewatch_outline f), rewatch_enterListener]
  exact rewatch_rewatch _ f hc _

theorem rewatch_openCollection {c : WatcherId} (hc : c ≠ w) (d : CollectionId) :
    (g.rewatch w f).openCollection c d = (g.openCollection c d).rewatch w f :=
  rewatch_rewatch (g.enterChangeListener d (.membership c)) f hc _

end

/-- The change `F` does not concern `w`, which is there in `g`: it leaves `w` as it is,
whatever is in its books. -/
def Apart (w : Nat) (F : World κ → World κ) (g : World κ) : Prop :=
  (F g).watchers[w]? = g.watchers[w]? ∧ w < (F g).watchers.size ∧ ∀ f, F (g.rewatch w f) = (F g).rewatch w f

theorem subscribeMember_get (g : World κ) {c w : Nat} (hw : w ≠ c) (b : BoundObject) (name : String)
    (child : Option WatcherId) : (g.subscribeMember c b name child).watchers[w]? = g.watchers[w]? := by
  unfold World.subscribeMember bindObject
  simp only [Array.getElem?_modify, if_neg (Ne.symm hw), enterListener_watchers]

theorem subscribeMember_size (g : World κ) (c : Nat) (b : BoundObject) (name : String)
    (child : Option WatcherId) : (g.subscribeMember c b name child).watchers.size = g.watchers.size := by
  unfold World.subscribeMember bindObject
  rw [Array.size_modify, enterListener_watchers]

/-- A watcher that is new is posted below `c`. -/
theorem post_apart {w c : Nat} (hwc : w ≠ c) (b : BoundObject) (name : String) (x : Watcher κ) {g : World κ}
    (hw : w < g.watchers.size) :
    Apart w (fun g => (g.addWatcher x).subscribeMember c b name (some g.watchers.size)) g := by
  refine ⟨?_, ?_, fun f => ?_⟩
  · rw [subscribeMember_get _ hwc, getElem?_addWatcher, if_neg (ne_of_lt hw)]
  · rw [subscribeMember_size]
    simp only [World.addWatcher, Array.size_push]
    exact Nat.lt_succ_of_lt hw
  · simp only [rewatch_size, rewatch_addWatcher g f hw, rewatch_subscribeMember _ f hwc.symm]

theorem bindObject_apart {w c : Nat} (hwc : w ≠ c) (b : BoundObject) {g : World κ} (hw : w < g.watchers.size) :
    Apart w (fun g => g.bindObject c b) g := by
  refine ⟨?_, ?_, fun f => rewatch_rewatch g f hwc.symm _⟩
  · simp only [bindObject, Array.getElem?_modify, if_neg hwc.symm]
  · simpa [bindObject] using hw

theorem bindCollection_apart {w c : Nat} (hwc : w ≠ c) (b : BoundCollection) {g : World κ}
    (hw : w < g.watchers.size) : Apart w (fun g => g.bindCollection c b) g := by
  refine ⟨?_, ?_, fun f => rewatch_rewatch g f hwc.symm _⟩
  · simp only [bindCollection, Array.getElem?_modify, if_neg hwc.symm]
  · simpa [bindCollection] using hw

theorem openCollection_apart {w c : Nat} (hwc : w ≠ c) (d : CollectionId) {g : World κ}
    (hw : w < g.watchers.size) : Apart w (fun g => g.openCollection c d) g := by
  refine ⟨?_, ?_, fun f => rewatch_openCollection g f hwc.symm d⟩
  · simp only [World.openCollection, bindCollection, Array.getElem?_modify, if_neg hwc.symm]
    rfl
  · simpa [World.openCollection, bindCollection, enterChangeListener, modifyCollection] using hw

/-- One change after the other. -/
theorem Apart.comp {w : Nat} {F G : World κ → World κ} {g : World κ} (hF : Apart w F g) (hG : Apart w G (F g)) :
    Apart w (fun g => G (F g)) g :=
  ⟨hG.1.trans hF.1, hG.2.1, fun f => (congrArg G (hF.2.2 f)).trans (hG.2.2 f)⟩

theorem enlistAll_apart {w : Nat} {F : World κ → WatcherId → BoundObject → World κ} {c : Nat}
    (hF : ∀ {x b} {g : World κ}, w ≠ x → w < g.watchers.size → Apart w (fun g => F g x b) g) (hwc : w ≠ c)
    (item : WatchPlan κ) (site : Attachment) :
    ∀ (os : List ObjectId) (b : BoundCollection) {g : World κ}, w < g.watchers.size →
      Apart w (fun g => enlistAll F c item site os g b) g := by
  intro os
  induction os with
  | nil => exact fun b g hw => ⟨rfl, hw, fun f => rfl⟩
  | cons o os ih =>
    intro b g hw
    have hwx : w ≠ g.watchers.size := ne_of_lt hw
    have hadd : Apart w (fun h : World κ => h.addWatcher (.object item site none)) g :=
      ⟨by rw [getElem?_addWatcher, if_neg hwx], by simpa [World.addWatcher] using Nat.lt_succ_of_lt hw,
        fun f => rewatch_addWatcher g f hw _⟩
    have henter := hadd.comp (bindCollection_apart hwc { b with items := b.items ++ [(o, g.watchers.size)] }
      hadd.2.1)
    have hopen := henter.comp (bindObject_apart hwx (opened (.object o)) henter.2.1)
    have hbound := hopen.comp (hF (b := opened (.object o)) hwx hopen.2.1)
    have hrest := hbound.comp (ih { b with items := b.items ++ [(o, g.watchers.size)] } hbound.2.1)
    refine ⟨hrest.1, hrest.2.1, fun f => ?_⟩
    have hsize : (g.rewatch w f).watchers.size = g.watchers.size := rewatch_size g f
    simp only [enlistAll, hsize]
    exact hrest.2.2 f

theorem follow_apart (w : Nat) (site : Attachment) :
    ∀ (rest : WatchPlan κ) {c : Nat} {b : BoundObject} {g : World κ}, w ≠ c → w < g.watchers.size →
      Apart w (fun g => follow rest g c site b) g := by
  intro rest
  induction rest with
  | nil => exact fun _ hw => ⟨rfl, hw, fun f => rfl⟩
  | value name batch next ih =>
    intro c b g hwc hw
    have hjoin : Apart w (fun h : World κ => h.subscribeMember c b name none) g :=
      ⟨g.subscribeMember_get hwc b name none, by rwa [subscribeMember_size],
        fun f => rewatch_subscribeMember g f hwc.symm b name none⟩
    exact hjoin.comp (ih (b := b.join g.nextSubscription none) hwc hjoin.2.1)
  | object name batch inside next ihInside ih =>
    intro c b g hwc hw
    have hwx : w ≠ g.watchers.size := ne_of_lt hw
    have hpost := post_apart hwc b name (.object inside site none) hw
    have hvalue : ∀ v : Option Subject, Apart w (fun h => v.elim h fun s =>
        follow inside (h.bindObject g.watchers.size (opened s)) g.watchers.size site (opened s))
        ((g.addWatcher (.object inside site none)).subscribeMember c b name (some g.watchers.size)) := by
      rintro (_ | s)
      · exact ⟨rfl, hpost.2.1, fun f => rfl⟩
      · have hopen := bindObject_apart hwx (opened s) hpost.2.1
        exact hopen.comp (ihInside hwx hopen.2.1)
    have hbound := hpost.comp (hvalue (g.memberValue b.subject name).subject?)
    have hrest := hbound.comp (ih (b := b.join g.nextSubscription (some g.watchers.size)) hwc hbound.2.1)
    refine ⟨hrest.1, hrest.2.1, fun f => ?_⟩
    have hval : (g.rewatch w f).memberValue b.subject name = g.memberValue b.subject name :=
      memberValue_congr (g.rewatch_outline f) _ _
    refine Eq.trans ?_ (hrest.2.2 f)
    simp only [follow, rewatch_size, hval]
    rfl
  | collection name batch membership item next ihItem ih =>
    intro c b g hwc hw
    have hwx : w ≠ g.watchers.size := ne_of_lt hw
    have hpost := post_apart hwc b name (.collection item membership site none) hw
    set g₁ := (g.addWatcher (.collection item membership site none)).subscribeMember c b name
      (some g.watchers.size) with hg₁
    have hvalue : ∀ v : Option CollectionId, Apart w (fun h => v.elim h fun d =>
        enlistAll (fun g x b => follow item g x site b) g.watchers.size item site (g₁.wanted item d)
          (h.openCollection g.watchers.size d)
          { collection := d, subscription := g₁.nextSubscription, items := [] }) g₁ := by
      rintro (_ | d)
      · exact ⟨rfl, hpost.2.1, fun f => rfl⟩
      · have hopen := openCollection_apart hwx d hpost.2.1
        exact hopen.comp (enlistAll_apart ihItem hwx item site (g₁.wanted item d) _ hopen.2.1)
    have hbound := hpost.comp (hvalue (g.memberValue b.subject name).collection?)
    have hrest := hbound.comp (ih (b := b.join g.nextSubscription (some g.watchers.size)) hwc hbound.2.1)
    refine ⟨hrest.1, hrest.2.1, fun f => ?_⟩
    have hval : (g.rewatch w f).memberValue b.subject name = g.memberValue b.subject name :=
      memberValue_congr (g.rewatch_outline f) _ _
    have hcomm := hpost.2.2 f
    simp only [rewatch_size] at hcomm
    refine Eq.trans ?_ (hrest.2.2 f)
    simp only [follow, rewatch_size, hval, hcomm]
    rfl

theorem bindCollection_bindCollection (g : World κ) (w : WatcherId) (b b' : BoundCollection) :
    (g.bindCollection w b).bindCollection w b' = g.bindCollection w b' := by
  unfold bindCollection
  rw [modify_modify]
  congr 2
  funext x
  cases x <;> rfl

theorem bindObject_bindObject (g : World κ) (w : WatcherId) (b b' : BoundObject) :
    (g.bindObject w b).bindObject w b' = g.bindObject w b' := by
  unfold bindObject
  rw [modify_modify]
  congr 2
  funext x
  cases x <;> rfl

end World
end LiveRules
