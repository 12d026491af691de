/-
# The subscriptions to be expected

Which subscriptions a tree is to hold is read off the words of its paths: at each
object that is reached there is one to each property that comes next in a word, and
one to the changes of each collection whose members come next. A plan asks for the
same, if it was compiled from a graph that records these words.

Key definitions: `Subscription`, `World.expected`, `World.asked`.
Key theorems: `World.asks`, `Graph.Built.asked`.
-/
import LiveRules.Proofs.Graph.Lookup
import LiveRules.Graph.Plan
import LiveRules.Proofs.World.Outline

namespace LiveRules

/-- A subscription: to the property `name`, made through a subject and entered at
`place`, or to the changes of a collection. -/
inductive Subscription
  | property (place : Subject) (through : Option Value) (name : String)
  | changes (c : CollectionId)
  deriving DecidableEq

/-- What follows `l` in those of `words` that start with it. -/
def after (l : Label) (words : List (List Label)) : List (List Label) :=
  words.filterMap fun
    | [] => none
    | k :: v => if k = l then some v else none

/-- The properties that `words` start with, each once. -/
def firstNames (words : List (List Label)) : List String :=
  (words.filterMap fun
    | .field n :: _ => some n
    | _ => none).dedup

/-- Some of `words` starts with a collection's members. -/
def entersMembers (words : List (List Label)) : Bool :=
  words.any fun
    | .member :: _ => true
    | _ => false

namespace World

variable {κ : Type}

/-- The subscription to a property through `s`. -/
def subscriptionTo (g : World κ) (s : Subject) (name : String) : Subscription :=
  .property (g.home s name) (some s.value) name

/-- The subscriptions to be expected at `s`, where `words` are still to be gone, and
below it, for words of at most `d` letters. -/
def expected (g : World κ) : Nat → List (List Label) → Subject → List Subscription
  | 0, _, _ => []
  | d + 1, words, s =>
    (firstNames words).flatMap fun n =>
      let inside := after (.field n) words
      let v := g.memberValue s n
      g.subscriptionTo s n :: ((v.subject?.elim [] fun s' => g.expected d inside s') ++
        v.collection?.elim [] fun c =>
          if entersMembers inside then
            .changes c :: (g.itemsOf c).flatMap fun o => g.expected d (after .member inside) (.object o)
          else [])

/-- The subscriptions a plan asks for at `s`, and below it. -/
def asked (g : World κ) : WatchPlan κ → Subject → List Subscription
  | .nil, _ => []
  | .value n _ next, s => g.subscriptionTo s n :: g.asked next s
  | .object n _ inside next, s =>
    g.subscriptionTo s n :: ((g.memberValue s n).subject?.elim [] (g.asked inside) ++ g.asked next s)
  | .collection n _ _ item next, s =>
    g.subscriptionTo s n :: (((g.memberValue s n).collection?.elim [] fun c =>
      .changes c :: (g.itemsOf c).flatMap fun o => g.asked item (.object o)) ++ g.asked next s)

end World

/-! ### Words and forests -/

theorem mem_after {l : Label} {words : List (List Label)} {v : List Label} : v ∈ after l words ↔ l :: v ∈ words := by
  unfold after
  rw [List.mem_filterMap]
  constructor
  · rintro ⟨w, hw, hv⟩
    cases w with
    | nil => cases hv
    | cons k w =>
      simp only at hv
      split at hv
      · rename_i hk
        obtain rfl := Option.some.inj hv
        exact hk ▸ hw
      · cases hv
  · exact fun hw => ⟨_, hw, if_pos rfl⟩

theorem mem_firstNames {words : List (List Label)} {n : String} :
    n ∈ firstNames words ↔ ∃ v, .field n :: v ∈ words := by
  unfold firstNames
  rw [List.mem_dedup, List.mem_filterMap]
  constructor
  · rintro ⟨w, hw, hn⟩
    cases w with
    | nil => cases hn
    | cons k w =>
      cases k with
      | field m =>
        obtain rfl := Option.some.inj hn
        exact ⟨w, hw⟩
      | member => cases hn
  · exact fun ⟨v, hv⟩ => ⟨_, hv, rfl⟩

theorem entersMembers_iff {words : List (List Label)} : entersMembers words = true ↔ ∃ v, .member :: v ∈ words := by
  unfold entersMembers
  rw [List.any_eq_true]
  constructor
  · rintro ⟨w, hw, hm⟩
    cases w with
    | nil => cases hm
    | cons k w =>
      cases k with
      | field m => cases hm
      | member => exact ⟨w, hw⟩
  · exact fun ⟨v, hv⟩ => ⟨_, hv, rfl⟩

/-- The words that are recorded in a forest. The empty word may be there or not. -/
def Forest.Spells (f : Forest) (words : List (List Label)) : Prop :=
  ∀ k v, k :: v ∈ words ↔ f.actionsAt k v ≠ []

namespace Forest

/-- The labels of a tidy forest are the first letters of its words. -/
theorem mem_labels_iff {f : Forest} (hf : f.Tidy) (k : Label) : k ∈ f.labels ↔ ∃ v, f.actionsAt k v ≠ [] := by
  induction f generalizing k with
  | nil => simp [labels, actionsAt]
  | node l as below next ihb ihn =>
    obtain ⟨⟨hl, -⟩, -, hword, -, hb, hn⟩ := hf
    by_cases hlk : l = k
    · subst hlk
      refine iff_of_true List.mem_cons_self ?_
      rcases hword with has | hbelow
      · exact ⟨[], by simpa [actionsAt] using has⟩
      · obtain ⟨j, hj⟩ : ∃ j, j ∈ below.labels := by
          cases below with
          | nil => exact absurd rfl hbelow
          | node j bs below' next' => exact ⟨j, List.mem_cons_self⟩
        obtain ⟨v, hv⟩ := (ihb hb j).mp hj
        exact ⟨j :: v, by simpa [actionsAt] using hv⟩
    · have hkl : k ≠ l := fun heq => hlk heq.symm
      simp only [labels, List.mem_cons, hkl, false_or, actionsAt, if_neg hlk]
      exact ihn hn k

theorem Spells.below {l : Label} {as : List ActionId} {below next : Forest} {words : List (List Label)}
    (h : (node l as below next).Spells words) : below.Spells (after l words) := by
  intro k v
  rw [mem_after, h]
  simp [actionsAt]

end Forest

theorem firstNames_perm {f : Forest} (hf : f.Tidy) {words : List (List Label)} (h : f.Spells words)
    {names : List String} (hnames : f.labels = names.map Label.field) : (firstNames words).Perm names := by
  have hnodup : f.labels.Nodup := by
    clear hnames h
    induction f with
    | nil => exact List.nodup_nil
    | node l as below next _ ih => exact List.nodup_cons.mpr ⟨hf.1.1, ih hf.2.2.2.2.2⟩
  rw [hnames] at hnodup
  refine (List.perm_ext_iff_of_nodup (List.nodup_dedup _) (List.Nodup.of_map _ hnodup)).mpr fun n => ?_
  have hmem : n ∈ names ↔ Label.field n ∈ f.labels := by
    rw [hnames, List.mem_map]
    exact ⟨fun hn => ⟨n, hn, rfl⟩, fun ⟨m, hm, heq⟩ => by cases heq; exact hm⟩
  rw [hmem, Forest.mem_labels_iff hf]
  exact mem_firstNames.trans (exists_congr fun v => h _ v)

/-! ### Plans of graphs -/

namespace World

variable {κ : Type} {resolve : ActionId → Option (ActionId × Action κ)}

/-- What is expected at a property and below it. -/
def expectedAt (g : World κ) (d : Nat) (words : List (List Label)) (s : Subject) (n : String) : List Subscription :=
  g.subscriptionTo s n :: (((g.memberValue s n).subject?.elim [] fun s' => g.expected d (after (.field n) words) s') ++
    (g.memberValue s n).collection?.elim [] fun c =>
      if entersMembers (after (.field n) words) then
        .changes c :: (g.itemsOf c).flatMap fun o => g.expected d (after .member (after (.field n) words)) (.object o)
      else [])

theorem expected_succ (g : World κ) (d : Nat) (words : List (List Label)) (s : Subject) :
    g.expected (d + 1) words s = (firstNames words).flatMap (g.expectedAt d words s) :=
  rfl

/-- Nothing is expected where no word goes on with a property. -/
theorem expected_of_no_name (g : World κ) (d : Nat) {words : List (List Label)} (h : ∀ n v, .field n :: v ∉ words)
    (s : Subject) : g.expected d words s = [] := by
  cases d with
  | zero => rfl
  | succ d =>
    have hnone : firstNames words = [] :=
      List.eq_nil_iff_forall_not_mem.mpr fun n hn => by
        obtain ⟨v, hv⟩ := mem_firstNames.mp hn
        exact h n v hv
    rw [expected_succ, hnone]
    rfl

/-- That trees side by side ask for what is expected at the properties they start
with. -/
def Asks (g : World κ) (resolve : ActionId → Option (ActionId × Action κ)) (f : Forest) : Prop :=
  f.Tidy → .member ∉ f.labels → ∀ {words : List (List Label)} (d : Nat) (s : Subject),
    (∀ k ∈ f.labels, ∀ v, k :: v ∈ words ↔ f.actionsAt k v ≠ []) → (∀ w ∈ words, w.length ≤ d + 1) →
    ∃ names : List String, f.labels = names.map Label.field ∧
      (g.asked (f.compile resolve) s).Perm (names.flatMap (g.expectedAt d words s))

theorem length_of_mem_after {l : Label} {words : List (List Label)} {d : Nat} (h : ∀ w ∈ words, w.length ≤ d + 1) :
    ∀ w ∈ after l words, w.length ≤ d :=
  fun _ hw => Nat.le_of_succ_le_succ (h _ (mem_after.mp hw))

theorem Asks.perm {g : World κ} {f : Forest} (h : g.Asks resolve f) (hf : f.Tidy) (hfield : .member ∉ f.labels)
    {words : List (List Label)} (hwords : f.Spells words) {d : Nat} (hd : ∀ w ∈ words, w.length ≤ d) (s : Subject) :
    (g.asked (f.compile resolve) s).Perm (g.expected d words s) := by
  cases d with
  | zero =>
    have hnil : f = .nil := by
      cases f with
      | nil => rfl
      | node l as below next =>
        obtain ⟨v, hv⟩ := (Forest.mem_labels_iff hf l).mp List.mem_cons_self
        exact absurd (hd _ ((hwords l v).mpr hv)) (by simp)
    rw [hnil]
    exact .refl _
  | succ d =>
    obtain ⟨names, hnames, hperm⟩ := h hf hfield d s (fun k _ v => hwords k v) hd
    rw [expected_succ]
    exact hperm.trans ((firstNames_perm hf hwords hnames).symm.flatMap_right _)

/-- A property and what is below it. -/
theorem expectedAt_perm {g : World κ} {n : String} {below : Forest} (as : List ActionId) (next : Forest)
    (hbelow : g.Asks resolve below) (hitem : ∀ bs item nx, below = .node .member bs item nx → g.Asks resolve item)
    (hf : below.Tidy) (hkinds : ∀ j ∈ below.labels, ∀ k ∈ below.labels, j.sameKind k = true)
    {words : List (List Label)} (hwords : below.Spells (after (.field n) words)) {d : Nat}
    (hd : ∀ w ∈ after (.field n) words, w.length ≤ d) (s : Subject) :
    ∃ inner, g.asked ((Forest.node (.field n) as below next).compile resolve) s =
        g.subscriptionTo s n :: (inner ++ g.asked (next.compile resolve) s) ∧
      (g.subscriptionTo s n :: inner).Perm (g.expectedAt d words s n) := by
  have hfirst : ∀ k v, k :: v ∈ after (.field n) words → k ∈ below.labels := fun k v hv =>
    (Forest.mem_labels_iff hf k).mpr ⟨v, (hwords k v).mp hv⟩
  have hnone : (∀ m, Label.field m ∉ below.labels) → ∀ t, g.expected d (after (.field n) words) t = [] :=
    fun h t => g.expected_of_no_name d (fun m v hv => h m (hfirst _ v hv)) t
  cases below with
  | nil =>
    have hmembers : entersMembers (after (.field n) words) = false := by
      rw [← Bool.not_eq_true, entersMembers_iff]
      rintro ⟨v, hv⟩
      cases hfirst _ v hv
    refine ⟨[], rfl, .cons _ ?_⟩
    rw [hmembers]
    cases (g.memberValue s n).subject? <;> cases (g.memberValue s n).collection? <;>
      simp [hnone (by simp [Forest.labels])]
  | node l bs inside nx =>
    cases l with
    | field m =>
      have hmember : .member ∉ (Forest.node (.field m) bs inside nx).labels := by
        intro hm
        have := hkinds _ hm _ List.mem_cons_self
        cases this
      have hmembers : entersMembers (after (.field n) words) = false := by
        rw [← Bool.not_eq_true, entersMembers_iff]
        rintro ⟨v, hv⟩
        exact hmember (hfirst _ v hv)
      refine ⟨_, rfl, .cons _ ?_⟩
      rw [hmembers]
      have hcollection : ((g.memberValue s n).collection?.elim [] fun c => if false = true then
          .changes c :: (g.itemsOf c).flatMap fun o =>
            g.expected d (after .member (after (.field n) words)) (.object o) else []) = ([] : List Subscription) := by
        cases (g.memberValue s n).collection? <;> rfl
      rw [hcollection, List.append_nil]
      cases (g.memberValue s n).subject? with
      | none => exact .refl _
      | some s' => exact hbelow.perm hf hmember hwords hd s'
    | member =>
      have hfields : ∀ m, Label.field m ∉ (Forest.node .member bs inside nx).labels := by
        intro m hm
        have := hkinds _ hm _ List.mem_cons_self
        cases this
      have hmembers : entersMembers (after (.field n) words) = true := by
        rw [entersMembers_iff]
        obtain ⟨v, hv⟩ := (Forest.mem_labels_iff hf .member).mp List.mem_cons_self
        exact ⟨v, (hwords _ v).mpr hv⟩
      refine ⟨_, rfl, .cons _ ?_⟩
      rw [hmembers]
      have hsubject : ((g.memberValue s n).subject?.elim [] fun s' => g.expected d (after (.field n) words) s') =
          ([] : List Subscription) := by
        cases (g.memberValue s n).subject? with
        | none => rfl
        | some s' => exact hnone hfields s'
      rw [hsubject, List.nil_append]
      cases (g.memberValue s n).collection? with
      | none => exact .refl _
      | some c =>
        refine .cons _ (List.Perm.flatMap_left _ fun o _ => ?_)
        have hd' : ∀ w ∈ after .member (after (.field n) words), w.length ≤ d :=
          fun w hw => (Nat.le_succ _).trans (hd _ (mem_after.mp hw))
        exact (hitem bs inside nx rfl).perm hf.2.2.2.2.1 (hf.2.2.2.1 rfl) hwords.below hd' (.object o)

theorem asks (g : World κ) (f : Forest) :
    g.Asks resolve f ∧ ∀ bs item nx, f = .node .member bs item nx → g.Asks resolve item := by
  induction f with
  | nil =>
    refine ⟨fun _ _ words d s _ _ => ⟨[], rfl, .refl _⟩, fun bs item nx h => ?_⟩
    cases h
  | node l as below next ihb ihn =>
    refine ⟨fun hf hfield words d s hwords hd => ?_, fun bs item nx h => ?_⟩
    · cases l with
      | member => exact absurd List.mem_cons_self hfield
      | field n =>
        obtain ⟨⟨hn, -⟩, -, -, -, hb, hnext⟩ := hf
        have hspells : below.Spells (after (.field n) words) := by
          intro k v
          rw [mem_after, hwords _ List.mem_cons_self]
          simp [Forest.actionsAt]
        obtain ⟨names, hnames, hperm⟩ := ihn.1 hnext (fun hm => hfield (List.mem_cons_of_mem _ hm)) d s
          (fun k hk v => by
            have hne : Label.field n ≠ k := fun heq => hn (heq ▸ hk)
            rw [hwords k (List.mem_cons_of_mem _ hk)]
            simp [Forest.actionsAt, hne]) hd
        obtain ⟨inner, hasked, hinner⟩ := expectedAt_perm as next ihb.1 ihb.2 hb
          (Forest.sameKind_labels hb) hspells (length_of_mem_after hd) s
        refine ⟨n :: names, by rw [Forest.labels, hnames, List.map_cons], ?_⟩
        rw [hasked, List.flatMap_cons]
        exact hinner.append hperm
    · cases h
      exact ihb.1

end World

/-- **A graph's plan** asks for what its paths let expect. -/
theorem Graph.Built.asked {κ : Type} {resolve : ActionId → Option (ActionId × Action κ)} {graph : Graph}
    (hgraph : graph.Built) {paths : List Path} (hpaths : ∀ p, p ∈ paths ↔ graph.actionsAt p ≠ []) (g : World κ)
    {d : Nat} (hd : ∀ p ∈ paths, p.word.length ≤ d) (s : Subject) :
    (g.asked (graph.compile resolve) s).Perm (g.expected d (paths.map Path.word) s) := by
  refine (g.asks graph.top).1.perm hgraph.sound.1 hgraph.sound.2 (fun k v => ?_) (fun w hw => ?_) s
  · rw [List.mem_map]
    constructor
    · rintro ⟨p, hp, hword⟩
      have := (hpaths p).mp hp
      simpa [Graph.actionsAt, hword] using this
    · intro hkv
      obtain ⟨p, hp⟩ := hgraph.literate k v hkv
      refine ⟨p, (hpaths p).mpr ?_, hp⟩
      simpa [Graph.actionsAt, hp] using hkv
  · obtain ⟨p, hp, rfl⟩ := List.mem_map.mp hw
    exact hd p hp

end LiveRules
