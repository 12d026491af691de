/-
# The grammar of written paths

A text is cut at its dots. A piece between two dots *spells* a step: with the blanks at
its two ends taken off it is the name of the step, with `[]` behind it for a collection.
Every piece spells one step, and a text that is not blank is read as the steps its pieces
spell, if these are well named. If not, the first misnamed one is to blame.

The reader takes the blanks off the whole text before it cuts it. No dot is blank, so
these are blanks at the outer ends of the first and the last piece, where they would be
taken off anyway.

Key definitions: `Text.IsCore`, `Step.SpelledBy`, `Text.Spells`, `ValidName`.
Key theorems: `Text.trim_eq_iff`, `Step.ofPiece_eq_iff`, `stepsOf_eq_iff`,
`parse_reads_grammar`.
-/
import LiveRules.Path.Parser
import Mathlib.Data.List.DropRight
import Mathlib.Data.List.Forall2

namespace LiveRules

/-! ### Blanks at the ends -/

namespace Text

/-- `core` is what is left of `piece` without the blanks at its two ends. -/
structure IsCore (core piece : List Char) : Prop where
  around : ∃ l r, piece = l ++ (core ++ r) ∧ (∀ c ∈ l, isBlank c = true) ∧ ∀ c ∈ r, isBlank c = true
  first : ∀ c, core.head? = some c → isBlank c = false
  last : ∀ c, core.getLast? = some c → isBlank c = false

theorem isCore_trim (piece : List Char) : IsCore (trim piece) piece := by
  set inner := piece.dropWhile isBlank with hinner
  have htrim : trim piece = inner.rdropWhile isBlank := rfl
  constructor
  case around =>
    refine ⟨piece.takeWhile isBlank, inner.rtakeWhile isBlank, ?_, fun c => List.mem_takeWhile_imp,
      fun c => List.mem_rtakeWhile_imp⟩
    rw [htrim, List.rdropWhile_append_rtakeWhile, hinner, List.takeWhile_append_dropWhile]
  case first =>
    intro c hc
    obtain ⟨r, hr⟩ := List.rdropWhile_prefix isBlank (l := inner)
    have hhead : inner.head? = some c := by
      rw [← hr, List.head?_append, ← htrim, hc]
      rfl
    have hnot := List.head?_dropWhile_not isBlank piece
    rw [← hinner, hhead] at hnot
    simpa using hnot
  case last =>
    intro c hc
    have hne : inner.rdropWhile isBlank ≠ [] := by
      intro hnil
      rw [htrim, hnil] at hc
      cases hc
    have hlast := List.rdropWhile_last_not isBlank inner hne
    rw [htrim, List.getLast?_eq_some_getLast hne, Option.some.injEq] at hc
    simpa [hc] using hlast

theorem IsCore.trim_eq {core piece : List Char} (h : IsCore core piece) : trim piece = core := by
  obtain ⟨l, r, rfl, hl, hr⟩ := h.around
  unfold trim trimRight trimLeft
  rw [List.dropWhile_append_of_pos hl]
  have hright : ∀ xs : List Char, xs = core ++ r → (xs.reverse.dropWhile isBlank).reverse = core := by
    rintro xs rfl
    rw [List.reverse_append, List.dropWhile_append_of_pos (by simpa using hr)]
    cases hrev : core.reverse with
    | nil => simpa using hrev.symm
    | cons c cs =>
      have hc : isBlank c = false := h.last c (by rw [List.getLast?_eq_head?_reverse, hrev]; rfl)
      rw [List.dropWhile_cons_of_neg (by simp [hc]), ← hrev, List.reverse_reverse]
  cases hcore : core with
  | nil =>
    have hnone : r.dropWhile isBlank = [] := List.dropWhile_eq_nil_iff.mpr hr
    rw [List.nil_append, hnone]
    rfl
  | cons c cs =>
    have hc : isBlank c = false := h.first c (by rw [hcore]; rfl)
    rw [List.cons_append, List.dropWhile_cons_of_neg (by simp [hc])]
    exact (hright _ (by rw [hcore]; rfl)).trans hcore

/-- **What is left** without the blanks at both ends is one text. -/
theorem trim_eq_iff {core piece : List Char} : trim piece = core ↔ IsCore core piece :=
  ⟨fun h => h ▸ isCore_trim piece, IsCore.trim_eq⟩

theorem trim_append_of_blank {l r : List Char} (hl : ∀ c ∈ l, isBlank c = true) (hr : ∀ c ∈ r, isBlank c = true)
    (piece : List Char) : trim (l ++ (piece ++ r)) = trim piece := by
  obtain ⟨⟨l', r', heq, hl', hr'⟩, hfirst, hlast⟩ := isCore_trim piece
  refine IsCore.trim_eq ⟨⟨l ++ l', r' ++ r, ?_, fun c hc => ?_, fun c hc => ?_⟩, hfirst, hlast⟩
  · conv_lhs => rw [heq]
    simp only [List.append_assoc]
  · exact (List.mem_append.mp hc).elim (hl c) (hl' c)
  · exact (List.mem_append.mp hc).elim (hr' c) (hr c)

theorem trim_eq_nil_iff {piece : List Char} : trim piece = [] ↔ ∀ c ∈ piece, isBlank c = true := by
  constructor
  · intro h
    obtain ⟨l, r, heq, hl, hr⟩ := (trim_eq_iff.mp h).around
    intro c hc
    rw [heq, List.nil_append] at hc
    exact (List.mem_append.mp hc).elim (hl c) (hr c)
  · exact fun h => IsCore.trim_eq ⟨⟨piece, [], by simp, h, by simp⟩, by simp, by simp⟩

end Text

/-! ### Pieces -/

theorem pieces_eq (cs : List Char) : pieces cs = cs.splitOn '.' := by
  induction cs with
  | nil => rfl
  | cons c cs ih =>
    have hcons : (c :: cs).splitOn '.' = if c == '.' then [] :: cs.splitOn '.'
        else (cs.splitOn '.').modifyHead (c :: ·) :=
      List.splitOnP_cons_eq_if_modifyHead c cs
    rw [pieces, ih, hcons]
    by_cases hc : c = '.'
    · simp [hc]
    · cases hsplit : cs.splitOn '.' with
      | nil => exact absurd hsplit (List.splitOnP_ne_nil _ cs)
      | cons p ps => simp [hc]

theorem pieces_of_undotted {cs : List Char} (h : '.' ∉ cs) : pieces cs = [cs] := by
  rw [pieces_eq]
  refine List.splitOnP_eq_singleton fun c hc => ?_
  have hne : c ≠ '.' := fun heq => h (heq ▸ hc)
  simpa using hne

/-- What is put before a text without a dot goes to its first piece. -/
theorem pieces_append_left {l : List Char} (h : '.' ∉ l) (cs : List Char) :
    ∃ p ps, pieces cs = p :: ps ∧ pieces (l ++ cs) = (l ++ p) :: ps := by
  induction l with
  | nil =>
    cases hp : pieces cs with
    | nil => exact absurd ((pieces_eq cs).symm.trans hp) (List.splitOnP_ne_nil _ cs)
    | cons p ps => exact ⟨p, ps, rfl, hp⟩
  | cons c l ih =>
    obtain ⟨p, ps, hp, hl⟩ := ih fun hm => h (List.mem_cons_of_mem _ hm)
    have hc : c ≠ '.' := fun heq => h (heq ▸ List.mem_cons_self)
    refine ⟨p, ps, hp, ?_⟩
    rw [List.cons_append, pieces, if_neg hc, hl]
    rfl

/-- What is put behind it goes to the last. -/
theorem pieces_append_right {r : List Char} (h : '.' ∉ r) (cs : List Char) :
    ∃ ps p, pieces cs = ps ++ [p] ∧ pieces (cs ++ r) = ps ++ [p ++ r] := by
  induction cs with
  | nil => exact ⟨[], [], rfl, pieces_of_undotted h⟩
  | cons c cs ih =>
    obtain ⟨ps, p, hp, hr⟩ := ih
    rw [List.cons_append, pieces, pieces, hp, hr]
    by_cases hc : c = '.'
    · exact ⟨[] :: ps, p, by simp [hc], by simp [hc]⟩
    · cases ps with
      | nil => exact ⟨[], c :: p, by simp [hc], by simp [hc]⟩
      | cons q ps => exact ⟨(c :: q) :: ps, p, by simp [hc], by simp [hc]⟩

theorem dot_not_mem_of_blank {cs : List Char} (h : ∀ c ∈ cs, Text.isBlank c = true) : '.' ∉ cs := by
  intro hm
  have hdot : Text.isBlank '.' = false := by decide
  rw [h _ hm] at hdot
  cases hdot

/-- Taking the blanks off the whole text makes no difference to its pieces. -/
theorem map_trim_pieces_trim (cs : List Char) :
    (pieces (Text.trim cs)).map Text.trim = (pieces cs).map Text.trim := by
  obtain ⟨l, r, heq, hl, hr⟩ := (Text.isCore_trim cs).around
  obtain ⟨p, ps, hp, hleft⟩ := pieces_append_left (dot_not_mem_of_blank hl) (Text.trim cs ++ r)
  obtain ⟨qs, q, hq, hright⟩ := pieces_append_right (dot_not_mem_of_blank hr) (Text.trim cs)
  have hfirst : Text.trim (l ++ p) = Text.trim p := by
    simpa using Text.trim_append_of_blank hl (r := []) (by simp) p
  have hlast : Text.trim (q ++ r) = Text.trim q := by
    simpa using Text.trim_append_of_blank (l := []) (by simp) hr q
  calc (pieces (Text.trim cs)).map Text.trim
      = (qs ++ [q ++ r]).map Text.trim := by rw [hq, List.map_append, List.map_append]; simp [hlast]
    _ = (p :: ps).map Text.trim := by rw [← hright, hp]
    _ = ((l ++ p) :: ps).map Text.trim := by rw [List.map_cons, List.map_cons, hfirst]
    _ = (pieces cs).map Text.trim := by rw [← hleft, ← heq]

/-! ### Steps -/

namespace Step

/-- A piece spells a step: it is the written form of the step, but for blanks at its two
ends. One `[]` at the end makes it a collection. -/
structure SpelledBy (s : Step) (piece : List Char) : Prop where
  core : Text.IsCore s.spelling piece
  plain : s.kind = .property → ¬ ['[', ']'] <:+ s.name.toList

theorem spelling_collection (name : List Char) : (collection (String.ofList name)).spelling = name ++ ['[', ']'] := by
  simp [spelling, collection]

theorem spelling_property (name : List Char) : (property (String.ofList name)).spelling = name := by
  simp [spelling, property]

theorem ofPiece_of_bracketed {piece name : List Char} (h : Text.trim piece = name ++ ['[', ']']) :
    ofPiece piece = collection (String.ofList name) := by
  simp [ofPiece, h]

theorem ofPiece_of_plain {piece : List Char} (h : ¬ ['[', ']'] <:+ Text.trim piece) :
    ofPiece piece = property (String.ofList (Text.trim piece)) := by
  unfold ofPiece
  simp only
  split
  · rename_i rest hrev
    refine absurd ⟨rest.reverse, ?_⟩ h
    rw [← List.reverse_reverse (Text.trim piece), hrev]
    simp
  · rfl

theorem spelledBy_ofPiece (piece : List Char) : (ofPiece piece).SpelledBy piece := by
  by_cases h : ['[', ']'] <:+ Text.trim piece
  · obtain ⟨name, hname⟩ := h
    rw [ofPiece_of_bracketed hname.symm]
    refine ⟨?_, fun hkind => ?_⟩
    · rw [spelling_collection, hname]
      exact Text.isCore_trim piece
    · cases hkind
  · rw [ofPiece_of_plain h]
    refine ⟨?_, fun _ => by simpa [property] using h⟩
    rw [spelling_property]
    exact Text.isCore_trim piece

/-- **A piece spells one step**, the one that is read. -/
theorem ofPiece_eq_iff {s : Step} {piece : List Char} : ofPiece piece = s ↔ s.SpelledBy piece := by
  refine ⟨fun h => h ▸ spelledBy_ofPiece piece, fun h => ?_⟩
  have htrim := h.core.trim_eq
  obtain ⟨name, kind⟩ := s
  cases kind with
  | property =>
    rw [ofPiece_of_plain (htrim ▸ h.plain rfl), htrim]
    simp [property, spelling]
  | collection =>
    rw [ofPiece_of_bracketed htrim]
    simp [collection]

end Step

/-- The pieces of a text between its dots spell these steps, one each and in order. -/
def Text.Spells (text : String) (steps : List Step) : Prop :=
  List.Forall₂ Step.SpelledBy steps (text.toList.splitOn '.')

theorem Text.spells_iff {text : String} {steps : List Step} :
    Text.Spells text steps ↔ (pieces text.toList).map Step.ofPiece = steps := by
  unfold Text.Spells
  rw [← pieces_eq]
  generalize pieces text.toList = ps
  induction ps generalizing steps with
  | nil => cases steps <;> simp
  | cons p ps ih => cases steps <;> simp [ih, Step.ofPiece_eq_iff]

/-- A text that is not blank is read as the steps it spells. -/
theorem stepsOf_eq_iff {text : String} (h : ∃ c ∈ text.toList, Text.isBlank c = false) {steps : List Step} :
    stepsOf text = steps ↔ Text.Spells text steps := by
  have hne : Text.trim text.toList ≠ [] := by
    obtain ⟨c, hc, hblank⟩ := h
    intro hnil
    have := Text.trim_eq_nil_iff.mp hnil c hc
    rw [hblank] at this
    cases this
  -- a step is read off what is left of its piece
  have hofPiece : ∀ ps : List (List Char), ps.map Step.ofPiece = (ps.map Text.trim).map Step.ofPiece := by
    intro ps
    rw [List.map_map]
    refine List.map_congr_left fun p _ => ?_
    have htwice : Text.trim (Text.trim p) = Text.trim p :=
      Text.IsCore.trim_eq ⟨⟨[], [], by simp⟩, (Text.isCore_trim p).first, (Text.isCore_trim p).last⟩
    simp only [Function.comp_apply, Step.ofPiece, htwice]
  have hsteps : stepsOf text = (pieces (Text.trim text.toList)).map Step.ofPiece := by
    unfold stepsOf
    split
    · rename_i hnil
      exact absurd hnil hne
    · rfl
  rw [Text.spells_iff, hsteps, hofPiece, map_trim_pieces_trim, ← hofPiece]

theorem stepsOf_of_blank {text : String} (h : ∀ c ∈ text.toList, Text.isBlank c = true) : stepsOf text = [] := by
  unfold stepsOf
  rw [Text.trim_eq_nil_iff.mpr h]

/-! ### Names -/

/-- A property name: not empty, and without dots, brackets and blanks. -/
def ValidName (name : String) : Prop :=
  name ≠ "" ∧ ∀ c ∈ name.toList, c ≠ '.' ∧ c ≠ '[' ∧ c ≠ ']' ∧ Text.isBlank c = false

theorem reserved_eq_false_iff {c : Char} :
    reserved c = false ↔ c ≠ '.' ∧ c ≠ '[' ∧ c ≠ ']' ∧ Text.isBlank c = false := by
  simp [reserved, and_assoc]

theorem nameFault?_eq_none_iff {name : String} : nameFault? name = none ↔ ValidName name := by
  unfold nameFault? ValidName
  by_cases hempty : name = ""
  · simp [hempty]
  · simp only [if_neg hempty, ← reserved_eq_false_iff]
    cases hany : name.toList.any reserved with
    | false => simpa [hempty] using List.any_eq_false.mp hany
    | true =>
      obtain ⟨c, hc, hreserved⟩ := List.any_eq_true.mp hany
      simp only [if_true, reduceCtorEq, false_iff, not_and, not_forall]
      exact fun _ => ⟨c, hc, by simp [hreserved]⟩

/-- What is wrong with a name that is not valid. -/
theorem nameFault?_of_not_valid {name : String} (h : ¬ ValidName name) :
    nameFault? name = some (if name = "" then .emptyName else .illegalName) := by
  have hsome : nameFault? name ≠ none := fun hnone => h (nameFault?_eq_none_iff.mp hnone)
  unfold nameFault? at hsome ⊢
  by_cases hempty : name = ""
  · simp [hempty]
  · simp only [if_neg hempty] at hsome ⊢
    split at hsome
    · rename_i hany
      rw [if_pos hany]
    · exact absurd rfl hsome

theorem stepsFault?_eq_none_iff {steps : List Step} :
    stepsFault? steps = none ↔ steps ≠ [] ∧ ∀ s ∈ steps, ValidName s.name := by
  cases steps with
  | nil => simp [stepsFault?]
  | cons s steps => simp [stepsFault?, List.findSome?_eq_none_iff, nameFault?_eq_none_iff]

/-- The first misnamed step is to blame. -/
theorem stepsFault?_of_first {before : List Step} {s : Step} (hbefore : ∀ r ∈ before, ValidName r.name)
    (hs : ¬ ValidName s.name) (after : List Step) :
    stepsFault? (before ++ s :: after) = some (if s.name = "" then .emptyName else .illegalName) := by
  have hfind : (before ++ s :: after).findSome? (fun r => nameFault? r.name) =
      some (if s.name = "" then .emptyName else .illegalName) := by
    have hnone : before.findSome? (fun r => nameFault? r.name) = none :=
      List.findSome?_eq_none_iff.mpr fun r hr => nameFault?_eq_none_iff.mpr (hbefore r hr)
    rw [List.findSome?_append, hnone, Option.none_or, List.findSome?_cons, nameFault?_of_not_valid hs]
  cases before <;> exact hfind

namespace Path

theorem check_eq_ok_iff {blame : String} {steps : List Step} {p : Path} :
    check blame steps = .ok p ↔ p.steps = steps := by
  unfold check
  split
  · rename_i hnone
    constructor
    · intro h
      cases h
      rfl
    · rintro rfl
      rfl
  · rename_i fault hsome
    constructor
    · intro h
      cases h
    · intro h
      rw [← h, p.faultless] at hsome
      cases hsome

theorem check_eq_error_iff {blame : String} {steps : List Step} {e : Error} :
    check blame steps = .error e ↔ ∃ fault, stepsFault? steps = some fault ∧ e = .invalidPath blame fault := by
  unfold check
  split
  · rename_i hnone
    simp [hnone]
  · rename_i fault hsome
    simp [hsome, eq_comm]

theorem exists_check_iff {blame : String} {steps : List Step} :
    (∃ p, check blame steps = .ok p) ↔ steps ≠ [] ∧ ∀ s ∈ steps, ValidName s.name := by
  rw [← stepsFault?_eq_none_iff]
  constructor
  · rintro ⟨p, hp⟩
    exact check_eq_ok_iff.mp hp ▸ p.faultless
  · exact fun h => ⟨⟨steps, h⟩, check_eq_ok_iff.mpr rfl⟩

/-- Reading `text` fails for this reason, and the error reports the text as it was given. -/
def Refused (text reason : String) : Prop :=
  ∃ fault, Path.parse text = .error (.invalidPath text fault) ∧ fault.message = reason

end Path

/-- **The grammar of paths.** A blank text has no steps. Any other spells one list of steps,
piece by piece, and is read as these if they are well named; else it is refused for what is
wrong with the first name that is not. Every error reports the text as it was given. A list of
steps makes a path if it is not empty and all are well named, and so are the steps of every
path. -/
theorem parse_reads_grammar (text : String) (given : List Step) :
    ((∀ c ∈ text.toList, Text.isBlank c = true) → Path.Refused text "path has no steps") ∧
    ((∃ c ∈ text.toList, Text.isBlank c = false) → ∃ steps, Text.Spells text steps ∧
      (∀ others, Text.Spells text others → others = steps) ∧
      ((∃ p, Path.parse text = .ok p) ↔ ∀ s ∈ steps, ValidName s.name) ∧
      (∀ p, Path.parse text = .ok p ↔ p.steps = steps) ∧
      ∀ before s after, steps = before ++ s :: after → (∀ r ∈ before, ValidName r.name) → ¬ ValidName s.name →
        Path.Refused text (if s.name = "" then "empty property name"
          else "property names may not contain `.`, `[`, `]` or whitespace")) ∧
    (∀ e, Path.parse text = .error e → ∃ fault, e = .invalidPath text fault) ∧
    ((∃ p, Path.ofSteps given = .ok p) ↔ given ≠ [] ∧ ∀ s ∈ given, ValidName s.name) ∧
    (∀ p, Path.ofSteps given = .ok p ↔ p.steps = given) ∧
    ∀ p, Path.parse text = .ok p ∨ Path.ofSteps given = .ok p → p.steps ≠ [] ∧ ∀ s ∈ p.steps, ValidName s.name := by
  refine ⟨fun hblank => ?_, fun hink => ?_, fun e he => ?_, Path.exists_check_iff, fun p => Path.check_eq_ok_iff,
    fun p _ => stepsFault?_eq_none_iff.mp p.faultless⟩
  · refine ⟨.noSteps, Path.check_eq_error_iff.mpr ⟨_, ?_, rfl⟩, rfl⟩
    rw [stepsOf_of_blank hblank]
    rfl
  · have hspelled := (stepsOf_eq_iff hink).mp rfl
    have hne : stepsOf text ≠ [] := by
      intro hnil
      rw [hnil] at hspelled
      exact List.splitOnP_ne_nil _ _ (List.forall₂_nil_left_iff.mp hspelled)
    refine ⟨stepsOf text, hspelled, fun others h => ((stepsOf_eq_iff hink).mpr h).symm, ?_,
      fun p => Path.check_eq_ok_iff, fun before s after hsteps hbefore hs => ?_⟩
    · exact Path.exists_check_iff.trans (and_iff_right hne)
    · have hfault := stepsFault?_of_first hbefore hs after
      rw [← hsteps] at hfault
      refine ⟨_, Path.check_eq_error_iff.mpr ⟨_, hfault, rfl⟩, ?_⟩
      split <;> rfl
  · obtain ⟨fault, -, rfl⟩ := Path.check_eq_error_iff.mp he
    exact ⟨fault, rfl⟩

end LiveRules
