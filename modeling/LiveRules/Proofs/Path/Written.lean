/-
# Paths are written and read

A path is written as the spellings of its steps with dots between them. A valid name has
no dot, so the text is cut where it was joined; it has no blank, so nothing is taken off
its ends; and it has no bracket, so no name is taken for a collection's. So every path
reads back as it was. What is read from a text is written as the text without the blanks
around its pieces.

Key definitions: `Text.Tidied`.
Key theorems: `Path.parse_text`, `Path.tidied_of_parse`, `written_and_read`.
-/
import LiveRules.Proofs.Path.Grammar

namespace LiveRules

theorem joinDots_eq (ps : List (List Char)) : joinDots ps = ['.'].intercalate ps := by
  induction ps with
  | nil => rfl
  | cons p ps ih =>
    cases ps with
    | nil => simp [joinDots, List.intercalate]
    | cons q qs =>
      rw [joinDots, ih]
      simp [List.intercalate]

/-- `tidy` is `text` without the blanks around its pieces. -/
def Text.Tidied (text tidy : String) : Prop :=
  ∃ cores, List.Forall₂ Text.IsCore cores (text.toList.splitOn '.') ∧ tidy.toList = ['.'].intercalate cores

theorem Text.Tidied.unique {text tidy tidy' : String} (h : Text.Tidied text tidy) (h' : Text.Tidied text tidy') :
    tidy = tidy' := by
  obtain ⟨cores, hcores, heq⟩ := h
  obtain ⟨cores', hcores', heq'⟩ := h'
  have hsame : ∀ {ps cores cores' : List (List Char)}, List.Forall₂ Text.IsCore cores ps →
      List.Forall₂ Text.IsCore cores' ps → cores = cores' := by
    intro ps cores cores' h h'
    induction h generalizing cores' with
    | nil => exact (List.forall₂_nil_right_iff.mp h').symm
    | cons hp _ ih =>
      cases h' with
      | cons hp' hps' => rw [← hp.trim_eq, ← hp'.trim_eq, ih hps']
  exact String.toList_inj.mp (by rw [heq, heq', hsame hcores hcores'])

/-! ### Writing -/

section

variable {s : Step} (h : ValidName s.name)

include h

/-- Nothing in a spelling is a dot or blank. -/
theorem Step.inked_of_mem_spelling {c : Char} (hc : c ∈ s.spelling) : c ≠ '.' ∧ Text.isBlank c = false := by
  have hname : ∀ d ∈ s.name.toList, d ≠ '.' ∧ Text.isBlank d = false := fun d hd =>
    ⟨(h.2 d hd).1, (h.2 d hd).2.2.2⟩
  unfold Step.spelling at hc
  split at hc
  · exact hname c hc
  · rcases List.mem_append.mp hc with hc | hc
    · exact hname c hc
    · simp only [List.mem_cons, List.not_mem_nil, or_false] at hc
      rcases hc with rfl | rfl <;> decide

theorem Step.spelledBy_spelling : s.SpelledBy s.spelling := by
  refine ⟨⟨⟨[], [], by simp⟩, fun c hc => ?_, fun c hc => ?_⟩, fun _ hsuffix => ?_⟩
  · exact (Step.inked_of_mem_spelling h (List.mem_of_mem_head? hc)).2
  · exact (Step.inked_of_mem_spelling h (List.mem_of_mem_getLast? hc)).2
  · exact (h.2 '[' (hsuffix.subset List.mem_cons_self)).2.1 rfl

theorem Step.spelling_ne_nil : s.spelling ≠ [] := by
  have hname : s.name.toList ≠ [] := fun hnil => h.1 (String.toList_eq_nil_iff.mp hnil)
  unfold Step.spelling
  split
  · exact hname
  · exact List.append_ne_nil_of_left_ne_nil hname _

end

namespace Path

variable {p q : Path}

theorem valid (p : Path) : p.steps ≠ [] ∧ ∀ s ∈ p.steps, ValidName s.name :=
  stepsFault?_eq_none_iff.mp p.faultless

theorem toList_text (p : Path) : p.text.toList = ['.'].intercalate (p.steps.map Step.spelling) := by
  unfold Path.text stepsText
  rw [String.toList_ofList, joinDots_eq]

/-- A path's text is cut into the spellings of its steps. -/
theorem splitOn_text (p : Path) : p.text.toList.splitOn '.' = p.steps.map Step.spelling := by
  rw [toList_text]
  refine List.splitOn_intercalate '.' (fun l hl hdot => ?_) (by simpa using p.valid.1)
  obtain ⟨s, hs, rfl⟩ := List.mem_map.mp hl
  exact (Step.inked_of_mem_spelling (p.valid.2 s hs) hdot).1 rfl

theorem text_inked (p : Path) : ∃ c ∈ p.text.toList, Text.isBlank c = false := by
  obtain ⟨s, rest, hsteps⟩ := List.exists_cons_of_ne_nil p.valid.1
  have hvalid : ValidName s.name := p.valid.2 s (hsteps ▸ List.mem_cons_self)
  obtain ⟨c, hc⟩ := List.exists_mem_of_ne_nil _ (Step.spelling_ne_nil hvalid)
  refine ⟨c, ?_, (Step.inked_of_mem_spelling hvalid hc).2⟩
  rw [toList_text, hsteps, List.map_cons]
  cases rest.map Step.spelling with
  | nil => rwa [List.intercalate_singleton]
  | cons l ls =>
    rw [List.intercalate_cons_cons]
    exact List.mem_append_left _ (List.mem_append_left _ hc)

/-- **What is written reads back.** -/
theorem parse_text (p : Path) : Path.parse p.text = .ok p := by
  have hspells : Text.Spells p.text p.steps := by
    unfold Text.Spells
    rw [splitOn_text, List.forall₂_map_right_iff, List.forall₂_same]
    exact fun s hs => Step.spelledBy_spelling (p.valid.2 s hs)
  exact check_eq_ok_iff.mpr ((stepsOf_eq_iff p.text_inked).mpr hspells).symm

theorem text_injective : Function.Injective Path.text := fun p q h => by
  have hsame := p.parse_text.symm.trans ((congrArg Path.parse h).trans q.parse_text)
  exact Except.ok.inj hsame

/-! ### Reading -/

theorem inked_of_parse {text : String} (h : Path.parse text = .ok p) : ∃ c ∈ text.toList, Text.isBlank c = false := by
  by_contra hnone
  have hblank : stepsOf text = [] := stepsOf_of_blank fun c hc => by
    by_contra hc'
    exact hnone ⟨c, hc, Bool.not_eq_true _ ▸ hc'⟩
  exact p.valid.1 ((check_eq_ok_iff.mp h).trans hblank)

/-- **What is read is written** without the blanks around the pieces. -/
theorem tidied_of_parse {text : String} (h : Path.parse text = .ok p) : Text.Tidied text p.text := by
  have hspells := (stepsOf_eq_iff (inked_of_parse h)).mp (check_eq_ok_iff.mp h).symm
  refine ⟨p.steps.map Step.spelling, ?_, p.toList_text⟩
  rw [List.forall₂_map_left_iff]
  exact hspells.imp fun s piece hs => hs.core

end Path

/-- **Writing and reading** are inverse. A path reads back as it was written, so different
paths are written differently. What a text is read as is written as the text without the
blanks around its pieces, and reads the same; so two texts are read as the same path exactly
if they are the same without these blanks. -/
theorem written_and_read :
    (∀ p : Path, Path.ofSteps p.steps = .ok p ∧ Path.parse p.text = .ok p) ∧ Function.Injective Path.text ∧
    (∀ text p, Path.parse text = .ok p → Text.Tidied text p.text ∧ Path.parse p.text = .ok p) ∧
    ∀ text text' p p', Path.parse text = .ok p → Path.parse text' = .ok p' →
      (p = p' ↔ ∃ tidy, Text.Tidied text tidy ∧ Text.Tidied text' tidy) := by
  refine ⟨fun p => ⟨Path.check_eq_ok_iff.mpr rfl, p.parse_text⟩, Path.text_injective,
    fun text p h => ⟨Path.tidied_of_parse h, p.parse_text⟩, fun text text' p p' h h' => ⟨?_, ?_⟩⟩
  · rintro rfl
    exact ⟨p.text, Path.tidied_of_parse h, Path.tidied_of_parse h'⟩
  · rintro ⟨tidy, htidy, htidy'⟩
    refine Path.text_injective ?_
    rw [(Path.tidied_of_parse h).unique htidy, (Path.tidied_of_parse h').unique htidy']

end LiveRules
