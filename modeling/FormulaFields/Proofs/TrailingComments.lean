import FormulaFields.Proofs.Cleaning
import FormulaFields.Proofs.ListedAlphas
import FormulaFields.Proofs.Uncommenting

/-!
A comment behind a formula. It makes no difference to the fields, nor do blanks around the formula.
What is asked about is read off the raw input, though, and an address in the comment counts there:
a comment can turn a formula into the name of a listed alpha, and in no other way does it matter.
-/
namespace FormulaFields

open Formula
open Text (Transducer isBlank)

namespace Formula

/-! ### Blanks around a formula -/

/-- Behind a blank the reader owes what it owed before, and perhaps the blank. -/
private theorem exists_step_blank (m : CommentMode) {c : Char} (blank : isBlank c = true) :
    ∃ kept, (m.step c).2 ++ (m.step c).1.finish = m.finish ++ kept ∧
      ∀ d ∈ kept, isBlank d = true := by
  have slash : c ≠ '/' := by
    rintro rfl
    exact absurd blank (by decide)
  have star : c ≠ '*' := by
    rintro rfl
    exact absurd blank (by decide)
  cases m with
  | code => exact ⟨[c], by simp [CommentMode.step, CommentMode.finish], by simpa using blank⟩
  | slash =>
    exact ⟨[c], by simp [CommentMode.step, CommentMode.finish], by simpa using blank⟩
  | line =>
    by_cases ending : c = '\n'
    · exact ⟨[c], by simp [CommentMode.step, CommentMode.finish, ending], by simpa using blank⟩
    · exact ⟨[], by simp [CommentMode.step, CommentMode.finish], by simp⟩
  | block => exact ⟨[], by simp [CommentMode.step, CommentMode.finish], by simp⟩
  | star => exact ⟨[], by simp [CommentMode.step, CommentMode.finish], by simp⟩

private theorem exists_run_blanks (m : CommentMode) {blanks : List Char}
    (blank : ∀ c ∈ blanks, isBlank c = true) :
    ∃ left, uncommenter.run m blanks = m.finish ++ left ∧ ∀ c ∈ left, isBlank c = true := by
  induction blanks generalizing m with
  | nil => exact ⟨[], (List.append_nil _).symm, nofun⟩
  | cons c rest ih =>
    obtain ⟨first, later⟩ := List.forall_mem_cons.mp blank
    obtain ⟨kept, one, alike⟩ := exists_step_blank m first
    obtain ⟨left, more, alike'⟩ := ih (m.step c).1 later
    refine ⟨kept ++ left, ?_, ?_⟩
    · rw [Transducer.run, show uncommenter.step m c = m.step c from rfl, more, ← List.append_assoc,
        one, List.append_assoc]
    · exact List.forall_mem_append.mpr ⟨alike, alike'⟩

/-- Trimming a formula takes away only what cleaning takes away. -/
theorem clean_trimmed (text : String) : clean (Text.trimmed text) = clean text := by
  obtain ⟨before, after, whole, front, back⟩ := exists_trim text.toList
  have slash : '/' ∉ before := fun member => absurd (front _ member) (by decide)
  obtain ⟨code, kept⟩ := uncomment_of_no_slash slash
  obtain ⟨left, behind, blank⟩ :=
    exists_run_blanks (commentMode (Text.trim text.toList)) back
  have read : uncomment (Text.trim text.toList ++ after) =
      uncomment (Text.trim text.toList) ++ left := by
    have first : uncomment (Text.trim text.toList) =
        uncommenter.written .code (Text.trim text.toList) ++
          (commentMode (Text.trim text.toList)).finish := uncommenter.run_eq .code _
    rw [first, uncomment, Transducer.run_append, List.append_assoc]
    exact congrArg _ behind
  rw [clean, clean, Text.trimmed, String.toList_ofList]
  conv => rhs; rw [whole]
  rw [List.append_assoc, uncomment_append code, kept, read, ← List.append_assoc,
    Text.collapse_blanks front blank]

/-! ### A comment behind a formula -/

/-- A formula with a comment that ends its line. -/
def withComment (formula comment : String) : String := formula ++ " //" ++ comment

private theorem run_line {comment : List Char} (line : '\n' ∉ comment) :
    uncommenter.run .line comment = [] := by
  induction comment with
  | nil => rfl
  | cons c rest ih =>
    have other : c ≠ '\n' := (List.ne_of_not_mem_cons line).symm
    have within : uncommenter.step .line c = (.line, []) := by
      simp [uncommenter, CommentMode.step]
    rw [Transducer.run, within, ih (List.not_mem_of_not_mem_cons line)]
    rfl

theorem clean_withComment {formula comment : String} (plain : ¬ OpensComment formula.toList)
    (last : formula.toList.getLast? ≠ some '/') (line : '\n' ∉ comment.toList) :
    clean (withComment formula comment) = clean formula := by
  obtain ⟨code, kept⟩ := uncomment_of_not_opensComment plain last
  have spelled : (withComment formula comment).toList =
      formula.toList ++ ' ' :: '/' :: '/' :: comment.toList := by
    simp [withComment]
  have gone : uncomment (' ' :: '/' :: '/' :: comment.toList) = [' '] :=
    congrArg (' ' :: ·) (run_line line)
  have space : ∀ c ∈ [' '], isBlank c = true := List.forall_mem_singleton.mpr (by decide)
  have ending : Text.collapse (formula.toList ++ [' ']) = Text.collapse formula.toList :=
    Text.collapse_blanks (List.forall_mem_nil _) space formula.toList
  rw [clean, clean, spelled, uncomment_append code, gone, kept]
  exact congrArg String.ofList ending

end Formula

/-! ### Inputs that name no alpha -/

theorem Reference.name_of_no_address {platform input : String}
    (absent : ¬ platform.toList <:+: input.toList) :
    (ofInput platform input).name = Text.trimmed input := by
  have trimmed : ¬ platform.toList <:+: Text.trim input.toList :=
    fun holds => absent (holds.trans (isInfix_trim input.toList))
  rw [ofInput, (Text.after?_eq_none_iff _ _).mpr trimmed]
  split <;> rfl

theorem formulaOf?_eq_none {alphas : List Alpha} {id : String}
    (unlisted : ∀ a ∈ alphas, a.id ≠ id) : formulaOf? alphas id = none := by
  have none : alphas.find? (·.id == id) = none := by simpa using unlisted
  rw [formulaOf?, none]
  rfl

/-- Where an input names no listed alpha, the check is one of the input as a formula. -/
theorem check_of_unlisted {v : Vocabulary} {platform input : String}
    {listing : Option (List Alpha)}
    (unlisted : formulaOf? (listing.getD []) (Reference.ofInput platform input).name = none) :
    check v platform listing input =
      { alpha := none
        fields := v.fields input
        matching := listing.map fun alphas =>
          (UsageIndex.ofAlphas v alphas).lookup (v.fields input).toList } := by
  rw [check, Subject.ofInput_of_unlisted unlisted]
  simp only [v.fields_of_clean (clean_trimmed input)]

/-- The input is a formula and nothing else: it holds no comment and no address, and it is the id of
no listed alpha. -/
@[mk_iff]
structure IsFormula (platform : String) (alphas : List Alpha) (input : String) : Prop where
  plain : ¬ OpensComment input.toList
  last : input.toList.getLast? ≠ some '/'
  address : ¬ platform.toList <:+: input.toList
  unlisted : ∀ a ∈ alphas, a.id ≠ Text.trimmed input

instance (platform : String) (alphas : List Alpha) (input : String) :
    Decidable (IsFormula platform alphas input) :=
  decidable_of_iff _ (isFormula_iff platform alphas input).symm

/-- A listing of one alpha. -/
def oneAlpha : List Alpha := [⟨"A", some "REGULAR", some ⟨"open", none⟩⟩]

/-- A comment behind a formula would never change a check. -/
def CommentsIgnored : Prop :=
  ∀ (v : Vocabulary) (platform : String) (listing : Option (List Alpha))
    (formula comment : String), IsFormula platform (listing.getD []) formula →
      '\n' ∉ comment.toList →
        check v platform listing (withComment formula comment) = check v platform listing formula

/-- A link in the comment is followed. -/
theorem not_commentsIgnored : ¬ CommentsIgnored := by
  intro ignored
  have same := ignored ⟨∅, ∅, defaultDepthLimit⟩ defaultPlatform (some oneAlpha) "close"
    " https://platform.worldquantbrain.com/alpha/A" (by decide +kernel) (by decide +kernel)
  exact absurd (congrArg (·.alpha) same) (by decide +kernel)

/-- A comment behind a formula changes a check exactly where the commented text names a listed alpha
that has code. It does not if it brings no address with it and the whole text is no id. -/
theorem check_withComment (v : Vocabulary) {platform : String} {listing : Option (List Alpha)}
    {formula comment : String} (formulaOnly : IsFormula platform (listing.getD []) formula)
    (line : '\n' ∉ comment.toList) :
    (check v platform listing (withComment formula comment) = check v platform listing formula ↔
        formulaOf? (listing.getD [])
          (Reference.ofInput platform (withComment formula comment)).name = none) ∧
      (¬ platform.toList <:+: (withComment formula comment).toList →
        (∀ a ∈ listing.getD [], a.id ≠ Text.trimmed (withComment formula comment)) →
          check v platform listing (withComment formula comment) =
            check v platform listing formula) := by
  have bare : formulaOf? (listing.getD []) (Reference.ofInput platform formula).name = none := by
    rw [Reference.name_of_no_address formulaOnly.address]
    exact formulaOf?_eq_none formulaOnly.unlisted
  have fields : v.fields (withComment formula comment) = v.fields formula :=
    v.fields_of_clean (clean_withComment formulaOnly.plain formulaOnly.last line)
  have same (unlisted : formulaOf? (listing.getD [])
      (Reference.ofInput platform (withComment formula comment)).name = none) :
      check v platform listing (withComment formula comment) =
        check v platform listing formula := by
    rw [check_of_unlisted unlisted, check_of_unlisted bare, fields]
  refine ⟨⟨fun equal => ?_, same⟩, fun absent unlisted => same ?_⟩
  · -- The check of the formula alone names no alpha.
    have unnamed := congrArg FieldReport.alpha equal
    rw [check_of_unlisted bare] at unnamed
    cases stated : formulaOf? (listing.getD [])
        (Reference.ofInput platform (withComment formula comment)).name with
    | none => rfl
    | some code =>
      rw [check, Subject.ofInput_of_listed stated] at unnamed
      cases unnamed
  · rw [Reference.name_of_no_address absent]
    exact formulaOf?_eq_none unlisted

/-- A link to an alpha that is not listed does no harm. -/
theorem check_withComment_unlisted :
    IsFormula defaultPlatform oneAlpha "close / volume" ∧
      '\n' ∉ " as https://platform.worldquantbrain.com/alpha/B?tab=pnl".toList ∧
      check ⟨∅, ∅, 50⟩ defaultPlatform (some oneAlpha) (withComment "close / volume"
          " as https://platform.worldquantbrain.com/alpha/B?tab=pnl") =
        check ⟨∅, ∅, 50⟩ defaultPlatform (some oneAlpha) "close / volume" := by
  have formulaOnly : IsFormula defaultPlatform ((some oneAlpha).getD []) "close / volume" := by
    decide +kernel
  have line : '\n' ∉ " as https://platform.worldquantbrain.com/alpha/B?tab=pnl".toList := by
    decide +kernel
  have unlisted : formulaOf? oneAlpha (Reference.ofInput defaultPlatform
      (withComment "close / volume"
        " as https://platform.worldquantbrain.com/alpha/B?tab=pnl")).name = none := by
    decide +kernel
  have same := check_withComment ⟨∅, ∅, 50⟩ formulaOnly line
  exact ⟨formulaOnly, line, same.1.mpr unlisted⟩

end FormulaFields
