import FormulaFields.Proofs.Cleaning
import FormulaFields.Proofs.Uncommenting

/-!
What cleaning leaves of a formula, said without the machines that do it. The comments are gone as
one reads from left to right, every run of blanks is one space, and no blank stands at the ends. A
slash is kept together with the character behind it, which is neither a slash nor a star, so nothing
that is left opens a comment, and a cleaned formula stays as it is when it is cleaned again. Main
statement: `clean_eq`.
-/
namespace FormulaFields

open Text (Transducer isBlank)

namespace Text

/-! ### Runs of blanks -/

/-- The text with one space for every run of blanks. -/
def spaced : List Char → List Char
  | [] => []
  | c :: rest =>
    if isBlank c then
      if rest.head?.any isBlank then spaced rest else ' ' :: spaced rest
    else c :: spaced rest

/-- Behind a word the machine that collapses blanks owes a space, as long as a word follows. -/
private theorem run_squeezer_eq_spaced (text : List Char)
    (inked : ∀ c ∈ text.getLast?, isBlank c = false) :
    squeezer.run .word text = spaced text ∧
      ∀ c, isBlank c = true → text ≠ [] → squeezer.run .gap text = spaced (c :: text) := by
  induction text with
  | nil => exact ⟨rfl, fun _ _ nonempty => absurd rfl nonempty⟩
  | cons d rest ih =>
    have later : ∀ c ∈ rest.getLast?, isBlank c = false := by
      cases rest with
      | nil => nofun
      | cons e more => rwa [List.getLast?_cons_cons] at inked
    obtain ⟨word, gap⟩ := ih later
    by_cases blank : isBlank d = true
    · -- A blank is not the last character.
      have nonempty : rest ≠ [] := by
        rintro rfl
        simp [blank] at inked
      refine ⟨?_, fun c first _ => ?_⟩
      · rw [← gap d blank nonempty]
        simp [Transducer.run, squeezer, Spacing.step, blank]
      · have owed : spaced (c :: d :: rest) = spaced (d :: rest) := by
          simp [spaced, first, blank]
        rw [owed, ← gap d blank nonempty]
        simp [Transducer.run, squeezer, Spacing.step, blank]
    · refine ⟨?_, fun c first _ => ?_⟩
      · simp [Transducer.run, squeezer, Spacing.step, spaced, blank, ← word]
      · simp [Transducer.run, squeezer, Spacing.step, spaced, first, blank, ← word]

private theorem head?_of_spaced {text : List Char} {c : Char} (inked : isBlank c = false)
    (first : (spaced text).head? = some c) : text.head? = some c := by
  induction text with
  | nil => exact first
  | cons d rest ih =>
    rw [spaced] at first
    split at first
    · split at first
      next run =>
        -- The next character is blank as well, so it is not `c`.
        rw [ih first, Option.any_some, inked] at run
        cases run
      · obtain rfl := Option.some.inj first
        exact absurd inked (by decide)
    · exact first

/-- Characters that stand side by side with one space for every run of blanks stood so before,
unless one of them is blank. -/
theorem infix_of_infix_spaced {x y : Char} (first : isBlank x = false)
    (second : isBlank y = false) {text : List Char} (inside : [x, y] <:+: spaced text) :
    [x, y] <:+: text := by
  induction text with
  | nil => exact inside
  | cons c rest ih =>
    rw [spaced] at inside
    split at inside
    · split at inside
      · exact List.infix_cons (ih inside)
      · rcases List.infix_cons_iff.mp inside with start | later
        · obtain rfl := (List.cons_prefix_cons.mp start).1
          exact absurd first (by decide)
        · exact List.infix_cons (ih later)
    · rcases List.infix_cons_iff.mp inside with start | later
      · obtain ⟨rfl, more, next⟩ := List.cons_prefix_cons.mp start
        have head : rest.head? = some y := head?_of_spaced second (by rw [← next]; rfl)
        obtain ⟨tail, rfl⟩ := List.head?_eq_some_iff.mp head
        exact ⟨[], tail, rfl⟩
      · exact List.infix_cons (ih later)

/-- No blank stands at the ends of a trimmed text. -/
theorem inked_ends_of_trim (text : List Char) :
    (∀ c ∈ (trim text).head?, isBlank c = false) ∧
      ∀ c ∈ (trim text).getLast?, isBlank c = false := by
  constructor
  · intro c first
    obtain ⟨rest, shape⟩ := List.head?_eq_some_iff.mp first
    obtain ⟨gone, whole⟩ : trim text <+: trimStart text := List.rdropWhile_prefix _ _
    -- What is cut off at the end leaves the first character, which is the first that is no blank.
    have start : (text.dropWhile isBlank).head? = some c := by
      rw [← trimStart, ← whole, shape]
      rfl
    simpa [start] using List.head?_dropWhile_not isBlank text
  · intro c last
    obtain ⟨nonempty, rfl⟩ := List.mem_getLast?_eq_getLast last
    have stop : ¬ isBlank ((trim text).getLast nonempty) = true :=
      List.rdropWhile_last_not isBlank (trimStart text) nonempty
    simpa using stop

/-- The words of a text, one space apart, are the trimmed text with one space for each run. -/
theorem collapse_eq_spaced (text : List Char) : collapse text = spaced (trim text) := by
  obtain ⟨before, after, whole, front, back⟩ := Formula.exists_trim text
  obtain ⟨head, last⟩ := inked_ends_of_trim text
  have same : collapse text = collapse (trim text) := by
    conv_lhs => rw [whole]
    exact collapse_blanks front back _
  rw [same, collapse_eq_run, ← (run_squeezer_eq_spaced _ last).1]
  -- A text that begins with a word is read as if a word had been before it.
  cases shape : trim text with
  | nil => rfl
  | cons c rest =>
    have inked : isBlank c = false := head c (by rw [shape]; rfl)
    simp [Transducer.run, squeezer, Spacing.step, inked]

/-! ### Words -/

private theorem words_append_blank {c : Char} (blank : isBlank c = true)
    (first second : List Char) :
    words (first ++ c :: second) = words first ++ words second := by
  rw [words, List.splitOnP_append_cons first second blank, List.filter_append]
  rfl

private theorem inked_of_mem_splitOnP {text piece : List Char}
    (member : piece ∈ text.splitOnP isBlank) : ∀ c ∈ piece, isBlank c = false := by
  induction text generalizing piece with
  | nil =>
    obtain rfl : piece = [] := by simpa [List.splitOnP_nil] using member
    exact nofun
  | cons d rest ih =>
    rw [List.splitOnP_cons_eq_if_modifyHead] at member
    split at member
    · rcases List.mem_cons.mp member with rfl | later
      · exact nofun
      · exact ih later
    next inked =>
      obtain ⟨first, more, split⟩ :=
        List.exists_cons_of_ne_nil (List.splitOnP_ne_nil isBlank rest)
      rw [split, List.modifyHead_cons] at member
      rw [split] at ih
      rcases List.mem_cons.mp member with rfl | later
      · exact List.forall_mem_cons.mpr ⟨by simpa using inked, ih List.mem_cons_self⟩
      · exact ih (List.mem_cons_of_mem first later)

/-- Words that are written one space apart are read back. -/
private theorem words_intercalate {list : List (List Char)}
    (fine : ∀ word ∈ list, word ≠ [] ∧ ∀ c ∈ word, isBlank c = false) :
    words ([' '].intercalate list) = list := by
  induction list with
  | nil => rfl
  | cons first rest ih =>
    obtain ⟨⟨nonempty, inked⟩, others⟩ := List.forall_mem_cons.mp fine
    have alone : words first = [first] := by
      rw [words, List.splitOnP_eq_singleton (by simpa using inked)]
      simpa using nonempty
    cases rest with
    | nil => simpa using alone
    | cons second more =>
      rw [List.intercalate_cons_cons, List.append_assoc, List.singleton_append,
        words_append_blank (by decide), alone, ih others]
      rfl

/-- Collapsed blanks stay as they are. -/
theorem collapse_collapse (text : List Char) : collapse (collapse text) = collapse text := by
  have same : words (collapse text) = words text :=
    words_intercalate fun word member =>
      have ⟨piece, shown⟩ := List.mem_filter.mp member
      ⟨by simpa using shown, inked_of_mem_splitOnP piece⟩
  rw [collapse, same, ← collapse]

end Text

namespace Formula

/-! ### Comments, read from left to right -/

private theorem length_after?_le (part text : List Char) :
    ((Text.after? part text).getD []).length ≤ text.length := by
  induction text with
  | nil => cases part <;> simp [Text.after?]
  | cons c rest ih =>
    rw [Text.after?]
    split
    · simp
    · exact ih.trans (Nat.le_succ _)

/-- The text without its comments: two slashes go with all up to the newline, a slash and a star go
with all through the first star and slash behind them, and every other character is kept. -/
def withoutComments : List Char → List Char
  | '/' :: '/' :: rest => withoutComments (rest.dropWhile (· != '\n'))
  | '/' :: '*' :: rest => withoutComments ((Text.after? ['*', '/'] rest).getD [])
  | c :: rest => c :: withoutComments rest
  | [] => []
termination_by text => text.length
decreasing_by
  · have shorter := (List.dropWhile_suffix (l := rest) (· != '\n')).length_le
    simp only [List.length_cons]
    omega
  · have shorter := length_after?_le ['*', '/'] rest
    simp only [List.length_cons]
    omega
  · simp

private theorem run_line_eq (text : List Char) :
    uncommenter.run .line text = uncomment (text.dropWhile (· != '\n')) := by
  induction text with
  | nil => rfl
  | cons c rest ih =>
    by_cases newline : c = '\n'
    · subst newline
      rfl
    · have within : uncommenter.step .line c = (.line, []) := by
        simp [uncommenter, CommentMode.step]
      rw [Transducer.run, within, List.nil_append, ih]
      simp [newline]

private theorem run_block_eq (text : List Char) :
    uncommenter.run .block text = uncomment ((Text.after? ['*', '/'] text).getD []) ∧
      uncommenter.run .star text = uncomment ((Text.after? ['*', '/'] ('*' :: text)).getD []) := by
  induction text with
  | nil => exact ⟨rfl, rfl⟩
  | cons c rest ih =>
    obtain ⟨block, star⟩ := ih
    by_cases starred : c = '*'
    · subst starred
      exact ⟨star, star⟩
    · have fromBlock : uncommenter.step .block c = (.block, []) := by
        simp [uncommenter, CommentMode.step]
      have passed : Text.after? ['*', '/'] (c :: rest) = Text.after? ['*', '/'] rest := by
        rw [Text.after?, if_neg (by simp [List.isPrefixOf, Ne.symm starred])]
      refine ⟨by rw [Transducer.run, fromBlock, passed]; exact block, ?_⟩
      by_cases slash : c = '/'
      · subst slash
        rfl
      · have fromStar : uncommenter.step .star c = (.block, []) := by
          simp [uncommenter, CommentMode.step]
        have opener : Text.after? ['*', '/'] ('*' :: c :: rest) = Text.after? ['*', '/'] rest := by
          rw [Text.after?, if_neg (by simp [List.isPrefixOf, Ne.symm slash]), passed]
        rw [Transducer.run, fromStar, opener]
        exact block

/-- A slash that opens nothing is kept. -/
private theorem run_slash_eq {rest : List Char}
    (plain : ∀ c ∈ rest.head?, c ≠ '/' ∧ c ≠ '*') :
    uncommenter.run .slash rest = '/' :: uncomment rest := by
  cases rest with
  | nil => rfl
  | cons c more =>
    obtain ⟨slash, star⟩ := plain c rfl
    have kept : uncommenter.step .slash c = (.code, ['/', c]) := by
      simp [uncommenter, CommentMode.step]
    have next : uncommenter.step .code c = (.code, [c]) := by
      simp [uncommenter, CommentMode.step]
    rw [uncomment, Transducer.run, Transducer.run, kept, next]
    rfl

/-- The reader of comments keeps what one keeps who reads from left to right. -/
theorem uncomment_eq (text : List Char) : uncomment text = withoutComments text := by
  fun_induction withoutComments text with
  | case1 rest ih => exact (run_line_eq rest).trans ih
  | case2 rest ih => exact (run_block_eq rest).1.trans ih
  | case3 c rest line block ih =>
    by_cases slash : c = '/'
    · subst slash
      -- Neither a slash nor a star follows, or one of the first two cases would have applied.
      have plain : ∀ d ∈ rest.head?, d ≠ '/' ∧ d ≠ '*' := by
        intro d first
        obtain ⟨more, shape⟩ := List.head?_eq_some_iff.mp first
        exact ⟨fun same => line more rfl (same ▸ shape), fun same => block more rfl (same ▸ shape)⟩
      rw [← ih]
      exact run_slash_eq plain
    · have kept : uncommenter.step .code c = (.code, [c]) := by
        simp [uncommenter, CommentMode.step]
      rw [uncomment, Transducer.run, kept, ← ih]
      rfl
  | case4 => rfl

/-! ### No comments are left -/

private theorem not_opensComment_cons {c : Char} {text : List Char} (other : c ≠ '/')
    (plain : ¬ OpensComment text) : ¬ OpensComment (c :: text) := by
  have behind {d : Char} (inside : ['/', d] <:+: c :: text) : ['/', d] <:+: text := by
    rcases List.infix_cons_iff.mp inside with start | later
    · exact absurd (List.cons_prefix_cons.mp start).1.symm other
    · exact later
  exact fun opens => plain (opens.imp behind behind)

/-- One step keeps nothing, or a character that is no slash, or the slash that waited together with
a character that opens no comment behind it. -/
private theorem kept_of_step (m : CommentMode) (c : Char) :
    (m.step c).2 = [] ∨ (c ≠ '/' ∧ (m.step c).2 = [c]) ∨
      (c ≠ '/' ∧ c ≠ '*' ∧ (m.step c).2 = ['/', c]) := by
  unfold CommentMode.step
  split <;> simp_all

/-- Whatever the reader of comments is reading, nothing that it keeps opens a comment. -/
private theorem not_opensComment_run (m : CommentMode) (text : List Char) :
    ¬ OpensComment (uncommenter.run m text) := by
  induction text generalizing m with
  | nil => cases m <;> decide
  | cons c rest ih =>
    rw [Transducer.run, show uncommenter.step m c = m.step c from rfl]
    rcases kept_of_step m c with none | ⟨slash, one⟩ | ⟨slash, star, two⟩
    · rw [none]
      exact ih _
    · rw [one]
      exact not_opensComment_cons slash (ih _)
    · rw [two]
      intro opens
      have waited : OpensComment (['/'] ++ c :: uncommenter.run (m.step c).1 rest) := opens
      rcases opensComment_append_cons slash star waited with alone | later
      · exact absurd alone (by decide)
      · exact ih _ later

theorem not_opensComment_collapse {text : List Char} (plain : ¬ OpensComment text) :
    ¬ OpensComment (Text.collapse text) := by
  have inked : isBlank '/' = false ∧ isBlank '*' = false := by decide
  rw [Text.collapse_eq_spaced]
  rintro (line | block)
  · have kept := Text.infix_of_infix_spaced inked.1 inked.1 line
    exact plain (Or.inl (kept.trans (isInfix_trim text)))
  · have kept := Text.infix_of_infix_spaced inked.1 inked.2 block
    exact plain (Or.inr (kept.trans (isInfix_trim text)))

/-- Cleaning takes the comments out as one reads from left to right, makes one space of every run of
blanks and trims the ends. It leaves nothing that opens a comment, so cleaning again changes
nothing, and the fields of a formula are those of the cleaned formula. -/
theorem clean_eq (formula : String) :
    (clean formula).toList = Text.spaced (Text.trim (withoutComments formula.toList)) ∧
      ¬ OpensComment (clean formula).toList ∧ clean (clean formula) = clean formula ∧
      ∀ v : Vocabulary, v.fields formula = v.fields (clean formula) := by
  have chars : (clean formula).toList = Text.collapse (uncomment formula.toList) :=
    String.toList_ofList
  have plain : ¬ OpensComment (clean formula).toList := by
    rw [chars]
    exact not_opensComment_collapse (not_opensComment_run .code _)
  have again : clean (clean formula) = clean formula := by
    rw [clean, uncomment_eq_self plain, chars, Text.collapse_collapse]
    rfl
  refine ⟨?_, plain, again, fun v => (v.fields_of_clean again).symm⟩
  rw [chars, Text.collapse_eq_spaced, uncomment_eq]

end Formula

end FormulaFields
