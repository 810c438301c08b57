import FormulaFields.Proofs.Cleaning
import FormulaFields.Proofs.PrintedStatements
import FormulaFields.Proofs.Uncommenting

/-!
Quoted texts among the other tokens of a formula. Comments are taken out before quotes are known, so
a quoted text that opens a comment has no end of its own. That is all it can do to the fields: two
quoted texts can be told apart, in some formula, exactly where they leave the reader of comments in
different places.
-/
namespace FormulaFields

open Formula
open Text (Transducer)

namespace Formula

/-- A text between two quotes. -/
def quoted (quote : Char) (body : String) : String :=
  String.singleton quote ++ body ++ String.singleton quote

/-- A text that stays between its quotes and that nobody looks at there: it holds no such quote and
no equals sign. -/
@[mk_iff]
structure Hidden (quote : Char) (body : String) : Prop where
  quote : quote ∉ body.toList
  equals : '=' ∉ body.toList

instance (quote : Char) (body : String) : Decidable (Hidden quote body) :=
  decidable_of_iff _ (hidden_iff quote body).symm

/-- Behind such a text a quote begins a quoted text: no comment is opened, no slash waits to open
one, and no other quoted text is open. -/
@[mk_iff]
structure Clear (text : String) : Prop where
  plain : ¬ OpensComment text.toList
  last : text.toList.getLast? ≠ some '/'
  closed : ∀ t ∈ tokens text, ¬ t.IsUnterminated

instance : DecidablePred Clear := fun text =>
  decidable_of_iff _ (clear_iff text).symm

/-! ### Comments across a quote -/

/-- A quote neither opens nor closes a comment, but it settles whether a slash or a star did. -/
private theorem run_quote (m : CommentMode) {quote : Char} (symbol : quote ∈ ['\x22', '\x27'])
    (rest : List Char) :
    uncommenter.run m (quote :: rest) =
      m.finish ++ uncommenter.run (m.step quote).1 (quote :: rest) := by
  rcases eq_or_eq_of_mem_quotes symbol with rfl | rfl <;> cases m <;> rfl

/-- Behind a text stands what the comments in it leave of what follows the quote. -/
theorem uncomment_append_quote {quote : Char} (symbol : quote ∈ ['\x22', '\x27'])
    (body rest : List Char) :
    uncomment (body ++ quote :: rest) =
      uncomment body ++ uncommenter.run (commentMode (body ++ [quote])) (quote :: rest) := by
  have kept : uncomment body = uncommenter.written .code body ++ (commentMode body).finish :=
    uncommenter.run_eq .code body
  rw [kept, uncomment, Transducer.run_append, run_quote _ symbol, List.append_assoc]
  simp only [commentMode, Transducer.after_append]
  rfl

theorem commentMode_append_quote {quote : Char} (symbol : quote ∈ ['\x22', '\x27'])
    (body : List Char) : commentMode (body ++ [quote]) ∈ [.code, .line, .block] := by
  rw [commentMode, Transducer.after_append]
  rcases eq_or_eq_of_mem_quotes symbol with rfl | rfl <;>
    cases uncommenter.after .code body <;> decide

/-- A text that opens no comment opens none with a quote behind it. -/
theorem commentMode_append_quote_eq_code {quote : Char} (symbol : quote ∈ ['\x22', '\x27'])
    {body : List Char} (plain : ¬ OpensComment body) : commentMode (body ++ [quote]) = .code := by
  have other : quote ≠ '/' ∧ quote ≠ '*' := by
    rcases eq_or_eq_of_mem_quotes symbol with rfl | rfl <;> decide
  have within {c : Char} (ends : quote ≠ c) (opens : ['/', c] <:+: body ++ [quote]) :
      ['/', c] <:+: body := by
    rcases List.infix_concat_iff.mp opens with ending | inside
    · simp only [List.suffix_concat_iff, reduceCtorEq, false_or] at ending
      obtain ⟨first, same, _⟩ := ending
      have final := congrArg List.getLast? same
      rw [List.getLast?_concat] at final
      exact absurd (Option.some.inj final).symm ends
    · exact inside
  have last : (body ++ [quote]).getLast? ≠ some '/' := by simp [other.1]
  exact (uncomment_of_not_opensComment
    (fun opens => plain (opens.imp (within other.1) (within other.2))) last).1

/-- Of a quoted text the search sees where it leaves the reader of comments, and nothing else. -/
theorem sightOf_uncomment_quoted {before : String} (clear : Clear before) {quote : Char}
    (symbol : quote ∈ ['\x22', '\x27']) {body : String} (hidden : Hidden quote body)
    (rest : String) :
    sightOf (uncomment (before ++ quoted quote body ++ rest).toList) =
      sightOf before.toList ++ sightOf (quote ::
        uncommenter.run (commentMode (body.toList ++ [quote])) (quote :: rest.toList)) := by
  obtain ⟨outside, kept⟩ := uncomment_of_not_opensComment clear.plain clear.last
  have sealed_ : Lexeme.Sealed (lexemes (String.ofList before.toList)) := by
    rw [String.ofList_toList]
    exact sealed_of_terminated clear.closed
  have opening (text : List Char) : uncomment (quote :: text) = quote :: uncomment text := by
    rcases eq_or_eq_of_mem_quotes symbol with rfl | rfl <;> rfl
  have spelled : (before ++ quoted quote body ++ rest).toList =
      before.toList ++ quote :: (body.toList ++ quote :: rest.toList) := by
    simp [quoted]
  -- What the comments leave of the body is hidden like the body itself.
  have absent : quote ∉ uncomment body.toList :=
    fun member => hidden.quote ((uncomment_sublist body.toList).subset member)
  have equals : '=' ∉ uncomment body.toList :=
    fun member => hidden.equals ((uncomment_sublist body.toList).subset member)
  have unseen := sightOf_quoted symbol absent (y := []) List.not_mem_nil (by simp [equals])
    (uncommenter.run (commentMode (body.toList ++ [quote])) (quote :: rest.toList))
  rw [spelled, uncomment_append outside, kept, opening, sightOf_append_quote sealed_ symbol,
    uncomment_append_quote symbol, unseen]
  rfl

end Formula

namespace Vocabulary

/-- Neither operators nor rules are known, so that every name can be a field. -/
private def bare : Vocabulary where
  operators := ∅
  rules := ∅

/-- A name right behind the second quote is seen outside comments only. -/
private theorem contains_next {quote : Char} (symbol : quote ∈ ['\x22', '\x27'])
    {m : CommentMode} (mode : m ∈ [.code, .line, .block]) :
    (bare.fieldsOfTokens (sightOf (quote :: uncommenter.run m [quote, 'x']))).contains "x" =
      (m == .code) := by
  simp only [List.mem_cons, List.not_mem_nil, or_false] at mode
  rcases eq_or_eq_of_mem_quotes symbol with rfl | rfl <;>
    rcases mode with rfl | rfl | rfl <;> decide +kernel

/-- On the next line, and behind one more quote, it is seen behind a line comment only. -/
private theorem contains_nextLine {quote : Char} (symbol : quote ∈ ['\x22', '\x27'])
    {m : CommentMode} (mode : m ∈ [.code, .line, .block]) :
    (bare.fieldsOfTokens
        (sightOf (quote :: uncommenter.run m [quote, '\n', quote, 'x']))).contains "x" =
      (m == .line) := by
  simp only [List.mem_cons, List.not_mem_nil, or_false] at mode
  rcases eq_or_eq_of_mem_quotes symbol with rfl | rfl <;>
    rcases mode with rfl | rfl | rfl <;> decide +kernel

/-- What is seen from the first quote on tells in which of three places the second one was read. -/
private theorem eq_of_fields_eq {quote : Char} (symbol : quote ∈ ['\x22', '\x27'])
    {m m' : CommentMode} (mode : m ∈ [.code, .line, .block]) (mode' : m' ∈ [.code, .line, .block])
    (unseen : ∀ rest : List Char,
      bare.fieldsOfTokens (sightOf (quote :: uncommenter.run m (quote :: rest))) =
        bare.fieldsOfTokens (sightOf (quote :: uncommenter.run m' (quote :: rest)))) :
    m = m' := by
  have atOnce := congrArg (·.contains "x") (unseen ['x'])
  have behindLine := congrArg (·.contains "x") (unseen ['\n', quote, 'x'])
  simp only [contains_next symbol mode, contains_next symbol mode'] at atOnce
  simp only [contains_nextLine symbol mode, contains_nextLine symbol mode'] at behindLine
  simp only [List.mem_cons, List.not_mem_nil, or_false] at mode mode'
  rcases mode with rfl | rfl | rfl <;> rcases mode' with rfl | rfl | rfl <;>
    first
      | rfl
      | exact absurd atOnce (by decide)
      | exact absurd behindLine (by decide)

/-- Quoted texts that leave the reader of comments in one place have the same fields around them. -/
private theorem fields_quoted (v : Vocabulary) {before : String} (clear : Clear before)
    {quote : Char} (symbol : quote ∈ ['\x22', '\x27']) {body body' : String}
    (hidden : Hidden quote body) (hidden' : Hidden quote body')
    (same : commentMode (body.toList ++ [quote]) = commentMode (body'.toList ++ [quote]))
    (rest : String) :
    v.fields (before ++ quoted quote body ++ rest) =
      v.fields (before ++ quoted quote body' ++ rest) := by
  rw [fields_eq_sightOf, fields_eq_sightOf, sightOf_uncomment_quoted clear symbol hidden,
    sightOf_uncomment_quoted clear symbol hidden', same]

/-- Quoted texts that open no comment have the same fields around them. -/
theorem fields_quoted_of_not_opensComment (v : Vocabulary) {before : String}
    (clear : Clear before) {quote : Char} (symbol : quote ∈ ['\x22', '\x27'])
    {body body' : String} (hidden : Hidden quote body) (hidden' : Hidden quote body')
    (plain : ¬ OpensComment body.toList) (plain' : ¬ OpensComment body'.toList) (rest : String) :
    v.fields (before ++ quoted quote body ++ rest) =
      v.fields (before ++ quoted quote body' ++ rest) := by
  apply v.fields_quoted clear symbol hidden hidden'
  rw [commentMode_append_quote_eq_code symbol plain, commentMode_append_quote_eq_code symbol plain']

/-- No two quoted texts could be told apart, whatever is in them. -/
def QuotesOpaque : Prop :=
  ∀ (v : Vocabulary) (before : String), Clear before → ∀ quote ∈ ['\x22', '\x27'],
    ∀ body body' : String, Hidden quote body → Hidden quote body' → ∀ rest : String,
      v.fields (before ++ quoted quote body ++ rest) =
        v.fields (before ++ quoted quote body' ++ rest)

/-- The field of `"//" + close` is lost, for the quoted text ends in a comment. -/
theorem not_quotesOpaque : ¬ QuotesOpaque := by
  intro hide
  have same := hide bare "" (by decide) '\x22' (by decide) "//" "" (by decide)
    (by decide) " + close"
  exact absurd (congrArg (·.contains "close") same) (by decide +kernel)

/-- Two quoted texts are alike to the search, whatever stands around them, exactly where they leave
the reader of comments in the same place. -/
theorem fields_quoted_iff {quote : Char} (symbol : quote ∈ ['\x22', '\x27'])
    {body body' : String} (hidden : Hidden quote body) (hidden' : Hidden quote body') :
    (∀ (v : Vocabulary) (before : String), Clear before → ∀ rest : String,
        v.fields (before ++ quoted quote body ++ rest) =
          v.fields (before ++ quoted quote body' ++ rest)) ↔
      commentMode (body.toList ++ [quote]) = commentMode (body'.toList ++ [quote]) := by
  constructor
  · intro unseen
    apply eq_of_fields_eq symbol (commentMode_append_quote symbol body.toList)
      (commentMode_append_quote symbol body'.toList)
    intro rest
    have clear : Clear "" := by decide
    have shown := unseen bare "" clear (String.ofList rest)
    rw [fields_eq_sightOf, fields_eq_sightOf, sightOf_uncomment_quoted clear symbol hidden,
      sightOf_uncomment_quoted clear symbol hidden'] at shown
    simpa only [String.toList_ofList, String.toList_empty, show sightOf [] = [] from rfl,
      List.nil_append] using shown
  · intro same v before clear rest
    exact v.fields_quoted clear symbol hidden hidden' same rest

/-- A block comment that is closed within the quotes does not matter. -/
theorem fields_quoted_iff_bounds :
    Hidden '\x22' "0, /* low */ 1" ∧ Hidden '\x22' "0, 1" ∧
      commentMode ("0, /* low */ 1".toList ++ ['\x22']) = commentMode ("0, 1".toList ++ ['\x22']) ∧
      fields ⟨.ofList ["bucket", "rank"], ∅, 50⟩
          ("bucket(rank(cap), range=" ++ quoted '\x22' "0, /* low */ 1" ++ ") + close") =
        fields ⟨.ofList ["bucket", "rank"], ∅, 50⟩
          ("bucket(rank(cap), range=" ++ quoted '\x22' "0, 1" ++ ") + close") := by
  have first : Hidden '\x22' "0, /* low */ 1" := by decide
  have second : Hidden '\x22' "0, 1" := by decide
  have same : commentMode ("0, /* low */ 1".toList ++ ['\x22']) =
      commentMode ("0, 1".toList ++ ['\x22']) := by decide
  have clear : Clear "bucket(rank(cap), range=" := by decide +kernel
  exact ⟨first, second, same, (fields_quoted_iff (by decide) first second).mpr same _ _ clear _⟩

end Vocabulary

end FormulaFields
