import FormulaFields.Formula.Comment
import FormulaFields.Proofs.StatementView

/-!
What cleaning leaves of a formula. Once the comments are out, the blanks are collapsed, and this
the search for fields cannot see: between tokens blanks only keep them apart, at the ends they do
nothing, and within quoted texts only equals signs count. Main statement: `sight_clean`. It makes
the search a matter of the text without its comments.
-/
namespace FormulaFields

open Formula
open Text (Transducer isBlank)

namespace Text

/-! ### Collapsing as a machine -/

/-- Where in a text the machine that collapses blanks stands. -/
inductive Spacing where
  /-- Before the first word. -/
  | start
  | word
  /-- In the blanks behind a word. -/
  | gap
  deriving DecidableEq, Repr

/-- A blank is owed behind a word and paid in front of the next one. -/
def Spacing.step : Spacing → Char → Spacing × List Char
  | .start, c => if isBlank c then (.start, []) else (.word, [c])
  | .word, c => if isBlank c then (.gap, []) else (.word, [c])
  | .gap, c => if isBlank c then (.gap, []) else (.word, [' ', c])

def squeezer : Transducer Spacing Char Char := ⟨Spacing.step, fun _ => []⟩

private theorem words_cons_blank {c : Char} (blank : isBlank c = true) (rest : List Char) :
    words (c :: rest) = words rest := by
  simp [words, List.splitOnP_cons_eq_if_modifyHead, blank]

private theorem splitOnP_cons_inked {c : Char} (inked : isBlank c = false) (rest : List Char) :
    (c :: rest).splitOnP isBlank = (rest.splitOnP isBlank).modifyHead (c :: ·) := by
  rw [List.splitOnP_cons_eq_if_modifyHead, if_neg (by simp [inked])]

private theorem intercalate_cons (first : List Char) (more : List (List Char)) :
    [' '].intercalate (first :: more) = first ++ more.flatMap (' ' :: ·) := by
  induction more generalizing first with
  | nil => simp
  | cons second rest ih =>
    rw [List.intercalate_cons_cons, ih]
    simp

/-- Inside a word the machine writes what is left of it, and then the other words. -/
private theorem run_squeezer (text : List Char) :
    squeezer.run .gap text = (words text).flatMap (' ' :: ·) ∧
      ∃ first more, text.splitOnP isBlank = first :: more ∧
        squeezer.run .word text =
          first ++ (more.filter (!·.isEmpty)).flatMap (' ' :: ·) := by
  induction text with
  | nil => exact ⟨rfl, [], [], rfl, rfl⟩
  | cons c rest ih =>
    obtain ⟨gap, first, more, split, word⟩ := ih
    by_cases blank : isBlank c = true
    · refine ⟨?_, [], first :: more, ?_, ?_⟩
      · rw [words_cons_blank blank, ← gap]
        simp [Transducer.run, squeezer, Spacing.step, blank]
      · rw [List.splitOnP_cons_eq_if_modifyHead, if_pos blank, split]
      · rw [List.nil_append, ← split, ← words, ← gap]
        simp [Transducer.run, squeezer, Spacing.step, blank]
    · have inked : isBlank c = false := by simpa using blank
      have begun : (c :: rest).splitOnP isBlank = (c :: first) :: more := by
        rw [splitOnP_cons_inked inked, split, List.modifyHead_cons]
      refine ⟨?_, c :: first, more, begun, ?_⟩
      · rw [words, begun]
        simpa [Transducer.run, squeezer, Spacing.step, inked] using word
      · simpa [Transducer.run, squeezer, Spacing.step, inked] using word

/-- Collapsing blanks is a run of the machine. -/
theorem collapse_eq_run (text : List Char) : collapse text = squeezer.run .start text := by
  induction text with
  | nil => rfl
  | cons c rest ih =>
    by_cases blank : isBlank c = true
    · rw [collapse, words_cons_blank blank, ← collapse, ih]
      simp [Transducer.run, squeezer, Spacing.step, blank]
    · have inked : isBlank c = false := by simpa using blank
      obtain ⟨_, first, more, split, word⟩ := run_squeezer rest
      have kept : words (c :: rest) = (c :: first) :: more.filter (!·.isEmpty) := by
        rw [words, splitOnP_cons_inked inked, split, List.modifyHead_cons]
        rfl
      rw [collapse, kept, intercalate_cons]
      simpa [Transducer.run, squeezer, Spacing.step, inked] using word.symm

private theorem run_squeezer_blanks (m : Spacing) {blanks : List Char}
    (blank : ∀ c ∈ blanks, isBlank c = true) : squeezer.run m blanks = [] := by
  induction blanks generalizing m with
  | nil => rfl
  | cons c rest ih =>
    obtain ⟨first, later⟩ := List.forall_mem_cons.mp blank
    have silent : (squeezer.step m c).2 = [] := by
      cases m <;> simp [squeezer, Spacing.step, first]
    rw [Transducer.run, silent, List.nil_append, ih _ later]

/-- Blanks around a text make no difference to its words. -/
theorem collapse_blanks {before after : List Char} (front : ∀ c ∈ before, isBlank c = true)
    (back : ∀ c ∈ after, isBlank c = true) (text : List Char) :
    collapse (before ++ text ++ after) = collapse text := by
  rw [List.append_assoc]
  induction before with
  | nil =>
    rw [List.nil_append, collapse_eq_run, collapse_eq_run, Transducer.run_append,
      run_squeezer_blanks _ back, Transducer.run_eq]
    rfl
  | cons c rest ih =>
    obtain ⟨first, later⟩ := List.forall_mem_cons.mp front
    have waiting : squeezer.step .start c = (.start, []) := by
      simp [squeezer, Spacing.step, first]
    rw [← ih later, collapse_eq_run, collapse_eq_run, List.cons_append, Transducer.run, waiting]
    rfl

end Text

namespace Formula

/-! ### Blanks out of sight -/

/-- `sight` on characters. -/
def sightOf (text : List Char) : List Token := sight (String.ofList text)

theorem sightOf_eq (text : List Char) :
    sightOf text = (Lexeme.tokens (Lexeme.reader.run none text)).map Token.gist := by
  rw [sightOf, sight, tokens, lexemes, String.toList_ofList]

private theorem gist_quoted {x y : List Char} (same : '=' ∈ x ↔ '=' ∈ y) :
    (⟨.quoted, String.ofList x⟩ : Token).gist = (⟨.quoted, String.ofList y⟩ : Token).gist := by
  simp only [Token.gist, if_true, String.toList_ofList, same]

/-- Of what an open quoted text has taken only the equals signs matter, whatever follows. -/
private theorem run_quoted (quote : Char) {x y : List Char} (same : '=' ∈ x ↔ '=' ∈ y)
    (rest : List Char) :
    (Lexeme.tokens (Lexeme.reader.run (some ⟨.quoted quote, x⟩) rest)).map Token.gist =
      (Lexeme.tokens (Lexeme.reader.run (some ⟨.quoted quote, y⟩) rest)).map Token.gist := by
  have shown {z : List Char} : '=' ∈ z.reverse ↔ '=' ∈ z := List.mem_reverse
  induction rest generalizing x y with
  | nil =>
    have alike := gist_quoted (shown.trans (same.trans shown.symm))
    simpa [Transducer.run, Lexeme.reader, Lexeme.finish, Growing.token, Munch.kind,
      Lexeme.tokens, Lexeme.token?] using alike
  | cons c rest ih =>
    have next : '=' ∈ c :: x ↔ '=' ∈ c :: y := by simp [same]
    by_cases closing : c = quote
    · -- The text is closed, and what follows is read as if nothing had been before.
      have closed (z : List Char) : Lexeme.reader.run (some ⟨.quoted quote, z⟩) (c :: rest) =
          .token ⟨.quoted, String.ofList (c :: z).reverse⟩ :: Lexeme.reader.run none rest := by
        have one : Munch.read? (.quoted quote) [c] = some (.whole .quoted) := by
          simp [Munch.read?, Munch.extend?, closing]
        have stop : ∀ d, rest.head? = some d → Munch.extend? (.whole .quoted) d = none :=
          fun _ _ => rfl
        rw [← List.singleton_append, Lexeme.run_read one]
        exact Lexeme.run_end _ stop
      have alike := gist_quoted (shown.trans (next.trans shown.symm))
      rw [closed, closed, Lexeme.tokens_token, Lexeme.tokens_token, List.map_cons, List.map_cons,
        alike]
    · have open_ (z : List Char) : Lexeme.reader.run (some ⟨.quoted quote, z⟩) (c :: rest) =
          Lexeme.reader.run (some ⟨.quoted quote, c :: z⟩) rest := by
        have one : Munch.read? (.quoted quote) [c] = some (.quoted quote) := by
          simp [Munch.read?, Munch.extend?, closing]
        rw [← List.singleton_append, Lexeme.run_read one]
        rfl
      rw [open_, open_]
      exact ih next

/-- The search cannot tell what stands in a quoted text, equals signs apart. -/
theorem sightOf_quoted {quote : Char} (symbol : quote ∈ ['\x22', '\x27']) {x y : List Char}
    (outside : quote ∉ x) (outside' : quote ∉ y) (same : '=' ∈ x ↔ '=' ∈ y) (rest : List Char) :
    sightOf (quote :: (x ++ rest)) = sightOf (quote :: (y ++ rest)) := by
  have opened {z : List Char} (absent : quote ∉ z) :
      Lexeme.reader.run none (quote :: (z ++ rest)) =
        Lexeme.reader.run (some ⟨.quoted quote, z.reverse ++ [quote]⟩) rest := by
    have first : Lexeme.reader.step none quote = (some ⟨.quoted quote, [quote]⟩, []) := by
      rcases eq_or_eq_of_mem_quotes symbol with rfl | rfl <;> rfl
    rw [Transducer.run, first, List.nil_append, Lexeme.run_read (Munch.read?_quoted absent)]
  rw [sightOf_eq, sightOf_eq, opened outside, opened outside']
  apply run_quoted
  simp [same]

theorem delimits_of_blank {c : Char} (blank : isBlank c = true) : delimits c = true := by
  have apart : isNamePart c = false := by
    apply Bool.eq_false_iff.mpr
    intro part
    rw [not_blank_of_namePart part] at blank
    cases blank
  have other : c ∉ ['.', '+', '-', '=', '&', '|'] := by
    intro member
    simp only [List.mem_cons, List.not_mem_nil, or_false] at member
    rcases member with rfl | rfl | rfl | rfl | rfl | rfl <;> exact absurd blank (by decide)
  simp only [delimits, apart, List.contains_eq_mem, other, decide_false, Bool.not_false,
    Bool.and_self]

theorem delimits_of_quote {quote : Char} (symbol : quote ∈ ['\x22', '\x27']) :
    delimits quote = true := by
  rcases eq_or_eq_of_mem_quotes symbol with rfl | rfl <;> decide

theorem sightOf_append {first second : List Char}
    (closed : Lexeme.Sealed (lexemes (String.ofList first)))
    (delimited : ∀ c ∈ second.head?, delimits c = true) :
    sightOf (first ++ second) = sightOf first ++ sightOf second := by
  simp only [sightOf, sight, tokens, String.ofList_append]
  rw [lexemes_append closed (by rwa [String.toList_ofList]), Lexeme.tokens_append, List.map_append]

/-- A quote begins a token of its own, unless a quoted text is open before it. -/
theorem sightOf_append_quote {first : List Char}
    (closed : Lexeme.Sealed (lexemes (String.ofList first))) {quote : Char}
    (symbol : quote ∈ ['\x22', '\x27']) (rest : List Char) :
    sightOf (first ++ quote :: rest) = sightOf first ++ sightOf (quote :: rest) := by
  apply sightOf_append closed
  rintro c ⟨⟩
  exact delimits_of_quote symbol

/-- What leaves a quoted text open ends with it. -/
theorem exists_open_of_not_sealed {text : List Char}
    (unsealed : ¬ Lexeme.Sealed (lexemes (String.ofList text))) :
    ∃ before quote body, text = before ++ quote :: body ∧ quote ∈ ['\x22', '\x27'] ∧
      quote ∉ body ∧ Lexeme.Sealed (lexemes (String.ofList before)) := by
  have settled := Lexeme.settled_lexemes (String.ofList text)
  have whole : Lexeme.render (lexemes (String.ofList text)) = text := by
    rw [render_lexemes, String.toList_ofList]
  rcases List.eq_nil_or_concat (lexemes (String.ofList text)) with none | ⟨front, x, last⟩
  · exact absurd (by simp [none, Lexeme.Sealed]) unsealed
  · rw [last, List.concat_eq_append] at settled whole unsealed
    have closed : Lexeme.Sealed front := by simpa using settled.sealed_dropLast
    have unclosed : x.IsOpen := by
      by_contra sealed_
      refine unsealed (settled.sealed_of_getLast? fun y final => ?_)
      rw [List.getLast?_concat] at final
      exact Option.some.inj final ▸ sealed_
    cases x with
    | blank c => exact unclosed.elim
    | token t =>
      obtain ⟨m, single, quote, rfl⟩ := unclosed
      obtain ⟨quote, body, chars, symbol, ⟨_, absent⟩ | ⟨⟨⟩, _⟩⟩ :=
        Munch.quoted_of_ofChars? single rfl
      refine ⟨Lexeme.render front, quote, body, ?_, symbol, absent, ?_⟩
      · rw [← whole, Lexeme.render_append, Lexeme.render_cons, Lexeme.chars, chars,
          Lexeme.render_nil, List.append_nil]
      · rwa [Lexeme.lexemes_of_settled settled.left]

private theorem sightOf_cons_blank {c : Char} (blank : isBlank c = true) (rest : List Char) :
    sightOf (c :: rest) = sightOf rest := by
  simp [sightOf_eq, Transducer.run, Lexeme.reader, Lexeme.step, blank]

/-- A blank keeps what is before it apart from what follows, unless a quoted text is open. -/
theorem sightOf_append_blank {text : List Char}
    (closed : Lexeme.Sealed (lexemes (String.ofList text))) {c : Char} (blank : isBlank c = true)
    (rest : List Char) : sightOf (text ++ c :: rest) = sightOf text ++ sightOf rest := by
  have delimited : ∀ d ∈ (c :: rest).head?, delimits d = true := by
    rintro d ⟨⟩
    exact delimits_of_blank blank
  rw [sightOf_append closed delimited, sightOf_cons_blank blank]

/-- A blank disappears in the quoted text that is open before it. -/
theorem sightOf_append_blank_of_open {text : List Char}
    (unsealed : ¬ Lexeme.Sealed (lexemes (String.ofList text))) {c : Char}
    (blank : isBlank c = true) (rest : List Char) :
    sightOf (text ++ c :: rest) = sightOf (text ++ rest) := by
  obtain ⟨before, quote, body, rfl, symbol, absent, closed⟩ := exists_open_of_not_sealed unsealed
  have other : quote ≠ c := by
    rintro rfl
    rcases eq_or_eq_of_mem_quotes symbol with rfl | rfl <;> exact absurd blank (by decide)
  have equals : '=' ≠ c := by
    rintro rfl
    exact absurd blank (by decide)
  -- The blank is in the quoted text, and nothing but an equals sign would be seen there.
  have within := sightOf_quoted (x := body ++ [c]) symbol (by simp [absent, other]) absent
    (by simp [equals]) rest
  rw [List.append_assoc, List.singleton_append] at within
  rw [List.append_assoc, List.append_assoc, List.cons_append, List.cons_append,
    sightOf_append_quote closed symbol, sightOf_append_quote closed symbol, within]

/-- Blanks are all alike, one as good as many, and at the end of a text they do nothing. -/
private theorem sightOf_blanks (text : List Char) {c d : Char} (first : isBlank c = true)
    (second : isBlank d = true) (rest : List Char) :
    sightOf (text ++ c :: rest) = sightOf (text ++ d :: rest) ∧
      sightOf (text ++ c :: d :: rest) = sightOf (text ++ c :: rest) ∧
      sightOf (text ++ [c]) = sightOf text := by
  by_cases closed : Lexeme.Sealed (lexemes (String.ofList text))
  · simp only [sightOf_append_blank closed first, sightOf_append_blank closed second,
      sightOf_cons_blank second, true_and]
    exact List.append_nil _
  · simp only [sightOf_append_blank_of_open closed first,
      sightOf_append_blank_of_open closed second, List.append_nil, and_self]

/-- The machine that collapses blanks writes nothing the search could tell from what it reads. -/
private theorem sightOf_squeezed (text : List Char) :
    (∀ before, sightOf (before ++ Text.squeezer.run .word text) = sightOf (before ++ text)) ∧
      ∀ before, sightOf (before ++ Text.squeezer.run .gap text) =
        sightOf (before ++ ' ' :: text) := by
  have space : isBlank ' ' = true := by decide
  induction text with
  | nil =>
    refine ⟨fun _ => rfl, fun before => ?_⟩
    have ending := (sightOf_blanks before space space []).2.2
    rw [ending, show Text.squeezer.run .gap [] = [] from rfl, List.append_nil]
  | cons c rest ih =>
    obtain ⟨word, gap⟩ := ih
    by_cases blank : isBlank c = true
    · -- The blank is owed, be it the first one behind a word or a further one.
      have owed : Text.squeezer.run .word (c :: rest) = Text.squeezer.run .gap rest ∧
          Text.squeezer.run .gap (c :: rest) = Text.squeezer.run .gap rest := by
        simp [Transducer.run, Text.squeezer, Text.Spacing.step, blank]
      rw [owed.1, owed.2]
      refine ⟨fun before => ?_, fun before => ?_⟩
      · rw [gap, (sightOf_blanks before space blank rest).1]
      · rw [gap, (sightOf_blanks before space blank rest).2.1]
    · have inked : isBlank c = false := by simpa using blank
      refine ⟨fun before => ?_, fun before => ?_⟩
      · have later := word (before ++ [c])
        simpa [Transducer.run, Text.squeezer, Text.Spacing.step, inked] using later
      · have later := word (before ++ [' ', c])
        simpa [Transducer.run, Text.squeezer, Text.Spacing.step, inked] using later

theorem sightOf_collapse (text : List Char) : sightOf (Text.collapse text) = sightOf text := by
  rw [Text.collapse_eq_run]
  induction text with
  | nil => rfl
  | cons c rest ih =>
    by_cases blank : isBlank c = true
    · rw [sightOf_cons_blank blank, ← ih]
      simp [Transducer.run, Text.squeezer, Text.Spacing.step, blank]
    · have word := (sightOf_squeezed rest).1 [c]
      simpa [Transducer.run, Text.squeezer, Text.Spacing.step, blank] using word

/-- A cleaned formula looks like the formula without its comments. -/
theorem sight_clean (formula : String) :
    sight (clean formula) = sightOf (uncomment formula.toList) :=
  sightOf_collapse (uncomment formula.toList)

end Formula

namespace Vocabulary

variable (v : Vocabulary)

/-- Formulas that are cleaned alike have the same fields. -/
theorem fields_of_clean {first second : String} (same : clean first = clean second) :
    v.fields first = v.fields second := by
  rw [fields, fields, script, script, same]

/-- What quoted texts hold makes no difference to the fields. -/
theorem fieldsOfTokens_gist (ts : List Token) :
    v.fieldsOfTokens (ts.map Token.gist) = v.fieldsOfTokens ts := by
  rw [(relabels_gist v).fieldsOfTokens_map, List.map_id]
  apply Std.ExtTreeSet.ext_mem
  intro name
  rw [Std.ExtTreeSet.mem_ofList, List.contains_iff_mem, Std.ExtTreeSet.mem_toList]

/-- The fields of a formula are those of what is seen of it without its comments. -/
theorem fields_eq_sightOf (formula : String) :
    v.fields formula = v.fieldsOfTokens (sightOf (uncomment formula.toList)) := by
  rw [← sight_clean, sight, fieldsOfTokens_gist, fields_eq]

end Vocabulary

end FormulaFields
