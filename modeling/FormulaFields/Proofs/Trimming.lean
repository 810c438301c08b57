import FormulaFields.Formula.Nesting
import FormulaFields.Proofs.Slices
import Mathlib.Data.List.DropRight

/-!
What trimming a text does to its tokens. Blanks at the ends are no tokens, so nothing happens to
them, with one exception: a quoted text that is never closed may end in blanks and loses these. No
search for fields can tell, for all it sees of a quoted text is whether an equals sign is in it.
That view of a token is its gist, and the gists of a text are the sight of it.
-/
namespace FormulaFields.Formula

open Text (isBlank)

/-- A token as the search for fields sees it: of a quoted text only whether it holds an equals
sign. -/
def Token.gist (t : Token) : Token :=
  if t.kind = .quoted then ⟨.quoted, if '=' ∈ t.text.toList then "=" else ""⟩ else t

/-- The token without the blanks at its end. -/
def Token.trimmed (t : Token) : Token := ⟨t.kind, String.ofList (Text.trimEnd t.text.toList)⟩

/-- The tokens of a text as the search for fields sees them. -/
def sight (text : String) : List Token := (tokens text).map Token.gist

/-! ### Trimming characters -/

private theorem trimEnd_eq (text : List Char) : Text.trimEnd text = text.rdropWhile isBlank := rfl

private theorem mem_trimEnd {c : Char} (inked : isBlank c = false) (text : List Char) :
    c ∈ Text.trimEnd text ↔ c ∈ text := by
  rw [trimEnd_eq]
  induction text using List.reverseRecOn with
  | nil => rfl
  | append_singleton rest d ih =>
    rw [List.rdropWhile_concat]
    split
    next blank =>
      have other : c ≠ d := by
        rintro rfl
        simp [inked] at blank
      simp [ih, other]
    · rfl

private theorem trimEnd_append {first second : List Char} (inked : Text.trimEnd second ≠ []) :
    Text.trimEnd (first ++ second) = first ++ Text.trimEnd second := by
  rw [trimEnd_eq] at inked ⊢
  have kept : (second.reverse.dropWhile isBlank).isEmpty = false := by
    simpa [List.rdropWhile] using inked
  rw [trimEnd_eq, List.rdropWhile, List.rdropWhile, List.reverse_append, List.dropWhile_append,
    if_neg (by simp [kept]), List.reverse_append, List.reverse_reverse]

private theorem trimEnd_of_inked {text : List Char} (inked : ∀ c ∈ text, isBlank c = false) :
    Text.trimEnd text = text := by
  rw [trimEnd_eq, List.rdropWhile_eq_self_iff]
  intro some
  simp [inked _ (List.getLast_mem some)]

private theorem trimEnd_concat {text : List Char} {c : Char} (inked : isBlank c = false) :
    Text.trimEnd (text ++ [c]) = text ++ [c] := by
  rw [trimEnd_eq]
  exact List.rdropWhile_concat_neg _ _ _ (by simp [inked])

private theorem trimEnd_append_blanks (text : List Char) {blanks : List Char}
    (blank : ∀ c ∈ blanks, isBlank c = true) :
    Text.trimEnd (text ++ blanks) = Text.trimEnd text := by
  induction blanks using List.reverseRecOn with
  | nil => rw [List.append_nil]
  | append_singleton rest c ih =>
    simp only [List.mem_append, List.mem_singleton] at blank
    rw [← List.append_assoc, trimEnd_eq, List.rdropWhile_concat_pos _ _ _ (blank c (Or.inr rfl)),
      ← trimEnd_eq]
    exact ih fun d member => blank d (Or.inl member)

/-- Blanks around a text make no difference to what is left of it. -/
theorem trim_blanks {before after : List Char} (front : ∀ c ∈ before, isBlank c = true)
    (back : ∀ c ∈ after, isBlank c = true) (text : List Char) :
    Text.trim (before ++ text ++ after) = Text.trim text := by
  have start : Text.trimStart (before ++ text ++ after) = Text.trimStart (text ++ after) := by
    rw [Text.trimStart, List.append_assoc, List.dropWhile_append_of_pos front]
    rfl
  rw [Text.trim, Text.trim, start, Text.trimStart, List.dropWhile_append]
  split
  next none =>
    -- Nothing is left of the text, nor of the blanks behind it.
    have behind : after.dropWhile isBlank = [] := List.dropWhile_eq_nil_iff.mpr back
    rw [Text.trimStart, List.isEmpty_iff.mp none, behind]
  · exact trimEnd_append_blanks _ back

/-- Trimming takes off blanks and nothing else. -/
theorem exists_trim (text : List Char) : ∃ before after, text = before ++ Text.trim text ++ after ∧
    (∀ c ∈ before, isBlank c = true) ∧ ∀ c ∈ after, isBlank c = true := by
  refine ⟨text.takeWhile isBlank, (Text.trimStart text).rtakeWhile isBlank, ?_, ?_, ?_⟩
  · rw [List.append_assoc]
    have whole : Text.trim text ++ (Text.trimStart text).rtakeWhile isBlank = Text.trimStart text :=
      List.rdropWhile_append_rtakeWhile
    rw [whole]
    exact List.takeWhile_append_dropWhile.symm
  · exact fun c => List.mem_takeWhile_imp
  · exact fun c => List.mem_rtakeWhile_imp

/-- What is trimmed has no blanks around it. -/
theorem trim_trim (text : List Char) : Text.trim (Text.trim text) = Text.trim text := by
  obtain ⟨before, after, whole, front, back⟩ := exists_trim text
  have again := trim_blanks front back (Text.trim text)
  rw [← whole] at again
  exact again.symm

theorem isInfix_trim (text : List Char) : Text.trim text <:+: text := by
  obtain ⟨before, after, whole, _⟩ := exists_trim text
  exact ⟨before, after, whole.symm⟩

/-- A text without blanks at its ends stays when blanks are trimmed off it and what follows it. -/
theorem exists_trim_append {first : List Char} (nonempty : first ≠ [])
    (head : ∀ c ∈ first.head?, isBlank c = false)
    (last : ∀ c ∈ first.getLast?, isBlank c = false) (second : List Char) :
    ∃ kept, Text.trim (first ++ second) = first ++ kept ∧ kept <+: second := by
  obtain ⟨before, after, whole, front, back⟩ := exists_trim (first ++ second)
  obtain rfl : before = [] := by
    cases before with
    | nil => rfl
    | cons c rest =>
      obtain ⟨d, more, rfl⟩ := List.exists_cons_of_ne_nil nonempty
      have inked := head d rfl
      obtain ⟨rfl, _⟩ := List.cons.inj whole
      rw [front d List.mem_cons_self] at inked
      cases inked
  rw [List.nil_append] at whole
  rcases List.append_eq_append_iff.mp whole with ⟨kept, left, right⟩ | ⟨cut, left, right⟩
  · exact ⟨kept, left, after, right.symm⟩
  · -- What is trimmed off at the end is blank, and the first text does not end so.
    rcases List.eq_nil_or_concat cut with rfl | ⟨rest, c, rfl⟩
    · exact ⟨[], by simpa using left.symm, List.nil_prefix⟩
    · have inked := last c (by rw [left, List.concat_eq_append, ← List.append_assoc,
        List.getLast?_concat]; rfl)
      rw [back c (by simp [right])] at inked
      cases inked

theorem mem_trim {c : Char} (inked : isBlank c = false) {text : List Char} (member : c ∈ text) :
    c ∈ Text.trim text := by
  obtain ⟨before, after, whole, front, back⟩ := exists_trim text
  rw [whole, List.mem_append, List.mem_append] at member
  rcases member with (blank | inside) | blank
  · simp [front c blank] at inked
  · exact inside
  · simp [back c blank] at inked

private theorem not_blank_of_quote {quote : Char} (symbol : quote ∈ ['\x22', '\x27']) :
    isBlank quote = false := by
  rcases eq_or_eq_of_mem_quotes symbol with rfl | rfl <;> decide

private theorem trimEnd_quoted {quote : Char} {rest : List Char}
    (symbol : quote ∈ ['\x22', '\x27']) (absent : quote ∉ rest) :
    ∃ body, Text.trimEnd (quote :: rest) = quote :: body ∧ quote ∉ body := by
  -- The quote is no blank, so it is still there and still comes first.
  have start : quote ∈ Text.trimEnd (quote :: rest) :=
    (mem_trimEnd (not_blank_of_quote symbol) _).mpr List.mem_cons_self
  obtain ⟨gone, cut⟩ : Text.trimEnd (quote :: rest) <+: quote :: rest :=
    List.rdropWhile_prefix _ _
  cases kept : Text.trimEnd (quote :: rest) with
  | nil => simp [kept] at start
  | cons d body =>
    rw [kept, List.cons_append] at cut
    obtain ⟨rfl, rfl⟩ := List.cons.inj cut
    exact ⟨body, rfl, fun inside => absent (List.mem_append_left _ inside)⟩

namespace Lexeme

/-- A token that is no open quoted text ends with a character that is not blank. -/
private theorem trimEnd_of_closed {t : Token} (sound : Sound (.token t))
    (closed : ¬ IsOpen (.token t)) : Text.trimEnd t.text.toList = t.text.toList := by
  obtain ⟨m, single, _⟩ := sound
  by_cases quoted : m.kind = .quoted
  · obtain ⟨quote, rest, text, symbol, ⟨rfl, _⟩ | ⟨_, body, rfl⟩⟩ :=
      Munch.quoted_of_ofChars? single quoted
    · exact absurd ⟨_, single, quote, rfl⟩ closed
    · rw [text, ← List.cons_append]
      exact trimEnd_concat (not_blank_of_quote symbol)
  · exact trimEnd_of_inked (Munch.not_blank_of_ofChars? single quoted)

theorem trimmed_of_closed {t : Token} (sound : Sound (.token t)) (closed : ¬ IsOpen (.token t)) :
    t.trimmed = t := by
  rw [Token.trimmed, trimEnd_of_closed sound closed, String.ofList_toList]

private theorem map_trimmed_of_sealed {ls : List Lexeme} (settled : Settled ls)
    (closed : Sealed ls) : (tokens ls).map Token.trimmed = tokens ls := by
  have same : ∀ t ∈ tokens ls, t.trimmed = t := fun t member =>
    trimmed_of_closed (settled.sound _ (mem_tokens.mp member)) (closed _ (mem_tokens.mp member))
  rw [List.map_congr_left same, List.map_id']

/-- Trimming makes a token of a token, and both begin alike. -/
private theorem sound_trimmed {t : Token} (sound : Sound (.token t)) :
    Sound (.token t.trimmed) ∧ t.trimmed.text.toList.head? = t.text.toList.head? := by
  by_cases unclosed : IsOpen (.token t)
  -- An open text loses its blanks at the end and stays open.
  · obtain ⟨m, single, kind⟩ := sound
    obtain ⟨m', single', quote, rfl⟩ := unclosed
    obtain rfl := Option.some.inj (single'.symm.trans single)
    obtain ⟨quote, rest, text, symbol, ⟨same, absent⟩ | ⟨⟨⟩, _⟩⟩ :=
      Munch.quoted_of_ofChars? single rfl
    cases same
    obtain ⟨body, trimmed, outside⟩ := trimEnd_quoted symbol absent
    have chars : t.trimmed.text.toList = quote :: body := by
      rw [Token.trimmed, String.toList_ofList, text, trimmed]
    refine ⟨⟨.quoted quote, ?_, kind⟩, ?_⟩
    · rw [chars]
      exact Munch.ofChars?_open symbol outside
    · rw [chars, text]
      rfl
  · rw [trimmed_of_closed sound unclosed]
    exact ⟨sound, rfl⟩

private theorem gist_trimmed {t : Token} (sound : Sound (.token t)) :
    t.trimmed.gist = t.gist := by
  by_cases quoted : t.kind = .quoted
  · have equals : '=' ∈ t.trimmed.text.toList ↔ '=' ∈ t.text.toList := by
      rw [Token.trimmed, String.toList_ofList]
      exact mem_trimEnd (by decide) _
    have kind : t.trimmed.kind = .quoted := quoted
    simp only [Token.gist, quoted, kind, if_true, equals]
  · -- Only quoted texts are ever open.
    have closed : ¬ IsOpen (.token t) := by
      rintro ⟨m, single, quote, rfl⟩
      obtain ⟨m', same, kind⟩ := sound
      obtain rfl := Option.some.inj (single.symm.trans same)
      exact quoted kind.symm
    rw [trimmed_of_closed sound closed]

private theorem exists_trimEnd {ls : List Lexeme} (settled : Settled ls) :
    ∃ ks, Settled ks ∧ render ks = Text.trimEnd (render ls) ∧
      tokens ks = (tokens ls).map Token.trimmed := by
  induction ls using List.reverseRecOn with
  | nil => exact ⟨[], trivial, rfl, rfl⟩
  | append_singleton rest x ih =>
    cases x with
    | blank c =>
      obtain ⟨ks, fine, text, alike⟩ := ih settled.left
      have blank : isBlank c = true := settled.right.1
      refine ⟨ks, fine, ?_, ?_⟩
      · rw [text, render_append]
        exact (List.rdropWhile_concat_pos _ _ _ blank).symm
      · rw [alike, tokens_append]
        simp
    | token t =>
      obtain ⟨sound, first⟩ := sound_trimmed settled.right.1
      have text : t.trimmed.text.toList = Text.trimEnd t.text.toList := String.toList_ofList
      -- Trimming stops inside the last token and leaves all before it alone.
      have inked : Text.trimEnd t.text.toList ≠ [] := text ▸ sound.chars_ne_nil
      refine ⟨rest ++ [.token t.trimmed], ?_, ?_, ?_⟩
      · have single : Settled [.token t.trimmed] := ⟨sound, nofun, trivial⟩
        apply settled.left.append single
        intro y last c following
        apply settled.ends y last c
        simpa [chars, first] using following
      · rw [render_append, render_append, render_cons, render_cons, render_nil, List.append_nil,
          List.append_nil, chars, chars, text, trimEnd_append inked]
      · have early : Sealed rest := by simpa using settled.sealed_dropLast
        simp [map_trimmed_of_sealed settled.left early]

private theorem exists_trimStart {ls : List Lexeme} (settled : Settled ls) :
    ∃ first second, ls = first ++ second ∧ tokens first = [] ∧
      render second = Text.trimStart (render ls) := by
  induction ls with
  | nil => exact ⟨[], [], rfl, rfl, rfl⟩
  | cons x rest ih =>
    cases x with
    | blank c =>
      obtain ⟨first, second, rfl, none, text⟩ := ih settled.2.2
      have blank : isBlank c = true := settled.1
      refine ⟨.blank c :: first, second, rfl, none, ?_⟩
      rw [text, render_cons, chars]
      simp [Text.trimStart, blank]
    | token t =>
      obtain ⟨m, single, _⟩ := settled.1
      refine ⟨[], .token t :: rest, rfl, rfl, ?_⟩
      cases text : t.text.toList with
      | nil => rw [text] at single; cases single
      | cons c more =>
        rw [text, Munch.ofChars?] at single
        split at single
        · cases single
        next inked => simp [chars, text, Text.trimStart, inked]

/-- Of a list without open texts only blanks are trimmed off. -/
private theorem exists_trimEnd_of_sealed {ls : List Lexeme} (settled : Settled ls)
    (closed : Sealed ls) :
    ∃ first second, ls = first ++ second ∧ tokens second = [] ∧
      render first = Text.trimEnd (render ls) := by
  induction ls using List.reverseRecOn with
  | nil => exact ⟨[], [], rfl, rfl, rfl⟩
  | append_singleton rest x ih =>
    cases x with
    | blank c =>
      obtain ⟨first, second, rfl, none, text⟩ :=
        ih settled.left fun y member => closed y (List.mem_append_left _ member)
      have blank : isBlank c = true := settled.right.1
      refine ⟨first, second ++ [.blank c], by simp, by simp [none], ?_⟩
      rw [text, render_append _ [_]]
      exact (List.rdropWhile_concat_pos _ _ _ blank).symm
    | token t =>
      -- The last token is closed, so trimming ends before it has begun.
      have sound := settled.right.1
      have whole := trimEnd_of_closed sound (closed _ (by simp))
      refine ⟨rest ++ [.token t], [], by simp, rfl, ?_⟩
      rw [render_append, render_cons, render_nil, List.append_nil, chars,
        trimEnd_append (by rw [whole]; exact sound.chars_ne_nil), whole]

/-! ### Trimming lexemes -/

/-- Trimmed lexemes read as their tokens, of which the last one may lose blanks at its end. -/
theorem tokens_trimmedText {ls : List Lexeme} (settled : Settled ls) :
    Formula.tokens (trimmedText ls) = (tokens ls).map Token.trimmed := by
  obtain ⟨first, second, rfl, none, started⟩ := exists_trimStart settled
  obtain ⟨ks, fine, text, alike⟩ := exists_trimEnd settled.right
  have read : lexemes (trimmedText (first ++ second)) = ks := by
    rw [trimmedText, Text.trim, ← started, ← text]
    exact lexemes_of_settled fine
  rw [Formula.tokens, read, alike, tokens_append, none, List.nil_append]

theorem sight_trimmedText {ls : List Lexeme} (settled : Settled ls) :
    sight (trimmedText ls) = (tokens ls).map Token.gist := by
  rw [sight, tokens_trimmedText settled, List.map_map]
  exact List.map_congr_left fun t member => gist_trimmed (settled.sound _ (mem_tokens.mp member))

theorem render_blank {ls : List Lexeme} (settled : Settled ls) (none : tokens ls = []) :
    ∀ c ∈ render ls, isBlank c = true := by
  induction ls with
  | nil => nofun
  | cons x rest ih =>
    cases x with
    | blank c =>
      have blank : isBlank c = true := settled.1
      simpa [chars, blank] using ih settled.2.2 none
    | token t => cases none

/-- What is trimmed of a list without open texts reads as the list without the blanks around it. -/
theorem exists_lexemes_trimmedText {ls : List Lexeme} (settled : Settled ls)
    (closed : Sealed ls) :
    ∃ first last, ls = first ++ lexemes (trimmedText ls) ++ last ∧ tokens first = [] ∧
      tokens last = [] := by
  obtain ⟨first, second, rfl, none, started⟩ := exists_trimStart settled
  obtain ⟨inner, last, rfl, none', text⟩ := exists_trimEnd_of_sealed settled.right
    fun x member => closed x (List.mem_append_right _ member)
  -- What is left is a part of a settled list, so it is read as that part.
  have read : lexemes (trimmedText (first ++ (inner ++ last))) = inner := by
    rw [trimmedText, Text.trim, ← started, ← text]
    exact lexemes_of_settled settled.right.left
  exact ⟨first, last, by rw [read, List.append_assoc], none, none'⟩

theorem Sealed.trimmedText {ls : List Lexeme} (closed : Sealed ls) (settled : Settled ls) :
    Sealed (lexemes (trimmedText ls)) := by
  obtain ⟨first, last, whole, _⟩ := exists_lexemes_trimmedText settled closed
  intro x member
  apply closed x
  rw [whole]
  exact List.mem_append_left _ (List.mem_append_right _ member)

/-- Trimming leaves nothing exactly where there is no token. -/
theorem trimmedText_isEmpty {ls : List Lexeme} (settled : Settled ls) :
    (trimmedText ls).isEmpty = ((tokens ls).map Token.gist).isEmpty := by
  apply Bool.eq_iff_iff.mpr
  rw [List.isEmpty_iff, String.isEmpty_iff]
  constructor
  · intro empty
    rw [← sight_trimmedText settled, empty]
    rfl
  · intro none
    have blank := render_blank settled (List.map_eq_nil_iff.mp none)
    have started : Text.trimStart (render ls) = [] := by
      simpa [Text.trimStart, List.dropWhile_eq_nil_iff] using blank
    rw [trimmedText, Text.trim, started]
    rfl

end Lexeme

theorem trimmed_eq (text : String) : Text.trimmed text = Lexeme.trimmedText (lexemes text) := by
  rw [Text.trimmed, Lexeme.trimmedText, render_lexemes]

theorem trimmed_trimmed (text : String) :
    Text.trimmed (Text.trimmed text) = Text.trimmed text := by
  rw [Text.trimmed, Text.trimmed, String.toList_ofList, trim_trim]

theorem sight_trimmed (text : String) : sight (Text.trimmed text) = sight text := by
  rw [trimmed_eq, Lexeme.sight_trimmedText (Lexeme.settled_lexemes text)]
  rfl

/-- A text that shows a character still does when it is trimmed. -/
theorem trimmed_isEmpty_of_inked {text : String} (inked : Text.isAllBlank text = false) :
    (Text.trimmed text).isEmpty = false := by
  have settled := Lexeme.settled_lexemes text
  rw [trimmed_eq, Lexeme.trimmedText_isEmpty settled]
  apply Bool.eq_false_iff.mpr
  intro none
  have blank := Lexeme.render_blank settled (List.map_eq_nil_iff.mp (List.isEmpty_iff.mp none))
  rw [render_lexemes] at blank
  rw [Text.isAllBlank, List.all_eq_true.mpr blank] at inked
  cases inked

end FormulaFields.Formula
