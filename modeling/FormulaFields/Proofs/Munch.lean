import FormulaFields.Formula.Lexeme
import Mathlib.Tactic.SplitIfs

/-!
How a token grows. A token that is not quoted holds no blank; a name holds the characters of a name
and nothing else; a quoted text holds its quote at the start and, once closed, at the end. What is
not an open quoted text ends in front of a bracket, a comma, a semicolon and a blank.
-/
namespace FormulaFields.Formula

open Text (isBlank)

private theorem not_blank_of_graphic {c : Char} (low : 0x20 < c.toNat) (high : c.toNat < 0x7F) :
    isBlank c = false := by
  simp [isBlank, Text.blankRanges]
  omega

private theorem isAlpha_iff {c : Char} : c.isAlpha = true ↔
    (65 ≤ c.toNat ∧ c.toNat ≤ 90) ∨ (97 ≤ c.toNat ∧ c.toNat ≤ 122) := by
  have upper : c.isUpper = true ↔ 65 ≤ c.toNat ∧ c.toNat ≤ 90 := decide_eq_true_iff
  have lower : c.isLower = true ↔ 97 ≤ c.toNat ∧ c.toNat ≤ 122 := by
    change (decide (97 ≤ c.toNat) && decide (c.toNat ≤ 122)) = true ↔ _
    rw [Bool.and_eq_true, decide_eq_true_iff, decide_eq_true_iff]
  change (c.isUpper || c.isLower) = true ↔ _
  rw [Bool.or_eq_true, upper, lower]

private theorem isDigit_iff {c : Char} : c.isDigit = true ↔ 48 ≤ c.toNat ∧ c.toNat ≤ 57 :=
  Char.isDigit_iff_toNat

theorem not_blank_of_namePart {c : Char} (part : isNamePart c = true) : isBlank c = false := by
  simp only [isNamePart, Char.isAlphanum, Bool.or_eq_true, beq_iff_eq] at part
  rcases part with (alpha | digit) | rfl
  · rcases isAlpha_iff.mp alpha with upper | lower
    · exact not_blank_of_graphic (by omega) (by omega)
    · exact not_blank_of_graphic (by omega) (by omega)
  · have range := isDigit_iff.mp digit
    exact not_blank_of_graphic (by omega) (by omega)
  · decide

theorem namePart_of_nameStart {c : Char} (first : isNameStart c = true) : isNamePart c = true := by
  simp only [isNameStart, isNamePart, Char.isAlphanum, Bool.or_eq_true] at first ⊢
  exact first.elim (fun alpha => Or.inl (Or.inl alpha)) Or.inr

theorem namePart_of_digit {c : Char} (digit : c.isDigit = true) : isNamePart c = true := by
  simp [isNamePart, Char.isAlphanum, digit]

/-- A text that is a name: an ASCII letter or an underscore, then letters, digits, underscores. -/
def isIdentifier (text : String) : Bool :=
  match text.toList with
  | [] => false
  | c :: rest => isNameStart c && rest.all isNamePart

theorem namePart_of_mem_identifier {text : String} (identifier : isIdentifier text = true)
    {c : Char} (member : c ∈ text.toList) : isNamePart c = true := by
  unfold isIdentifier at identifier
  split at identifier
  · cases identifier
  next first rest chars =>
    rw [chars] at member
    simp only [Bool.and_eq_true, List.all_eq_true] at identifier
    rcases List.mem_cons.mp member with rfl | later
    · exact namePart_of_nameStart identifier.1
    · exact identifier.2 c later

theorem equals_of_identifier {text : String} (identifier : isIdentifier text = true) :
    '=' ∉ text.toList :=
  fun member => absurd (namePart_of_mem_identifier identifier member) (by decide)

theorem eq_or_eq_of_mem_quotes {quote : Char} (symbol : quote ∈ ['\x22', '\x27']) :
    quote = '\x22' ∨ quote = '\x27' := by
  simpa using symbol

/-- The characters that no token takes unless it is quoted. -/
def delimits (c : Char) : Bool := !isNamePart c && !(['.', '+', '-', '=', '&', '|'].contains c)

namespace Munch

/-- What the token becomes with some more characters. -/
def read? (m : Munch) : List Char → Option Munch
  | [] => some m
  | c :: rest => (m.extend? c).bind fun longer => read? longer rest

/-- The state that the characters of a single token lead to. -/
def ofChars? : List Char → Option Munch
  | [] => none
  | c :: rest => if isBlank c then none else (start c).read? rest

/-- The states that occur: only names are of the kind of names, and no pair makes a quoted text. -/
def Proper : Munch → Prop
  | .half single next paired =>
    single ≠ .name ∧ single ≠ .quoted ∧ paired ≠ .name ∧ paired ≠ .quoted ∧ next ∈ ['=', '&', '|']
  | .quoted quote => quote ∈ ['\x22', '\x27']
  | .whole kind => kind ≠ .name
  | _ => True

/-- The token takes whatever comes, up to its quote. -/
def IsOpen (m : Munch) : Prop := ∃ quote, m = .quoted quote

instance : DecidablePred IsOpen
  | .quoted quote => isTrue ⟨quote, rfl⟩
  | .name | .number .. | .point | .half .. | .whole _ => isFalse nofun

theorem read?_append (m : Munch) (first second : List Char) :
    m.read? (first ++ second) = (m.read? first).bind (·.read? second) := by
  induction first generalizing m with
  | nil => rfl
  | cons c rest ih =>
    simp only [List.cons_append, read?]
    cases m.extend? c with
    | none => rfl
    | some longer => exact ih longer

theorem proper_start (c : Char) : (start c).Proper := by
  unfold start
  split
  -- The last case of `start`: a letter, a digit, or a character without a role.
  case h_18 => split_ifs <;> simp [Proper]
  all_goals simp [Proper]

theorem proper_extend? {m longer : Munch} {c : Char} (proper : m.Proper)
    (grown : m.extend? c = some longer) : longer.Proper := by
  cases m with
  | name =>
    simp only [extend?, Option.ite_none_right_eq_some, Option.some.injEq] at grown
    exact grown.2 ▸ trivial
  | number dotted scaled maySign =>
    simp only [extend?] at grown
    split_ifs at grown <;> cases grown <;> trivial
  | point =>
    simp only [extend?, Option.ite_none_right_eq_some, Option.some.injEq] at grown
    exact grown.2 ▸ trivial
  | quoted quote =>
    simp only [extend?] at grown
    split_ifs at grown <;> cases grown
    · simp [Proper]
    · exact proper
  | half single next paired =>
    simp only [extend?, Option.ite_none_right_eq_some, Option.some.injEq] at grown
    exact grown.2 ▸ proper.2.2.1
  | whole kind => simp [extend?] at grown

/-- What one character keeps, more characters keep. -/
theorem holds_of_read? {holds : Munch → Prop}
    (kept : ∀ {m longer : Munch} {c : Char}, holds m → m.extend? c = some longer → holds longer)
    {m longer : Munch} {chars : List Char} (first : holds m)
    (grown : m.read? chars = some longer) : holds longer := by
  induction chars generalizing m with
  | nil => exact Option.some.inj grown ▸ first
  | cons c rest ih =>
    obtain ⟨next, one, more⟩ := Option.bind_eq_some_iff.mp grown
    exact ih (kept first one) more

theorem proper_read? {m longer : Munch} {chars : List Char} (proper : m.Proper)
    (grown : m.read? chars = some longer) : longer.Proper :=
  holds_of_read? proper_extend? proper grown

theorem proper_ofChars? {m : Munch} {chars : List Char} (single : ofChars? chars = some m) :
    m.Proper := by
  cases chars with
  | nil => cases single
  | cons c rest =>
    simp only [ofChars?] at single
    split at single
    · cases single
    · exact proper_read? (proper_start c) single

theorem ofChars?_append_singleton {chars : List Char} {c : Char} {m longer : Munch}
    (single : ofChars? chars = some m) (grown : m.extend? c = some longer) :
    ofChars? (chars ++ [c]) = some longer := by
  cases chars with
  | nil => cases single
  | cons first rest =>
    simp only [ofChars?, List.cons_append] at single ⊢
    split at single
    · cases single
    next inked =>
      rw [if_neg inked, read?_append, single]
      simp [read?, grown]

/-! ### Names -/

private theorem name_of_extend? {m : Munch} {c : Char} (grown : m.extend? c = some .name) :
    m = .name ∧ isNamePart c = true := by
  cases m with
  | name => exact ⟨rfl, by simpa [extend?] using grown⟩
  | number => simp only [extend?] at grown; split_ifs at grown <;> cases grown
  | point => simp only [extend?] at grown; split_ifs at grown; cases grown
  | quoted => simp only [extend?] at grown; split_ifs at grown <;> cases grown
  | half => simp only [extend?] at grown; split_ifs at grown; cases grown
  | whole => simp [extend?] at grown

private theorem name_of_read? {m : Munch} {chars : List Char}
    (grown : m.read? chars = some .name) : m = .name ∧ chars.all isNamePart = true := by
  induction chars generalizing m with
  | nil => exact ⟨Option.some.inj grown, rfl⟩
  | cons c rest ih =>
    obtain ⟨next, one, more⟩ := Option.bind_eq_some_iff.mp grown
    obtain ⟨rfl, parts⟩ := ih more
    obtain ⟨rfl, part⟩ := name_of_extend? one
    exact ⟨rfl, by rw [List.all_cons, part, parts]; rfl⟩

private theorem nameStart_of_start {c : Char} (first : start c = .name) :
    isNameStart c = true := by
  unfold start at first
  split at first
  case h_18 =>
    split_ifs at first with yes
    exact yes
  all_goals cases first

theorem eq_name_of_kind {m : Munch} (proper : m.Proper) (kind : m.kind = .name) : m = .name := by
  cases m with
  | name => rfl
  | half => exact absurd kind proper.1
  | whole => exact absurd kind proper
  | _ => cases kind

theorem identifier_of_ofChars? {chars : List Char} {m : Munch} (single : ofChars? chars = some m)
    (kind : m.kind = .name) : isIdentifier (String.ofList chars) = true := by
  obtain rfl := eq_name_of_kind (proper_ofChars? single) kind
  cases chars with
  | nil => cases single
  | cons c rest =>
    simp only [ofChars?] at single
    split at single
    · cases single
    · obtain ⟨first, parts⟩ := name_of_read? single
      simp [isIdentifier, nameStart_of_start first, parts]

private theorem read?_name {chars : List Char} (parts : ∀ c ∈ chars, isNamePart c = true) :
    read? .name chars = some .name := by
  induction chars with
  | nil => rfl
  | cons c rest ih =>
    simp only [List.mem_cons, forall_eq_or_imp] at parts
    simp [read?, extend?, parts.1, ih parts.2]

private theorem start_of_nameStart {c : Char} (first : isNameStart c = true) :
    start c = .name := by
  unfold start
  split
  case h_18 => rw [if_pos first]
  all_goals revert first; decide

theorem ofChars?_identifier {name : String} (identifier : isIdentifier name = true) :
    ofChars? name.toList = some .name := by
  unfold isIdentifier at identifier
  split at identifier
  · cases identifier
  next c rest chars =>
    simp only [Bool.and_eq_true, List.all_eq_true] at identifier
    have inked := not_blank_of_namePart (namePart_of_nameStart identifier.1)
    simp [chars, ofChars?, inked, start_of_nameStart identifier.1, read?_name identifier.2]

private theorem read?_digits {digits : List Char} (all : ∀ c ∈ digits, c.isDigit = true) :
    read? (.number false false false) digits = some (.number false false false) := by
  induction digits with
  | nil => rfl
  | cons c rest ih =>
    simp only [List.mem_cons, forall_eq_or_imp] at all
    simp [read?, extend?, all.1, ih all.2]

private theorem start_of_digit {c : Char} (digit : c.isDigit = true) :
    start c = .number false false false := by
  have letter : isNameStart c = false := by
    have range := isDigit_iff.mp digit
    apply Bool.eq_false_iff.mpr
    intro first
    simp only [isNameStart, Bool.or_eq_true, beq_iff_eq] at first
    rcases first with alpha | rfl
    · rcases isAlpha_iff.mp alpha with upper | lower
      · omega
      · omega
    · exact absurd digit (by decide)
  unfold start
  split
  case h_18 => rw [if_neg (by simp [letter]), if_pos digit]
  all_goals revert digit; decide

theorem ofChars?_digits {digits : List Char} (nonempty : digits ≠ [])
    (all : ∀ c ∈ digits, c.isDigit = true) :
    ofChars? digits = some (.number false false false) := by
  cases digits with
  | nil => exact absurd rfl nonempty
  | cons c rest =>
    simp only [List.mem_cons, forall_eq_or_imp] at all
    have inked := not_blank_of_namePart (namePart_of_digit all.1)
    simp [ofChars?, inked, start_of_digit all.1, read?_digits all.2]

/-! ### Blanks -/

private theorem open_of_extend? {m longer : Munch} {c : Char} (proper : m.Proper)
    (grown : m.extend? c = some longer) (kind : longer.kind = .quoted) : m.IsOpen := by
  cases m with
  | name =>
    simp only [extend?] at grown
    split_ifs at grown
    cases grown
    cases kind
  | number =>
    simp only [extend?] at grown
    split_ifs at grown <;> cases grown <;> cases kind
  | point =>
    simp only [extend?] at grown
    split_ifs at grown
    cases grown
    cases kind
  | quoted quote => exact ⟨quote, rfl⟩
  | half =>
    simp only [extend?] at grown
    split_ifs at grown
    cases grown
    exact absurd kind proper.2.2.2.1
  | whole => simp [extend?] at grown

private theorem not_blank_of_extend? {m longer : Munch} {c : Char} (proper : m.Proper)
    (grown : m.extend? c = some longer) (kind : longer.kind ≠ .quoted) : isBlank c = false := by
  cases m with
  | name =>
    simp only [extend?, Option.ite_none_right_eq_some] at grown
    exact not_blank_of_namePart grown.1
  | number =>
    simp only [extend?] at grown
    -- A digit, the point, the letter of the exponent, and its sign.
    split_ifs at grown with digit point mark sign
    · exact not_blank_of_namePart (namePart_of_digit digit)
    · simp only [Bool.and_eq_true, beq_iff_eq] at point
      obtain ⟨⟨rfl, _⟩, _⟩ := point
      decide
    · simp only [Bool.and_eq_true, Bool.or_eq_true, beq_iff_eq] at mark
      rcases mark with ⟨rfl | rfl, _⟩ <;> decide
    · simp only [Bool.and_eq_true, Bool.or_eq_true, beq_iff_eq] at sign
      rcases sign with ⟨rfl | rfl, _⟩ <;> decide
  | point =>
    simp only [extend?, Option.ite_none_right_eq_some] at grown
    exact not_blank_of_namePart (namePart_of_digit grown.1)
  | quoted =>
    simp only [extend?] at grown
    split_ifs at grown <;> cases grown <;> exact absurd rfl kind
  | half single next paired =>
    simp only [extend?, Option.ite_none_right_eq_some, beq_iff_eq] at grown
    obtain ⟨rfl, _⟩ := grown
    have symbol := proper.2.2.2.2
    simp only [List.mem_cons, List.not_mem_nil, or_false] at symbol
    rcases symbol with rfl | rfl | rfl <;> decide
  | whole => simp [extend?] at grown

private theorem kind_of_extend? {m longer : Munch} {c : Char} (proper : m.Proper)
    (grown : m.extend? c = some longer) (kind : longer.kind ≠ .quoted) : m.kind ≠ .quoted := by
  cases m with
  | quoted =>
    simp only [extend?] at grown
    split_ifs at grown <;> cases grown <;> exact absurd rfl kind
  | half => exact proper.2.1
  | whole => simp [extend?] at grown
  | _ => nofun

private theorem not_blank_of_read? {m longer : Munch} {chars : List Char} (proper : m.Proper)
    (grown : m.read? chars = some longer) (kind : longer.kind ≠ .quoted) :
    m.kind ≠ .quoted ∧ ∀ c ∈ chars, isBlank c = false := by
  induction chars generalizing m with
  | nil => exact ⟨Option.some.inj grown ▸ kind, nofun⟩
  | cons c rest ih =>
    obtain ⟨next, one, more⟩ := Option.bind_eq_some_iff.mp grown
    obtain ⟨plain, inked⟩ := ih (proper_extend? proper one) more
    refine ⟨kind_of_extend? proper one plain, ?_⟩
    simp only [List.mem_cons, forall_eq_or_imp]
    exact ⟨not_blank_of_extend? proper one plain, inked⟩

/-- What is not quoted holds no blank. -/
theorem not_blank_of_ofChars? {chars : List Char} {m : Munch} (single : ofChars? chars = some m)
    (kind : m.kind ≠ .quoted) : ∀ c ∈ chars, isBlank c = false := by
  cases chars with
  | nil => cases single
  | cons c rest =>
    simp only [ofChars?] at single
    split at single
    · cases single
    next inked =>
      simp only [List.mem_cons, forall_eq_or_imp]
      exact ⟨by simpa using inked, (not_blank_of_read? (proper_start c) single kind).2⟩

/-! ### Quoted texts -/

private theorem start_of_quoted {c : Char} (kind : (start c).kind = .quoted) :
    start c = .quoted c ∧ c ∈ ['\x22', '\x27'] := by
  unfold start at kind ⊢
  split at kind
  case h_15 => exact ⟨rfl, by decide⟩
  case h_16 => exact ⟨rfl, by decide⟩
  case h_18 => split_ifs at kind <;> cases kind
  all_goals cases kind

private theorem open_of_read? {m longer : Munch} {chars : List Char} (proper : m.Proper)
    (grown : m.read? chars = some longer) (kind : longer.kind = .quoted) : m.kind = .quoted := by
  induction chars generalizing m with
  | nil => exact Option.some.inj grown ▸ kind
  | cons c rest ih =>
    obtain ⟨next, one, more⟩ := Option.bind_eq_some_iff.mp grown
    obtain ⟨quote, rfl⟩ := open_of_extend? proper one (ih (proper_extend? proper one) more)
    rfl

theorem read?_quoted {quote : Char} {chars : List Char} (absent : quote ∉ chars) :
    read? (.quoted quote) chars = some (.quoted quote) := by
  induction chars with
  | nil => rfl
  | cons c rest ih =>
    simp only [List.mem_cons, not_or] at absent
    simp [read?, extend?, Ne.symm absent.1, ih absent.2]

private theorem quoted_of_read? {quote : Char} {chars : List Char} {m : Munch}
    (grown : read? (.quoted quote) chars = some m) :
    (m = .quoted quote ∧ quote ∉ chars) ∨
      (m = .whole .quoted ∧ ∃ body, chars = body ++ [quote]) := by
  induction chars with
  | nil => exact Or.inl ⟨(Option.some.inj grown).symm, nofun⟩
  | cons c rest ih =>
    simp only [read?, extend?] at grown
    by_cases closing : c = quote
    · subst c
      right
      cases rest with
      | nil =>
        simp only [beq_self_eq_true, if_true, Option.bind_some, read?, Option.some.injEq] at grown
        exact ⟨grown.symm, [], rfl⟩
      -- A closed text takes no further character.
      | cons d more => simp [read?, extend?] at grown
    · have same : read? (.quoted quote) rest = some m := by simpa [closing] using grown
      rcases ih same with ⟨rfl, absent⟩ | ⟨rfl, body, rfl⟩
      · exact Or.inl ⟨rfl, by simp [Ne.symm closing, absent]⟩
      · exact Or.inr ⟨rfl, c :: body, rfl⟩

/-- A quoted text is open and holds its quote at the start only, or it ends with its quote. -/
theorem quoted_of_ofChars? {chars : List Char} {m : Munch} (single : ofChars? chars = some m)
    (kind : m.kind = .quoted) :
    ∃ quote rest, chars = quote :: rest ∧ quote ∈ ['\x22', '\x27'] ∧
      ((m = .quoted quote ∧ quote ∉ rest) ∨
        (m = .whole .quoted ∧ ∃ body, rest = body ++ [quote])) := by
  cases chars with
  | nil => cases single
  | cons c rest =>
    simp only [ofChars?] at single
    split at single
    · cases single
    · obtain ⟨first, symbol⟩ := start_of_quoted (open_of_read? (proper_start c) single kind)
      rw [first] at single
      exact ⟨c, rest, rfl, symbol, quoted_of_read? single⟩

theorem ofChars?_open {quote : Char} {rest : List Char} (symbol : quote ∈ ['\x22', '\x27'])
    (absent : quote ∉ rest) : ofChars? (quote :: rest) = some (.quoted quote) := by
  rcases eq_or_eq_of_mem_quotes symbol with rfl | rfl <;> exact read?_quoted absent

/-! ### Ends -/

/-- Brackets, commas, semicolons and blanks belong to no token that began before them, unless it is
an open quoted text. -/
theorem extend?_delimiter {m : Munch} {c : Char} (proper : m.Proper) (closed : ¬ m.IsOpen)
    (delimiter : delimits c = true) : m.extend? c = none := by
  simp only [delimits, Bool.and_eq_true, Bool.not_eq_true', List.contains_eq_mem,
    decide_eq_false_iff_not, List.mem_cons, List.not_mem_nil, or_false, not_or] at delimiter
  obtain ⟨apart, point, plus, minus, equals, both, either⟩ := delimiter
  have digit : c.isDigit = false := by
    apply Bool.eq_false_iff.mpr
    intro digit
    simp [namePart_of_digit digit] at apart
  cases m with
  | name => simp [extend?, apart]
  | number =>
    -- The letter of an exponent is a letter of names, which no delimiter is.
    have small : c ≠ 'e' := by rintro rfl; exact absurd apart (by decide)
    have capital : c ≠ 'E' := by rintro rfl; exact absurd apart (by decide)
    simp [extend?, digit, point, plus, minus, small, capital]
  | point => simp [extend?, digit]
  | quoted quote => exact absurd ⟨quote, rfl⟩ closed
  | half single next paired =>
    have other : c ≠ next := by
      rintro rfl
      -- A pair ends with one of three characters, and none of them delimits.
      simpa [equals, both, either] using proper.2.2.2.2
    simp [extend?, other]
  | whole => rfl

/-- A delimiter stands at the start of a token, unless the token is quoted. -/
theorem not_mem_of_delimits {m longer : Munch} {chars : List Char} {c : Char} (proper : m.Proper)
    (grown : m.read? chars = some longer) (kind : longer.kind ≠ .quoted)
    (delimiter : delimits c = true) : c ∉ chars := by
  induction chars generalizing m with
  | nil => nofun
  | cons d rest ih =>
    obtain ⟨next, one, more⟩ := Option.bind_eq_some_iff.mp grown
    have proper' := proper_extend? proper one
    have plain : m.kind ≠ .quoted :=
      kind_of_extend? proper one (not_blank_of_read? proper' more kind).1
    have closed : ¬ m.IsOpen := by
      rintro ⟨quote, rfl⟩
      exact plain rfl
    intro member
    rcases List.mem_cons.mp member with rfl | later
    · rw [extend?_delimiter proper closed delimiter] at one
      cases one
    · exact ih proper' more later

end Munch

end FormulaFields.Formula
