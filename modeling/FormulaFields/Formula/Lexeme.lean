import FormulaFields.Formula.Token
import FormulaFields.Text.Blank
import FormulaFields.Text.Transducer

/-!
Reading a formula. Every character of the text becomes part of a token or is blank, and nothing is
refused: a quoted text that is never closed reaches to the end, and a character without a role is a
`mark` of its own. A token grows as long as it can, one character at a time, so the reader is a
machine whose state is the token that is growing.
-/
namespace FormulaFields.Formula

open Text (Transducer isBlank)

/-- What a token that is being read may still become. -/
inductive Munch where
  | name
  /-- A number: whether its point and its exponent are behind it, and whether a sign may follow. -/
  | number (dotted scaled maySign : Bool)
  /-- A lone point, which a digit turns into a number. -/
  | point
  /-- Inside a quoted text that `quote` ends. -/
  | quoted (quote : Char)
  /-- A token of kind `single`, which the character `next` turns into one of kind `paired`. -/
  | half (single : Kind) (next : Char) (paired : Kind)
  /-- A token that does not grow. -/
  | whole (kind : Kind)
  deriving DecidableEq, Repr

namespace Munch

/-- How a token begins with a character that is not blank. -/
def start : Char → Munch
  | '(' => .whole (.opening .round)
  | ')' => .whole (.closing .round)
  | '[' => .whole (.opening .square)
  | ']' => .whole (.closing .square)
  | '\x7b' => .whole (.opening .curly)
  | '\x7d' => .whole (.closing .curly)
  | ',' => .whole .comma
  | ';' => .whole .semicolon
  | '<' => .half (.connective .less) '=' (.connective .atMost)
  | '>' => .half (.connective .greater) '=' (.connective .atLeast)
  | '=' => .half .equals '=' (.connective .same)
  | '!' => .half .mark '=' (.connective .differs)
  | '&' => .half .mark '&' (.connective .both)
  | '|' => .half .mark '|' (.connective .either)
  | '\x22' => .quoted '\x22'
  | '\x27' => .quoted '\x27'
  | '.' => .point
  | c =>
    if isNameStart c then .name
    else if c.isDigit then .number false false false
    else .whole .mark

/-- What the token becomes with one more character, or nothing if it cannot take it. A point is
taken once and not after the exponent; the exponent is taken once, with a sign at its start. -/
def extend? : Munch → Char → Option Munch
  | .name, c => if isNamePart c then some .name else none
  | .number dotted scaled maySign, c =>
    if c.isDigit then some (.number dotted scaled false)
    else if c == '.' && !dotted && !scaled then some (.number true scaled false)
    else if (c == 'e' || c == 'E') && !scaled then some (.number dotted true true)
    else if (c == '+' || c == '-') && maySign then some (.number dotted scaled false)
    else none
  | .point, c => if c.isDigit then some (.number false false false) else none
  | .quoted quote, c => if c == quote then some (.whole .quoted) else some (.quoted quote)
  | .half _ next paired, c => if c == next then some (.whole paired) else none
  | .whole _, _ => none

/-- The kind of the token if it ends here. -/
def kind : Munch → Kind
  | .name => .name
  | .number .. => .number
  | .point => .mark
  | .quoted _ => .quoted
  | .half single _ _ => single
  | .whole kind => kind

end Munch

/-- A token that is being read. -/
structure Growing where
  munch : Munch
  /-- Its characters so far, the last one first. -/
  seen : List Char
  deriving DecidableEq, Repr

namespace Growing

def start (c : Char) : Growing := ⟨.start c, [c]⟩

def extend? (g : Growing) (c : Char) : Option Growing :=
  (g.munch.extend? c).map (⟨·, c :: g.seen⟩)

def token (g : Growing) : Token := ⟨g.munch.kind, String.ofList g.seen.reverse⟩

theorem seen_of_extend? {g longer : Growing} {c : Char} (grown : g.extend? c = some longer) :
    longer.seen = c :: g.seen := by
  simp only [extend?, Option.map_eq_some_iff] at grown
  obtain ⟨munch, _, rfl⟩ := grown
  rfl

end Growing

/-- A piece of a text: a token, or one blank character between tokens. -/
inductive Lexeme where
  | blank (c : Char)
  | token (t : Token)
  deriving DecidableEq, Repr

namespace Lexeme

def chars : Lexeme → List Char
  | .blank c => [c]
  | .token t => t.text.toList

def token? : Lexeme → Option Token
  | .blank _ => none
  | .token t => some t

def shift : Lexeme → Int
  | .blank _ => 0
  | .token t => t.kind.shift

/-- One step of the reader: the growing token takes the character, or it ends and the character is
blank or begins the next. -/
def step (growing : Option Growing) (c : Char) : Option Growing × List Lexeme :=
  match growing.bind (·.extend? c) with
  | some longer => (some longer, [])
  | none =>
    let ended := (growing.map fun g => .token g.token).toList
    if isBlank c then (none, ended ++ [.blank c]) else (some (.start c), ended)

def finish (growing : Option Growing) : List Lexeme :=
  (growing.map fun g => .token g.token).toList

def reader : Transducer (Option Growing) Char Lexeme := ⟨step, finish⟩

/-- The text that lexemes were read from. -/
def render (lexemes : List Lexeme) : List Char := lexemes.flatMap chars

def tokens (lexemes : List Lexeme) : List Token := lexemes.filterMap token?

/-- What stands before the token that `count` others precede, blanks right before it included. -/
def before : Nat → List Lexeme → List Lexeme
  | _, [] => []
  | count, .blank c :: rest => .blank c :: before count rest
  | 0, .token _ :: _ => []
  | count + 1, .token t :: rest => .token t :: before count rest

/-- What stands behind the first `count` tokens, blanks right behind them included. -/
def after : Nat → List Lexeme → List Lexeme
  | 0, lexemes => lexemes
  | _ + 1, [] => []
  | count + 1, .blank _ :: rest => after (count + 1) rest
  | count + 1, .token _ :: rest => after count rest

/-- The characters that a growing token has taken. -/
def held : Option Growing → List Char
  | none => []
  | some g => g.seen.reverse

/-- A step writes out what was held and the new character, or goes on holding them. -/
theorem render_step (growing : Option Growing) (c : Char) :
    render (step growing c).2 ++ held (step growing c).1 = held growing ++ [c] := by
  unfold step
  split
  next longer grown =>
    obtain ⟨g, rfl, taken⟩ := Option.bind_eq_some_iff.mp grown
    simp [held, render, Growing.seen_of_extend? taken]
  next =>
    cases growing <;> split <;> simp [render, chars, held, Growing.token, Growing.start]

theorem render_run (growing : Option Growing) (text : List Char) :
    render (reader.run growing text) = held growing ++ text := by
  induction text generalizing growing with
  | nil =>
    cases growing <;>
      simp [Transducer.run, reader, finish, render, chars, held, Growing.token]
  | cons c rest ih =>
    have one := render_step growing c
    simp only [render] at one ih ⊢
    rw [Transducer.run, List.flatMap_append, ih]
    rw [show reader.step growing c = step growing c from rfl, ← List.append_assoc, one]
    simp

end Lexeme

def lexemes (text : String) : List Lexeme := Lexeme.reader.run none text.toList

/-- Nothing of a text is lost, and nothing is added. -/
theorem render_lexemes (text : String) : Lexeme.render (lexemes text) = text.toList := by
  simp [lexemes, Lexeme.render_run, Lexeme.held]

def tokens (text : String) : List Token := Lexeme.tokens (lexemes text)

/-- A token with the bytes of the text that it occupies. -/
structure Placed where
  token : Token
  start : Nat
  stop : Nat
  deriving DecidableEq, Repr

/-- The tokens with their places, the first lexeme standing at byte `start`. -/
def place (start : Nat) : List Lexeme → List Placed
  | [] => []
  | .blank c :: rest => place (start + c.utf8Size) rest
  | .token t :: rest =>
    let stop := start + t.text.utf8ByteSize
    ⟨t, start, stop⟩ :: place stop rest

def placedTokens (text : String) : List Placed := place 0 (lexemes text)

end FormulaFields.Formula
