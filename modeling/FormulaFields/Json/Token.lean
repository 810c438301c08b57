import FormulaFields.Json.Value
import FormulaFields.Text.Transducer

/-!
Tokens of a JSON text. The text is read by a machine; where it breaks a rule, a token `broken`
stands, which is part of no document.
-/
namespace FormulaFields.Json

open Text (Transducer digitValue?)

inductive Token where
  | openArray
  | closeArray
  | openObject
  | closeObject
  | comma
  | colon
  | string (text : Option String)
  /-- A literal word or a number. -/
  | scalar (value : Value)
  | broken
  deriving Repr

/-- The code point that a pair of surrogates stands for. -/
def joinSurrogates (high low : Nat) : Nat := 0x10000 + (high - 0xD800) * 0x400 + (low - 0xDC00)

def isHighSurrogate (code : Nat) : Bool := 0xD800 ≤ code && code ≤ 0xDBFF

def isLowSurrogate (code : Nat) : Bool := 0xDC00 ≤ code && code ≤ 0xDFFF

/-- The text with these code points, surrogates joined in pairs, or nothing if one stands alone. -/
def textOfCodes? : List Nat → Option (List Char)
  | [] => some []
  | [code] => if isHighSurrogate code || isLowSurrogate code then none else some [Char.ofNat code]
  | code :: next :: rest =>
    if isHighSurrogate code then
      if isLowSurrogate next then
        (textOfCodes? rest).map (Char.ofNat (joinSurrogates code next) :: ·)
      else none
    else if isLowSurrogate code then none
    else (textOfCodes? (next :: rest)).map (Char.ofNat code :: ·)

/-- Where in a text the reader of tokens stands; what it has read of a token comes last first. -/
inductive ReadState where
  | between
  | word (seen : List Char)
  | quoted (codes : List Nat)
  /-- After a backslash. -/
  | escape (codes : List Nat)
  /-- In an escape by number, of whose four digits some are `left`. -/
  | hex (codes : List Nat) (left : Nat) (value : Nat)
  | broken
  deriving DecidableEq, Repr

def isSpace (c : Char) : Bool := c == ' ' || c == '\t' || c == '\n' || c == '\r'

/-- The characters of literal words and numbers. -/
def isWordPart (c : Char) : Bool := c.isAlphanum || c == '+' || c == '-' || c == '.'

def wordToken (word : List Char) : Token :=
  if word = "null".toList then .scalar .null
  else if word = "true".toList then .scalar (.boolean true)
  else if word = "false".toList then .scalar (.boolean false)
  else match Number.ofChars? word with
    | some n => .scalar (.number n)
    | none => .broken

/-- The character that a backslash and the given character stand for. -/
def escaped? : Char → Option Char
  | '\x22' => some '\x22'
  | '\x5c' => some '\x5c'
  | '/' => some '/'
  | 'b' => some '\x08'
  | 'f' => some '\x0c'
  | 'n' => some '\n'
  | 'r' => some '\r'
  | 't' => some '\t'
  | _ => none

namespace ReadState

def stepBetween (c : Char) : ReadState × List Token :=
  if isSpace c then (.between, [])
  else if isWordPart c then (.word [c], [])
  else match c with
    | '\x22' => (.quoted [], [])
    | '[' => (.between, [.openArray])
    | ']' => (.between, [.closeArray])
    | '\x7b' => (.between, [.openObject])
    | '\x7d' => (.between, [.closeObject])
    | ',' => (.between, [.comma])
    | ':' => (.between, [.colon])
    | _ => (.broken, [.broken])

def step : ReadState → Char → ReadState × List Token
  | .between, c => stepBetween c
  | .word seen, c =>
    if isWordPart c then (.word (c :: seen), [])
    else
      let next := stepBetween c
      (next.1, wordToken seen.reverse :: next.2)
  | .quoted codes, c =>
    if c == '\x22' then (.between, [.string ((textOfCodes? codes.reverse).map String.ofList)])
    else if c == '\x5c' then (.escape codes, [])
    else if c.toNat < 0x20 then (.broken, [.broken])
    else (.quoted (c.toNat :: codes), [])
  | .escape codes, c =>
    if c == 'u' then (.hex codes 4 0, [])
    else match escaped? c with
      | some named => (.quoted (named.toNat :: codes), [])
      | none => (.broken, [.broken])
  | .hex codes left value, c =>
    match digitValue? c with
    | none => (.broken, [.broken])
    | some digit =>
      let value := 16 * value + digit
      if left ≤ 1 then (.quoted (value :: codes), []) else (.hex codes (left - 1) value, [])
  | .broken, _ => (.broken, [])

def finish : ReadState → List Token
  | .between => []
  | .word seen => [wordToken seen.reverse]
  | _ => [.broken]

end ReadState

def tokenReader : Transducer ReadState Char Token := ⟨ReadState.step, ReadState.finish⟩

def tokens (text : List Char) : List Token := tokenReader.run .between text

end FormulaFields.Json
