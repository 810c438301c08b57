import FormulaFields.Text.Digits
import FormulaFields.Toml.Space

/-!
Strings of a TOML document: basic ones, with escapes, and literal ones, without; each on one line
or, in three quotes, on several.
-/
namespace FormulaFields.Toml

open Text (Reader digitValue isHexDigit)
open Text.Reader

namespace Quoted

/-- The character whose code point is written in so many hexadecimal digits. -/
def numbered : Nat → Nat → Reader Char
  | 0, code => do
    guardThat (code < 0xD800 || (0xDFFF < code && code < 0x110000))
    return Char.ofNat code
  | left + 1, code => do
    let digit ← satisfy isHexDigit
    numbered left (16 * code + digitValue digit)

/-- What follows the backslash of an escape. -/
def escaped : Reader Char := do
  match ← next with
  | 'b' => return '\x08'
  | 'f' => return '\x0c'
  | 'n' => return '\n'
  | 'r' => return '\r'
  | 't' => return '\t'
  | '\x22' => return '\x22'
  | '\x5c' => return '\x5c'
  | 'u' => numbered 4 0
  | 'U' => numbered 8 0
  | _ => failure

/-- A string on one line, up to the quote that ends it. -/
def lineStep (quote : Char) (escapes : Bool) : Reader (List Char × Bool) := do
  let c ← next
  if c == quote then return ([], false)
  else if escapes && c == '\x5c' then return ([← escaped], true)
  else
    guardThat (isVisible c)
    return ([c], true)

/-- A line break that a backslash hides, with all spaces and line breaks after it. -/
def hiddenBreak : Reader Unit := do
  spaces
  newline
  let _ ← pieces (do
    spaces
    return (([] : List Unit), ← took newline))

/-- A string on several lines. Up to two quotes in a row belong to it; of more, the last three end
it, and before them at most two belong to it. -/
def blockStep (quote : Char) (escapes : Bool) : Reader (List Char × Bool) := do
  if ← took newline then return (['\n'], true)
  let c ← next
  if c == quote then
    let count := (← takeWhile (· == quote)).length + 1
    guardThat (count ≤ 5)
    if count ≤ 2 then return (List.replicate count quote, true)
    else return (List.replicate (count - 3) quote, false)
  else if escapes && c == '\x5c' then
    if ← took hiddenBreak then return ([], true)
    return ([← escaped], true)
  else
    guardThat (isVisible c)
    return ([c], true)

/-- A string on one line, as keys and values have it. -/
def line : Reader String := do
  let quote ← satisfy fun c => c == '\x22' || c == '\x27'
  return String.ofList (← pieces (lineStep quote (quote == '\x22')))

/-- A string between three quotes on either side; a line break right after the first three is no
part of it. -/
def block : Reader String := do
  let quote ← satisfy fun c => c == '\x22' || c == '\x27'
  char quote
  char quote
  let _ ← optional? newline
  return String.ofList (← pieces (blockStep quote (quote == '\x22')))

/-- Any string. Three quotes always begin one on several lines. -/
def any : Reader String := do
  if (← sees (word ['\x22', '\x22', '\x22'])) || (← sees (word ['\x27', '\x27', '\x27'])) then
    block
  else line

end Quoted

end FormulaFields.Toml
