import FormulaFields.Double
import FormulaFields.Text.Digits
import FormulaFields.Text.Reader

/-!
Numbers of a TOML document.
-/
namespace FormulaFields.Toml

open Text (Reader isHexDigit numberOf)
open Text.Reader

namespace Number

/-- More digits, an underscore allowed between any two. -/
def moreDigits (isDigit : Char → Bool) : Reader (List Char) :=
  pieces do
    let run ← takeWhile isDigit
    if ← took (char '_') then return (run ++ [← satisfy isDigit], true)
    else return (run, false)

/-- At least one digit, with underscores between. -/
def digits (isDigit : Char → Bool) : Reader (List Char) := do
  let first ← satisfy isDigit
  return first :: (← moreDigits isDigit)

/-- A sign, if there is one; true for a minus. -/
def sign : Reader Bool := do
  match ← optional? (satisfy fun c => c == '+' || c == '-') with
  | some c => return c == '-'
  | none => return false

/-- The digits of a decimal number before its point: a zero, or digits that begin with none. -/
def wholeDigits : Reader (List Char) := do
  let first ← satisfy Char.isDigit
  if first == '0' then return [first] else return first :: (← moreDigits Char.isDigit)

def inWord (n : Int) : Bool := -0x8000000000000000 ≤ n && n < 0x8000000000000000

def decimalInteger : Reader Int := do
  let negative ← sign
  let n := numberOf 10 (← wholeDigits)
  return if negative then -n else n

/-- An integer with a base of its own, which takes no sign. -/
def basedInteger (mark : Char) (base : Nat) (isDigit : Char → Bool) : Reader Int := do
  char '0'
  char mark
  return numberOf base (← digits isDigit)

/-- An integer of 64 bits. -/
def integer : Reader Int := do
  let n ← basedInteger 'x' 16 isHexDigit <|> basedInteger 'o' 8 (fun c => '0' ≤ c && c ≤ '7') <|>
    basedInteger 'b' 2 (fun c => c == '0' || c == '1') <|> decimalInteger
  guardThat (inWord n)
  return n

def exponent : Reader Int := do
  let _ ← satisfy fun c => c == 'e' || c == 'E'
  let negative ← sign
  let n := numberOf 10 (← digits Char.isDigit)
  return if negative then -n else n

def fraction : Reader (List Char) := do
  char '.'
  digits Char.isDigit

/-- A float with a fraction or an exponent; one too large above is refused, one too large below is
minus infinity. -/
def finiteFloat : Reader Unit := do
  let negative ← sign
  let whole ← wholeDigits
  let fraction ← optional? fraction
  let exponent ← optional? exponent
  guardThat (fraction.isSome || exponent.isSome)
  let fraction := fraction.getD []
  guardThat (negative ||
    !Double.overflows (numberOf 10 (whole ++ fraction)) (exponent.getD 0 - fraction.length))

def float : Reader Unit :=
  finiteFloat <|> (do
    let _ ← sign
    word ['i', 'n', 'f'] <|> word ['n', 'a', 'n'])

end Number

end FormulaFields.Toml
