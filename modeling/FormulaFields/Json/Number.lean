import FormulaFields.Double
import FormulaFields.Text.Digits

/-!
Numbers of a JSON text, and which of them a double can hold. Such a number is read as a significand
of one machine word and a power of ten. Both are rounded to doubles, and then so is their product;
the number is out of range when that last step yields infinity.
-/
namespace FormulaFields.Json

open Text (digitValue numberOf)

structure Number where
  negative : Bool
  /-- The digits before the point: a zero alone, or digits of which the first is no zero. -/
  whole : List Char
  /-- The digits after the point, if there is one. -/
  fraction : List Char
  exponent : Int
  deriving DecidableEq, Repr

namespace Number

/-- A sign, which may be left out, and at least one digit. -/
def exponentOf? : List Char → Option Int
  | '-' :: digits => if plainDigits digits then some (-(numberOf 10 digits : Int)) else none
  | '+' :: digits => if plainDigits digits then some (numberOf 10 digits) else none
  | digits => if plainDigits digits then some (numberOf 10 digits) else none
where
  plainDigits (digits : List Char) : Bool := !digits.isEmpty && digits.all (·.isDigit)

/-- The text of a number after its sign and whole digits: perhaps a point and digits, perhaps an
exponent, and nothing else. -/
def tail? (negative : Bool) (whole : List Char) (rest : List Char) : Option Number :=
  match rest with
  | '.' :: rest =>
    let fraction := rest.takeWhile (·.isDigit)
    if fraction.isEmpty then none
    else exponentPart? fraction (rest.dropWhile (·.isDigit))
  | rest => exponentPart? [] rest
where
  exponentPart? (fraction : List Char) : List Char → Option Number
    | [] => some ⟨negative, whole, fraction, 0⟩
    | 'e' :: rest => (exponentOf? rest).map fun e => ⟨negative, whole, fraction, e⟩
    | 'E' :: rest => (exponentOf? rest).map fun e => ⟨negative, whole, fraction, e⟩
    | _ => none

/-- A number from all its characters. A zero at the front of several whole digits is refused. -/
def ofChars? (text : List Char) : Option Number :=
  let negative := text.head? = some '-'
  let unsigned := if negative then text.tail else text
  let whole := unsigned.takeWhile (·.isDigit)
  if whole.isEmpty || (whole.head? = some '0' && 1 < whole.length) then none
  else tail? negative whole (unsigned.dropWhile (·.isDigit))

/-- The least significand that is too large. -/
def significandLimit : Nat := Nat.pow 2 64

/-- The significand after the whole digits, and how many digits no longer went into it. -/
def takeWhole (significand : Nat) : List Char → Nat × Nat
  | [] => (significand, 0)
  | d :: rest =>
    if 10 * significand + digitValue d < significandLimit then
      takeWhole (10 * significand + digitValue d) rest
    else (significand, rest.length + 1)

/-- The significand after the fraction, and how many of its digits went into it; the digits from
the first that does not fit on are dropped. -/
def takeFraction (significand : Nat) : List Char → Nat × Nat
  | [] => (significand, 0)
  | d :: rest =>
    if 10 * significand + digitValue d < significandLimit then
      let taken := takeFraction (10 * significand + digitValue d) rest
      (taken.1, taken.2 + 1)
    else (significand, 0)

/-- The largest power of ten that is a double. -/
def largestPower : Int := 308

def isInRange (n : Number) : Bool :=
  let whole := takeWhole 0 n.whole
  let all := takeFraction whole.1 n.fraction
  let power := n.exponent + whole.2 - all.2
  all.1 == 0 || power ≤ 0 ||
    (power ≤ largestPower &&
      Double.round all.1 * Double.round (Nat.pow 10 power.toNat) < Double.infinityThreshold)

/-- The number in full, the exponent written only where it is not zero. -/
def chars (n : Number) : List Char :=
  (if n.negative then ['-'] else []) ++ n.whole ++
    (if n.fraction.isEmpty then [] else '.' :: n.fraction) ++
    (if n.exponent = 0 then [] else 'e' :: (toString n.exponent).toList)

end Number

end FormulaFields.Json
