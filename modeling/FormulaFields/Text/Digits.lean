/-!
Digits and the numbers that they denote.
-/
namespace FormulaFields.Text

/-- The value of a decimal or hexadecimal digit, letters in either case. -/
def digitValue? (c : Char) : Option Nat :=
  if c.isDigit then some (c.toNat - '0'.toNat)
  else if 'a' ≤ c && c ≤ 'f' then some (c.toNat - 'a'.toNat + 10)
  else if 'A' ≤ c && c ≤ 'F' then some (c.toNat - 'A'.toNat + 10)
  else none

def isHexDigit (c : Char) : Bool := (digitValue? c).isSome

/-- The value of a digit; what is no digit counts as zero. -/
def digitValue (c : Char) : Nat := (digitValue? c).getD 0

/-- The number that digits of the given base denote. -/
def numberOf (base : Nat) (digits : List Char) : Nat :=
  digits.foldl (fun n d => base * n + digitValue d) 0

end FormulaFields.Text
