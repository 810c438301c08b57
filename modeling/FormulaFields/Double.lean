/-!
The largest doubles, in exact arithmetic on natural numbers.
-/
namespace FormulaFields.Double

/-- A number rounded to 53 significant bits, a half going to the even neighbour. -/
def round (n : Nat) : Nat :=
  let excess := n.log2 + 1 - 53
  let unit := Nat.pow 2 excess
  let low := n / unit
  let twice := 2 * (n % unit)
  if twice > unit || (twice == unit && low % 2 == 1) then (low + 1) * unit else low * unit

/-- The least number that rounds to infinity. -/
def infinityThreshold : Nat := Nat.pow 2 1024 - Nat.pow 2 970

/-- A decimal below 10 to this power is finite. -/
def safePower : Int := 308

/-- The decimal `significand * 10 ^ power` rounds to infinity. The number of its digits before the
point settles all but a few cases, so no large power is computed. -/
def overflows (significand : Nat) (power : Int) : Bool :=
  let size := (Nat.toDigits 10 significand).length + power
  significand != 0 && size > safePower &&
    (size > safePower + 2 ||
      (if 0 ≤ power then infinityThreshold ≤ significand * Nat.pow 10 power.toNat
       else infinityThreshold * Nat.pow 10 (-power).toNat ≤ significand))

end FormulaFields.Double
