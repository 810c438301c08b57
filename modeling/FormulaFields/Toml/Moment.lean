import FormulaFields.Text.Digits
import FormulaFields.Text.Reader

/-!
Dates and times of a TOML document, of which only the form is looked at.
-/
namespace FormulaFields.Toml

open Text (Reader digitValue)
open Text.Reader

namespace Moment

/-- A number of exactly so many digits. -/
def fixed : Nat → Nat → Reader Nat
  | 0, n => return n
  | count + 1, n => do
    let digit ← satisfy Char.isDigit
    fixed count (10 * n + digitValue digit)

def within (count low high : Nat) : Reader Nat := do
  let n ← fixed count 0
  guardThat (low ≤ n && n ≤ high)
  return n

def isLeap (year : Nat) : Bool := year % 4 == 0 && (year % 100 != 0 || year % 400 == 0)

def daysIn (year month : Nat) : Nat :=
  if month == 2 then (if isLeap year then 29 else 28)
  else if month == 4 || month == 6 || month == 9 || month == 11 then 30
  else 31

def date : Reader Unit := do
  let year ← fixed 4 0
  char '-'
  let month ← within 2 1 12
  char '-'
  let _ ← within 2 1 (daysIn year month)

/-- A time of day; a minute may have a sixty-first second. -/
def time : Reader Unit := do
  let _ ← within 2 0 23
  char ':'
  let _ ← within 2 0 59
  char ':'
  let _ ← within 2 0 60
  let _ ← optional? do
    char '.'
    let _ ← satisfy Char.isDigit
    takeWhile Char.isDigit

def offset : Reader Unit := do
  let c ← next
  if c == 'Z' || c == 'z' then return ()
  guardThat (c == '+' || c == '-')
  let _ ← within 2 0 23
  char ':'
  let _ ← within 2 0 59

/-- A date, perhaps with a time, which may have an offset; or a time alone. -/
def any : Reader Unit :=
  (do
    date
    let _ ← optional? do
      let _ ← satisfy fun c => c == 'T' || c == 't' || c == ' '
      time
      let _ ← optional? offset) <|> time

end Moment

end FormulaFields.Toml
