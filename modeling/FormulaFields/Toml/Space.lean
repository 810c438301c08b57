import FormulaFields.Text.Reader

/-!
What stands between the parts of a TOML document: spaces, comments and line breaks.
-/
namespace FormulaFields.Toml

open Text (Reader)
open Text.Reader

/-- A character that may stand in a string or comment as it is: a tab, or no control character. -/
def isVisible (c : Char) : Bool := c == '\t' || (0x20 ≤ c.toNat && c.toNat != 0x7F)

/-- A line feed, with or without a carriage return before it. -/
def newline : Reader Unit := char '\n' <|> (do char '\r'; char '\n')

def isSpace (c : Char) : Bool := c == ' ' || c == '\t'

def spaces : Reader Unit := do
  let _ ← takeWhile isSpace

def comment : Reader Unit := do
  char '#'
  let _ ← takeWhile isVisible

/-- Spaces, comments and line breaks, as they may stand between the items of an array. -/
def gap : Reader Unit := do
  let _ ← pieces (do
    spaces
    if ← took comment then
      newline
      return (([] : List Unit), true)
    else return ([], ← took newline))

end FormulaFields.Toml
