import FormulaFields.Text.Blank
import FormulaFields.Text.Transducer

/-!
Comments of a formula: `//` to the end of the line and a slash with a star to the next star with a
slash. The newline that ends a line comment stays, so lines are not glued together. An unfinished
block comment reaches to the end of the text.
-/
namespace FormulaFields.Formula

open Text (Transducer)

/-- Where in a text the reader of comments stands. -/
inductive CommentMode where
  | code
  /-- After a slash that may open a comment. -/
  | slash
  | line
  | block
  /-- In a block comment, after a star that may close it. -/
  | star
  deriving DecidableEq, Repr

/-- One step outside or inside a comment, with the characters that are kept by it. -/
def CommentMode.step : CommentMode → Char → CommentMode × List Char
  | .code, '/' => (.slash, [])
  | .code, c => (.code, [c])
  | .slash, '/' => (.line, [])
  | .slash, '*' => (.block, [])
  | .slash, c => (.code, ['/', c])
  | .line, '\n' => (.code, ['\n'])
  | .line, _ => (.line, [])
  | .block, '*' => (.star, [])
  | .block, _ => (.block, [])
  | .star, '/' => (.code, [])
  | .star, '*' => (.star, [])
  | .star, _ => (.block, [])

/-- A slash at the very end opens nothing and is kept. -/
def CommentMode.finish : CommentMode → List Char
  | .slash => ['/']
  | _ => []

def uncommenter : Transducer CommentMode Char Char := ⟨CommentMode.step, CommentMode.finish⟩

/-- The text with its comments taken out. -/
def uncomment (text : List Char) : List Char := uncommenter.run .code text

/-- The text without comments, its words one space apart. -/
def clean (text : String) : String := String.ofList (Text.collapse (uncomment text.toList))

end FormulaFields.Formula
