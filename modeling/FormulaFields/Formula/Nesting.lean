import FormulaFields.Formula.Lexeme

/-!
Cutting a text at separators that stand outside brackets. One signed counter
serves all brackets: an unmatched closing bracket makes the depth negative, and at a depth other
than zero nothing separates. Brackets themselves never separate.
-/
namespace FormulaFields.Formula

namespace Nesting

variable {Item : Type} (shift : Item → Int) (cuts : Item → Bool)

/-- An item cuts where it stands outside brackets, is itself no bracket, and `cuts` accepts it. -/
def separates (depth : Int) (x : Item) : Bool := shift x == 0 && depth == 0 && cuts x

/-- All pieces between separators, empty ones included. -/
def pieces (depth : Int) : List Item → List (List Item)
  | [] => [[]]
  | x :: rest =>
    if separates shift cuts depth x then [] :: pieces depth rest
    else (pieces (depth + shift x) rest).modifyHead (x :: ·)

/-- What stands before and after the first separator. -/
def cutFirst? (depth : Int) : List Item → Option (List Item × List Item)
  | [] => none
  | x :: rest =>
    if separates shift cuts depth x then some ([], rest)
    else (cutFirst? (depth + shift x) rest).map fun cut => (x :: cut.1, cut.2)

end Nesting

/-- A test on tokens, which no blank passes. -/
def Lexeme.passes (test : Token → Bool) (x : Lexeme) : Bool := x.token?.any test

/-- The text of some lexemes without the blanks around it. -/
def Lexeme.trimmedText (lexemes : List Lexeme) : String :=
  String.ofList (Text.trim (Lexeme.render lexemes))

/-- The pieces of a text between top-level separators, trimmed, blank ones left out. -/
def splitText (cuts : Token → Bool) (text : String) : List String :=
  let groups := Nesting.pieces Lexeme.shift (Lexeme.passes cuts) 0 (lexemes text)
  (groups.map Lexeme.trimmedText).filter (!·.isEmpty)

/-- The pieces of a text between top-level commas. -/
def splitArguments (text : String) : List String := splitText (·.kind == .comma) text

end FormulaFields.Formula
