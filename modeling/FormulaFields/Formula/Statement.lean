import FormulaFields.Formula.Nesting
import FormulaFields.Names

/-!
A formula is a sequence of statements, with semicolons between them. The first single equals sign
outside brackets makes a statement an assignment; every name to its left is then a variable of the
formula, unless it names an operator.
-/
namespace FormulaFields.Formula

structure Statement where
  /-- The text left of the equals sign, of an assignment. -/
  target : Option String
  value : String
  deriving DecidableEq, Repr

namespace Statement

def ofText (text : String) : Statement :=
  match Nesting.cutFirst? Lexeme.shift (Lexeme.passes (·.kind == .equals)) 0 (lexemes text) with
  | some (left, right) => ⟨some (Lexeme.trimmedText left), Lexeme.trimmedText right⟩
  | none => ⟨none, text⟩

/-- The names that an assignment sets. -/
def assigned (operators : NameSet) (s : Statement) : List String :=
  match s.target with
  | some target => (names (tokens target)).filter (!operators.contains ·)
  | none => []

end Statement

def statements (text : String) : List Statement :=
  (splitText (·.kind == .semicolon) text).map .ofText

/-- A formula with the targets of its assignments set aside. -/
structure Script where
  /-- The names that some statement assigns. -/
  assigned : NameSet
  /-- What the statements evaluate, in order, blank right sides left out. -/
  fragments : List String

namespace Script

def ofStatements (operators : NameSet) (statements : List Statement) : Script where
  assigned := .ofList (statements.flatMap (·.assigned operators))
  fragments := (statements.map (·.value)).filter (!·.isEmpty)

def ofText (operators : NameSet) (text : String) : Script :=
  ofStatements operators (Formula.statements text)

/-- The fragments as one sequence of statements. -/
def joined (s : Script) : String := "; ".intercalate s.fragments

end Script

end FormulaFields.Formula
