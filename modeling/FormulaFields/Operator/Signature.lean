import FormulaFields.Text.Blank

/-!
Signatures of operators, as their authors write them: `ts_rank(x, d, constant = 0)`. By convention
`x`, `y`, `z`, `alpha`, `input` and numbered inputs stand for data fields, all else for settings.
-/
namespace FormulaFields.Operator

open Text (trim)

namespace Signature

/-- The text between the first opening and the first closing parenthesis, if they stand in that
order. -/
def parameterText? (signature : List Char) : Option (List Char) :=
  match signature.dropWhile fun c => c != '(' && c != ')' with
  | '(' :: rest => if rest.contains ')' then some (rest.takeWhile (· != ')')) else none
  | _ => none

/-- The parameters between commas. Blank ones and the ellipsis take no position. -/
def parameters (inside : List Char) : List (List Char) :=
  ((inside.splitOn ',').map trim).filter fun p => !p.isEmpty && p != ['.', '.', '.']

/-- The name of a parameter, its default value cut off. -/
def parameterName (parameter : List Char) : List Char := trim (parameter.takeWhile (· != '='))

/-- The names that stand for a data field by themselves. -/
def fieldNames : List (List Char) :=
  ["x".toList, "y".toList, "z".toList, "alpha".toList, "input".toList]

/-- A numbered input, such as `input2` or `input 2`. -/
def isNumberedInput (name : List Char) : Bool :=
  "input".toList.isPrefixOf name &&
    (let number := trim (name.drop 5); !number.isEmpty && number.all (·.isDigit))

def isFieldParameter (name : List Char) : Bool := fieldNames.contains name || isNumberedInput name

/-- The positions, in increasing order, of the parameters that stand for data fields. -/
def fieldPositions (signature : String) : List Nat :=
  match parameterText? signature.toList with
  | some inside =>
    ((parameters inside).zipIdx.filter fun p => isFieldParameter (parameterName p.1)).map (·.2)
  | none => []

end Signature

end FormulaFields.Operator
