import FormulaFields.Alpha.Basic
import FormulaFields.Text.Blank
import FormulaFields.Text.Search

/-!
What a user asks about: an alpha, named by a link to the platform or by its bare id, or a formula.
A link holds the address of the platform, and the last segment of its path is the id.
-/
namespace FormulaFields

inductive Reference where
  | alpha (id : String)
  | formula (text : String)
  deriving DecidableEq, Repr

namespace Reference

/-- The last segment of a path that is not empty. A query, from the first question mark on, is no
part of the path. -/
def lastSegment? (path : List Char) : Option (List Char) :=
  ((path.takeWhile (· != '?')).splitOn '/').reverse.find? (!·.isEmpty)

/-- The input is a link if it holds the platform's address, which must not be empty. A link without
any segment names itself. -/
def ofInput (platform input : String) : Reference :=
  let asked := Text.trim input.toList
  if platform.isEmpty then .formula (.ofList asked)
  else
    match Text.after? platform.toList asked with
    | none => .formula (.ofList asked)
    | some path => .alpha (.ofList ((lastSegment? path).getD asked))

end Reference

/-- The address of an alpha on the platform. -/
def alphaLink (platform id : String) : String :=
  String.ofList (Text.dropEndWhile (· == '/') platform.toList) ++ "/alpha/" ++ id

/-- The formula of the first alpha with an id, if it has one. -/
def formulaOf? (alphas : List Alpha) (id : String) : Option String :=
  (alphas.find? (·.id == id)).bind (·.formula?)

/-- The id in a link that leads to no formula of a listed alpha. -/
def strayLink? (platform input : String) (alphas : List Alpha) : Option String :=
  match Reference.ofInput platform input with
  | .alpha id => if (formulaOf? alphas id).isNone then some id else none
  | .formula _ => none

/-- A formula to look into, and the listed alpha that it was taken from. -/
structure Subject where
  alpha : Option String
  formula : String
  deriving DecidableEq, Repr

/-- The listed alpha that the input names, or else the input itself as a formula. -/
def Subject.ofInput (platform input : String) (alphas : List Alpha) : Subject :=
  let named := match Reference.ofInput platform input with
    | .alpha id => id
    | .formula text => text
  match formulaOf? alphas named with
  | some formula => ⟨some named, formula⟩
  | none => ⟨none, Text.trimmed input⟩

end FormulaFields
