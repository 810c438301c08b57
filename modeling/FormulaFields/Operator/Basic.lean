/-!
Operators of the formula language, as a platform lists them.
-/
namespace FormulaFields

structure Operator where
  name : String
  category : String := ""
  scope : List String := []
  /-- How the operator is written, such as `ts_rank(x, d, constant = 0)`. -/
  definition : String := ""
  description : String := ""
  documentation : Option String := none
  deriving DecidableEq, Repr

end FormulaFields
