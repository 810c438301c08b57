/-!
Alphas, as a platform lists them: each has an id, perhaps a type, and perhaps the code of a formula.
-/
namespace FormulaFields

structure AlphaCode where
  formula : String
  description : Option String := none
  deriving DecidableEq, Repr

structure Alpha where
  id : String
  kind : Option String := none
  code : Option AlphaCode := none
  deriving DecidableEq, Repr

namespace Alpha

/-- The type of the alphas that are single formulas. -/
def regularKind : String := "REGULAR"

/-- The type is `regular` in letters of either case, or not stated. -/
def isRegular (a : Alpha) : Bool :=
  a.kind.all fun kind => kind.toList.map Char.toUpper == regularKind.toList

def formula? (a : Alpha) : Option String := a.code.map (·.formula)

end Alpha

end FormulaFields
