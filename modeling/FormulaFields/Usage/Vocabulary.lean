import FormulaFields.Operator.Catalog
import FormulaFields.Settings.Basic

/-!
What must be known to find the fields of a formula: which names are operators, which of their
arguments may hold fields, and how deep to look.
-/
namespace FormulaFields

structure Vocabulary where
  operators : NameSet
  rules : RuleBook
  /-- Expressions nested deeper than this are searched for names only. -/
  depthLimit : Nat := defaultDepthLimit

namespace Vocabulary

/-- The vocabulary of a catalog under given settings. -/
def ofCatalog (catalog : Catalog) (settings : Settings) : Vocabulary where
  operators := catalog.names
  rules := .build catalog.operators settings.overrideRules
  depthLimit := settings.depthLimit

def isOperator (v : Vocabulary) (name : String) : Bool := v.operators.contains name

end Vocabulary

end FormulaFields
