/-!
Values of a TOML document. Of floats and of dates and times only their kind is kept.
-/
namespace FormulaFields.Toml

inductive Value where
  | string (text : String)
  | integer (value : Int)
  | boolean (value : Bool)
  | float
  | moment
  | array (items : List Value)
  | table (entries : List (String × Value))
  deriving Repr

namespace Value

def integer? : Value → Option Int
  | .integer value => some value
  | _ => none

def boolean? : Value → Option Bool
  | .boolean value => some value
  | _ => none

def string? : Value → Option String
  | .string text => some text
  | _ => none

def items? : Value → Option (List Value)
  | .array items => some items
  | _ => none

def entries? : Value → Option (List (String × Value))
  | .table entries => some entries
  | _ => none

end Value

end FormulaFields.Toml
