import FormulaFields.Json.Token

/-!
From tokens to a value. The builder keeps the arrays and objects that are open on a stack, so it
reads each token once and needs no look-ahead.
-/
namespace FormulaFields.Json

/-- An array or object that is open, with what is complete in it, the last first. -/
inductive Frame where
  | items (before : List Value)
  | members (before : List (Option String × Value)) (key : Option String)
  deriving Repr

inductive BuildState where
  /-- A value comes next; if `first`, the array on top of the stack may close instead. -/
  | value (stack : List Frame) (first : Bool)
  /-- A key of an object comes next; if `first`, the object may close instead. -/
  | key (stack : List Frame) (before : List (Option String × Value)) (first : Bool)
  | colon (stack : List Frame) (before : List (Option String × Value)) (key : Option String)
  /-- A value is complete and waits to be put where the stack says. -/
  | complete (stack : List Frame) (value : Value)
  | failed
  deriving Repr

namespace BuildState

def step : BuildState → Token → BuildState
  | .value stack _, .scalar v => .complete stack v
  | .value stack _, .string s => .complete stack (.string s)
  | .value stack _, .openArray => .value (.items [] :: stack) true
  | .value stack _, .openObject => .key stack [] true
  | .value (.items [] :: stack) true, .closeArray => .complete stack (.array [])
  | .key stack before _, .string s => .colon stack before s
  | .key stack [] true, .closeObject => .complete stack (.object [])
  | .colon stack before name, .colon => .value (.members before name :: stack) false
  | .complete (.items before :: stack) v, .comma => .value (.items (v :: before) :: stack) false
  | .complete (.items before :: stack) v, .closeArray =>
    .complete stack (.array (v :: before).reverse)
  | .complete (.members before name :: stack) v, .comma => .key stack ((name, v) :: before) false
  | .complete (.members before name :: stack) v, .closeObject =>
    .complete stack (.object ((name, v) :: before).reverse)
  | _, _ => .failed

/-- The document, if the tokens so far are one. -/
def result? : BuildState → Option Value
  | .complete [] v => some v
  | _ => none

end BuildState

def ofTokens? (ts : List Token) : Option Value :=
  (ts.foldl BuildState.step (.value [] false)).result?

/-- The value that a JSON text denotes, if it is one. -/
def read? (text : String) : Option Value := ofTokens? (tokens text.toList)

end FormulaFields.Json
