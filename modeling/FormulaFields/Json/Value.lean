import FormulaFields.Json.Number

/-!
JSON values. An object keeps its members in order, repeated keys included, because who reads a
record must see a key that comes twice.
-/
namespace FormulaFields.Json

inductive Value where
  | null
  | boolean (value : Bool)
  | number (value : Number)
  /-- A string; none if a surrogate stands alone in it, so that it denotes no text. -/
  | string (text : Option String)
  | array (items : List Value)
  | object (members : List (Option String × Value))
  deriving Repr

namespace Value

def text (s : String) : Value := .string (some s)

def texts (list : List String) : Value := .array (list.map text)

/-- The object with these members. -/
def record (members : List (String × Value)) : Value :=
  .object (members.map fun member => (some member.1, member.2))

mutual

/-- How many arrays and objects lie one in another. -/
def depth : Value → Nat
  | .array items => depthOfItems items + 1
  | .object members => depthOfMembers members + 1
  | _ => 0

def depthOfItems : List Value → Nat
  | [] => 0
  | v :: rest => max (depth v) (depthOfItems rest)

def depthOfMembers : List (Option String × Value) → Nat
  | [] => 0
  | (_, v) :: rest => max (depth v) (depthOfMembers rest)

end

mutual

/-- Every string in the value, keys included, denotes a text, and every number is in range. -/
def isPlain : Value → Bool
  | .number n => n.isInRange
  | .string s => s.isSome
  | .array items => arePlainItems items
  | .object members => arePlainMembers members
  | _ => true

def arePlainItems : List Value → Bool
  | [] => true
  | v :: rest => isPlain v && arePlainItems rest

def arePlainMembers : List (Option String × Value) → Bool
  | [] => true
  | (key, v) :: rest => key.isSome && isPlain v && arePlainMembers rest

end

end Value

end FormulaFields.Json
