import FormulaFields.Json.Value

/-!
Records as JSON values. A record is an object, of which unknown members are passed over and a known
one may come only once, or an array of the leading fields in their declared order.
-/
namespace FormulaFields.Json

namespace Value

def text? : Value → Option String
  | .string s => s
  | _ => none

def items? : Value → Option (List Value)
  | .array items => some items
  | _ => none

def texts? (v : Value) : Option (List String) := v.items?.bind (·.mapM text?)

/-- What `null` stands for, and otherwise what `decode` makes of the value. -/
def nullable {α : Type} (decode : Value → Option α) : Value → Option (Option α)
  | .null => some none
  | v => (decode v).map some

end Value

/-- The fields of a record that are present, by name. -/
structure Record where
  fields : List (String × Value)

namespace Record

/-- The members with known names, unless a key denotes no text. -/
def known? (names : List String) : List (Option String × Value) → Option (List (String × Value))
  | [] => some []
  | (none, _) :: _ => none
  | (some key, v) :: rest =>
    (known? names rest).map fun found => if names.contains key then (key, v) :: found else found

/-- The record with fields of the given names that a value stands for. -/
def ofValue? (names : List String) : Value → Option Record
  | .object members =>
    (known? names members).bind fun found =>
      if (found.map (·.1)).Nodup then some ⟨found⟩ else none
  | .array items => if items.length ≤ names.length then some ⟨names.zip items⟩ else none
  | _ => none

def field? (r : Record) (name : String) : Option Value := r.fields.lookup name

def required? {α : Type} (r : Record) (name : String) (decode : Value → Option α) : Option α :=
  (r.field? name).bind decode

/-- A field that may be missing, and then has the value `absent`. -/
def withDefault? {α : Type} (r : Record) (name : String) (absent : α) (decode : Value → Option α) :
    Option α :=
  match r.field? name with
  | some v => decode v
  | none => some absent

end Record

end FormulaFields.Json
