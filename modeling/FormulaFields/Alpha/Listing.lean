import FormulaFields.Alpha.Basic
import FormulaFields.Json.Document
import FormulaFields.Json.Record

/-!
Listings of alphas as JSON: an array of records, or a page, which is an object with that array as
its one member `results`. All of the document must be plain text and numbers in range, and it may
be nested only so deep, also in the parts that are passed over.
-/
namespace FormulaFields

open Json (Value Record)

namespace AlphaCode

def ofValue? (v : Value) : Option AlphaCode := do
  let r ← Record.ofValue? ["code", "description"] v
  let formula ← r.required? "code" Value.text?
  let description ← r.withDefault? "description" none (Value.nullable Value.text?)
  some { formula, description }

end AlphaCode

namespace Alpha

def ofValue? (v : Value) : Option Alpha := do
  let r ← Record.ofValue? ["id", "type", "regular"] v
  let id ← r.required? "id" Value.text?
  let kind ← r.withDefault? "type" none (Value.nullable Value.text?)
  let code ← r.withDefault? "regular" none (Value.nullable AlphaCode.ofValue?)
  some { id, kind, code }

end Alpha

namespace AlphaListing

/-- Documents nested this deep are refused. -/
def nestingLimit : Nat := 128

/-- The array of records in a listing. -/
def entries? : Value → Option (List Value)
  | .array items => some items
  | .object members =>
    match members.filter (·.1 == some "results") with
    | [(_, .array items)] => some items
    | _ => none
  | _ => none

def ofValue? (v : Value) : Option (List Alpha) :=
  (entries? v).bind (·.mapM Alpha.ofValue?)

def ofText? (text : String) : Option (List Alpha) :=
  (Json.read? text).bind fun v =>
    if v.isPlain && v.depth < nestingLimit then ofValue? v else none

end AlphaListing

end FormulaFields
