import FormulaFields.Json.Document
import FormulaFields.Json.Printer
import FormulaFields.Json.Record
import FormulaFields.Operator.Catalog

/-!
Operators as JSON: a listing is an array of records. Only the name is required, and only the
documentation may be `null`.
-/
namespace FormulaFields

open Json (Value Record)

namespace Operator

def recordKeys : List String :=
  ["name", "category", "scope", "definition", "description", "documentation"]

def ofValue? (v : Value) : Option Operator := do
  let r ← Record.ofValue? recordKeys v
  let name ← r.required? "name" Value.text?
  let category ← r.withDefault? "category" "" Value.text?
  let scope ← r.withDefault? "scope" [] Value.texts?
  let definition ← r.withDefault? "definition" "" Value.text?
  let description ← r.withDefault? "description" "" Value.text?
  let documentation ← r.withDefault? "documentation" none (Value.nullable Value.text?)
  some { name, category, scope, definition, description, documentation }

/-- The record of an operator; documentation is written only where there is some. -/
def toValue (op : Operator) : Value :=
  .record ([("name", .text op.name), ("category", .text op.category), ("scope", .texts op.scope),
      ("definition", .text op.definition), ("description", .text op.description)] ++
    (op.documentation.map fun text => ("documentation", Value.text text)).toList)

end Operator

namespace Catalog

/-- The operators of a listing, not yet checked. -/
def operatorsOfText? (text : String) : Option (List Operator) :=
  (Json.read? text).bind fun v => v.items?.bind (·.mapM Operator.ofValue?)

def ofText (text : String) : Except CatalogFault Catalog :=
  match operatorsOfText? text with
  | some operators => ofList operators
  | none => .error .malformed

/-- The listing as compact JSON. -/
def toText (c : Catalog) : String := (Value.array (c.operators.map Operator.toValue)).compact

end Catalog

end FormulaFields
