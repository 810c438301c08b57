import FormulaFields.Operator.Listing
import FormulaFields.Proofs.PrintedJson
import FormulaFields.Proofs.Refusals
import FormulaFields.Proofs.RuleLayers

/-!
Listings of operators as text. What is written for an operator is read as this operator, whatever
characters its texts have, so a catalog can be written and read again. Main statement:
`ofText_toText`.
-/
namespace FormulaFields

namespace Json

/-- What was encoded item by item is decoded item by item. -/
theorem mapM_map_eq_some {α β : Type} {encode : α → β} {decode : β → Option α}
    (inverse : ∀ x, decode (encode x) = some x) (items : List α) :
    (items.map encode).mapM decode = some items := by
  induction items with
  | nil => rfl
  | cons x rest ih => simp [inverse, ih]

namespace Value

theorem texts?_texts (list : List String) : texts? (texts list) = some list := by
  have inverse (s : String) : text? (text s) = some s := rfl
  exact mapM_map_eq_some inverse list

theorem isLegible_text (s : String) : (text s).isLegible = true := rfl

theorem isLegible_texts (list : List String) : (texts list).isLegible = true := by
  rw [texts, isLegible, areLegibleItems_iff]
  intro v member
  obtain ⟨s, _, rfl⟩ := List.mem_map.mp member
  exact isLegible_text s

theorem isLegible_record {members : List (String × Value)}
    (legible : ∀ member ∈ members, member.2.isLegible = true) :
    (record members).isLegible = true := by
  rw [record, isLegible, areLegibleMembers_iff]
  intro member listed
  obtain ⟨original, inside, rfl⟩ := List.mem_map.mp listed
  exact ⟨rfl, legible original inside⟩

end Value

namespace Record

private theorem known?_map_some {names : List String} {members : List (String × Value)}
    (known : ∀ member ∈ members, member.1 ∈ names) :
    known? names (members.map fun member => (some member.1, member.2)) = some members := by
  induction members with
  | nil => rfl
  | cons member rest ih =>
    obtain ⟨first, others⟩ := List.forall_mem_cons.mp known
    simp [known?, first, ih others]

/-- A record is read as its members, if they are known and none comes twice. -/
theorem ofValue?_record {names : List String} {members : List (String × Value)}
    (known : ∀ member ∈ members, member.1 ∈ names) (distinct : (members.map (·.1)).Nodup) :
    ofValue? names (.record members) = some ⟨members⟩ := by
  simp [Value.record, ofValue?, known?_map_some known, distinct]

end Record

end Json

open Json (Value Record)

namespace Operator

theorem ofValue?_toValue (op : Operator) : ofValue? op.toValue = some op := by
  obtain ⟨name, category, scope, definition, description, documentation⟩ := op
  -- All members but the list of scopes are read as they stand.
  have read : ofValue? (toValue ⟨name, category, scope, definition, description, documentation⟩) =
      (Value.texts? (.texts scope)).bind fun scope =>
        some ⟨name, category, scope, definition, description, documentation⟩ := by
    rw [ofValue?, toValue]
    cases documentation with
    | none =>
      rw [Record.ofValue?_record (by simp [recordKeys]) (by simp)]
      rfl
    | some text =>
      rw [Record.ofValue?_record (by simp [recordKeys]) (by simp)]
      rfl
  rw [read, Value.texts?_texts, Option.bind_some]

theorem isLegible_toValue (op : Operator) : op.toValue.isLegible = true := by
  apply Value.isLegible_record
  have scope := Value.isLegible_texts op.scope
  cases op.documentation <;> simp [scope, Value.isLegible_text]

end Operator

namespace Catalog

/-- A listing is read as the operators for which it was written. -/
theorem operatorsOfText?_toText (c : Catalog) : operatorsOfText? c.toText = some c.operators := by
  have legible : (Value.array (c.operators.map Operator.toValue)).isLegible = true := by
    rw [Value.isLegible, Value.areLegibleItems_iff]
    intro v member
    obtain ⟨op, _, rfl⟩ := List.mem_map.mp member
    exact op.isLegible_toValue
  rw [operatorsOfText?, toText, Json.read?_compact legible]
  exact Json.mapM_map_eq_some Operator.ofValue?_toValue c.operators

/-- A catalog that was written as JSON is read as the same operators in the same order, under the
same names. -/
theorem ofText_toText {operators : List Operator} {c : Catalog}
    (accepted : ofList operators = .ok c) :
    ∃ copy, ofText c.toText = .ok copy ∧ copy.operators = operators ∧
      (∀ name, copy.get? name = c.get? name) ∧
      (∀ name, copy.contains name = c.contains name) ∧ copy.names = c.names := by
  have listed := operators_of_ofList accepted
  refine ⟨c, ?_, listed, fun _ => rfl, fun _ => rfl, rfl⟩
  rw [ofText, operatorsOfText?_toText, listed]
  exact accepted

/-- Operators with characters that are escaped, with a key that is left out and with empty texts. -/
def escapedCatalog : Catalog :=
  ⟨[{ name := "q\"b\\", category := "\x00\x1f\x7f", scope := ["", "\t\n"],
      definition := "f(\u03b1, x)", documentation := some "" },
    { name := "\u03b1" }], rfl⟩

theorem ofText_toText_escaped :
    ofList escapedCatalog.operators = .ok escapedCatalog ∧
      escapedCatalog.toText =
        "[\x7b\"name\":\"q\\\"b\\\\\",\"category\":\"\\u0000\\u001f\x7f\"," ++
          "\"scope\":[\"\",\"\\t\\n\"],\"definition\":\"f(\u03b1, x)\"," ++
          "\"description\":\"\",\"documentation\":\"\"\x7d," ++
          "\x7b\"name\":\"\u03b1\",\"category\":\"\",\"scope\":[],\"definition\":\"\"," ++
          "\"description\":\"\"\x7d]" ∧
      ∃ copy, ofText escapedCatalog.toText = .ok copy ∧
        copy.operators = escapedCatalog.operators ∧
        (∀ name, copy.get? name = escapedCatalog.get? name) ∧
        (∀ name, copy.contains name = escapedCatalog.contains name) ∧
        copy.names = escapedCatalog.names :=
  ⟨ofList_operators escapedCatalog, by decide +kernel,
    ofText_toText (ofList_operators escapedCatalog)⟩

end Catalog

end FormulaFields
