import FormulaFields.Proofs.Cleaning
import FormulaFields.Proofs.ExpressionTree
import FormulaFields.Proofs.Provenance
import FormulaFields.Proofs.Uncommenting

/-!
What is known of a name, and whether it can be a field. Operators are the names of a catalog, and
none of them is a field. Rules have more sources: an override gives a rule to any name, and a name
that is no operator can be a field, rule or not.
-/
namespace FormulaFields

open Formula

/-- A name is no comment, and it reads as itself. -/
private theorem sightOf_uncomment_identifier {name : String}
    (identifier : isIdentifier name = true) :
    sightOf (uncomment name.toList) = [⟨.name, name⟩] := by
  have slash : '/' ∉ name.toList :=
    fun member => absurd (namePart_of_mem_identifier identifier member) (by decide)
  rw [(uncomment_of_no_slash slash).2, sightOf, String.ofList_toList, sight,
    (Reads.name identifier).tokens]
  simp [Token.gist]

namespace RuleBook

/-- A layer hides what lies under it, name by name. -/
theorem getElem?_layer (upper lower : RuleBook) (name : String) :
    (upper.layer lower)[name]? = upper[name]?.or lower[name]? :=
  NameMap.getElem?_foldl_insert_map upper lower name

/-- Signatures give no rules but to operators. -/
theorem getElem?_ofSignatures {operators : List Operator} {name : String}
    (absent : ∀ op ∈ operators, op.name ≠ name) : (ofSignatures operators)[name]? = none := by
  apply Std.ExtTreeMap.getElem?_ofList_of_contains_eq_false
  simpa using absent

end RuleBook

namespace Catalog

theorem contains_iff (catalog : Catalog) (name : String) :
    catalog.contains name = true ↔ ∃ op ∈ catalog.operators, op.name = name := by
  simp [contains, get?, List.find?_isSome]

end Catalog

namespace Vocabulary

/-- The operators of a vocabulary are the names in its catalog. -/
theorem isOperator_ofCatalog (catalog : Catalog) (settings : Settings) (name : String) :
    (ofCatalog catalog settings).isOperator name = catalog.contains name := by
  rw [Bool.eq_iff_iff, Catalog.contains_iff]
  simp [isOperator, ofCatalog, Catalog.names]

/-- A name that is no operator has the rule that the settings or the program give to it. -/
theorem getElem?_rules_ofCatalog (catalog : Catalog) (settings : Settings) {name : String}
    (absent : catalog.contains name = false) :
    (ofCatalog catalog settings).rules[name]? =
      settings.overrides[name]?.or RuleBook.builtin[name]? := by
  have unnamed : ∀ op ∈ catalog.operators, op.name ≠ name := by
    intro op member same
    rw [(catalog.contains_iff name).mpr ⟨op, member, same⟩] at absent
    cases absent
  rw [ofCatalog, RuleBook.build, RuleBook.getElem?_layer, RuleBook.getElem?_ofSignatures unnamed,
    Option.or_none, Settings.overrideRules, RuleBook.getElem?_layer]

variable {v : Vocabulary}

/-- Fields are identifiers, and neither operators nor logical words. -/
theorem isField_of_mem_fields {formula name : String} (member : name ∈ v.fields formula) :
    v.isOperator name = false ∧ isIdentifier name = true ∧ name ∉ Token.logicalWords := by
  rw [fields_eq, mem_fieldsOfTokens_iff] at member
  obtain ⟨candidate, _, operator⟩ := member
  obtain ⟨logical, index, counts⟩ := exists_of_mem_candidates candidate
  exact ⟨operator, identifier_of_mem_tokens (List.mem_of_getElem? counts.token) rfl, logical⟩

/-- A single name is one statement without a target, no operand of anything, and no call. -/
private theorem mem_fieldsOfTokens_name {name : String} (operator : v.isOperator name = false)
    (logical : name ∉ Token.logicalWords) : name ∈ v.fieldsOfTokens [⟨.name, name⟩] := by
  have fragments : fragmentTokens [⟨.name, name⟩] = [[⟨.name, name⟩]] := by
    simp [fragmentTokens, statementTokens, valueTokens, assignment?, Nesting.pieces,
      Nesting.cutFirst?, Nesting.separates, Kind.shift]
  have unassigned : assignedNames v.operators [⟨.name, name⟩] = [] := by
    simp [assignedNames, statementTokens, targetTokens, assignment?, Nesting.pieces,
      Nesting.cutFirst?, Nesting.separates, Kind.shift, names]
  have simple : isCompound [⟨.name, name⟩] = false := by
    simp [isCompound, Nesting.cutFirst?, Nesting.separates, Token.isLogicalWord, logical,
      Kind.isConnective, Kind.shift]
  have found : name ∈ v.scanTokens (v.depthLimit + 1) [⟨.name, name⟩] := by
    simp [scanTokens, simple, tokenCalls, tokenCallsAfter, plainNames, names, boundNames,
      Token.isName, operator, logical]
  rw [mem_fieldsOfTokens_iff, candidatesOfTokens, fragments]
  refine ⟨?_, by simp [unassigned], operator⟩
  exact List.mem_append_right _ (List.mem_flatMap.mpr ⟨_, List.mem_singleton_self _, found⟩)

/-- Every name that may be a field is the field of the formula that consists of it. -/
theorem mem_fields_self {name : String} (operator : v.isOperator name = false)
    (identifier : isIdentifier name = true) (logical : name ∉ Token.logicalWords) :
    name ∈ v.fields name := by
  rw [fields_eq_sightOf, sightOf_uncomment_identifier identifier]
  exact mem_fieldsOfTokens_name operator logical

/-- No name that has a rule would be a field. -/
def RuledNamesHidden : Prop :=
  ∀ (catalog : Catalog) (settings : Settings) (formula name : String),
    name ∈ (ofCatalog catalog settings).fields formula →
      (ofCatalog catalog settings).rules[name]? = none

/-- A catalog that does not list `max` leaves it a field, though it has a rule of its own. -/
theorem not_ruledNamesHidden : ¬ RuledNamesHidden := by
  intro hidden
  have unruled := hidden ⟨[], rfl⟩ .default "max(1, 2)" "max" (by decide +kernel)
  rw [getElem?_rules_ofCatalog _ _ (by decide)] at unruled
  exact absurd unruled (by decide +kernel)

/-- No name of the catalog is a field, so a field that has a rule has it from the settings or from
the program. The names with such rules that can be fields are the identifiers among them that the
catalog does not list, logical words left out. -/
theorem fields_ofCatalog (catalog : Catalog) (settings : Settings) (name : String) :
    (∀ formula, name ∈ (ofCatalog catalog settings).fields formula →
        catalog.contains name = false ∧
          (ofCatalog catalog settings).rules[name]? =
            settings.overrides[name]?.or RuleBook.builtin[name]?) ∧
      ((∃ formula, name ∈ (ofCatalog catalog settings).fields formula) ∧
          name ∈ (ofCatalog catalog settings).rules ↔
        catalog.contains name = false ∧
          (name ∈ settings.overrides ∨ name ∈ RuleBook.builtin) ∧
          isIdentifier name = true ∧ name ∉ Token.logicalWords) := by
  have listed {formula : String} (member : name ∈ (ofCatalog catalog settings).fields formula) :
      catalog.contains name = false := by
    rw [← isOperator_ofCatalog catalog settings]
    exact (isField_of_mem_fields member).1
  have ruled (absent : catalog.contains name = false) :
      name ∈ (ofCatalog catalog settings).rules ↔
        name ∈ settings.overrides ∨ name ∈ RuleBook.builtin := by
    simp only [Std.ExtTreeMap.mem_iff_isSome_getElem?, getElem?_rules_ofCatalog _ _ absent,
      Option.isSome_or, Bool.or_eq_true]
  refine ⟨fun formula member => ?_, ?_, ?_⟩
  · exact ⟨listed member, getElem?_rules_ofCatalog catalog settings (listed member)⟩
  · rintro ⟨⟨formula, member⟩, rule⟩
    obtain ⟨_, identifier, logical⟩ := isField_of_mem_fields member
    exact ⟨listed member, (ruled (listed member)).mp rule, identifier, logical⟩
  · rintro ⟨absent, rule, identifier, logical⟩
    have operator : (ofCatalog catalog settings).isOperator name = false := by
      rw [isOperator_ofCatalog, absent]
    exact ⟨⟨name, mem_fields_self operator identifier logical⟩, (ruled absent).mpr rule⟩

/-- Of a catalog that lists `min` the names with rules that can be fields include `max`. -/
theorem fields_ofCatalog_max :
    (Catalog.mk [{ name := "min" }] rfl).contains "max" = false ∧
      (∃ formula, "max" ∈ (ofCatalog ⟨[{ name := "min" }], rfl⟩ .default).fields formula) ∧
      "max" ∈ (ofCatalog ⟨[{ name := "min" }], rfl⟩ .default).rules := by
  have absent : (Catalog.mk [{ name := "min" }] rfl).contains "max" = false := by decide
  have builtin : "max" ∈ RuleBook.builtin := by decide +kernel
  exact ⟨absent, (fields_ofCatalog ⟨[{ name := "min" }], rfl⟩ .default "max").2.mpr
    ⟨absent, Or.inr builtin, by decide, by decide⟩⟩

end Vocabulary

end FormulaFields
