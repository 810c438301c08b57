import FormulaFields.Proofs.Refusals
import FormulaFields.Proofs.RuleBooks
import FormulaFields.Proofs.SignaturePositions
import Mathlib.Data.List.Dedup

/-!
Where the rules of a vocabulary come from. What the settings state comes first, then what is built
in, then what the signatures of the catalog give; each layer counts for the names that no layer
before it has. The names of a catalog are distinct, so its order does not matter. Main statement:
`rules_of_layers`.
-/
namespace FormulaFields

/-- A map has as many entries as there are distinct names in it. -/
theorem NameMap.size_eq_length_dedup {Value : Type} {map : NameMap Value} {names : List String}
    (same : ∀ name, name ∈ map ↔ name ∈ names) : map.size = names.dedup.length := by
  rw [← Std.ExtTreeMap.length_keys]
  apply List.Perm.length_eq
  apply (List.perm_ext_iff_of_nodup Std.ExtTreeMap.nodup_keys (List.nodup_dedup names)).mpr
  intro name
  rw [Std.ExtTreeMap.mem_keys, List.mem_dedup, same]

namespace Operator.Signature

/-- Positions are read off a signature in increasing order. -/
theorem pairwise_fieldPositions (signature : String) :
    (fieldPositions signature).Pairwise (· < ·) := by
  rw [fieldPositions]
  split
  next inside enclosed => exact pairwise_places (isFieldParameter <| parameterName ·) _
  · exact List.Pairwise.nil

end Operator.Signature

namespace Catalog

/-! ### Names of a catalog -/

theorem nodup_names (catalog : Catalog) : (catalog.operators.map (·.name)).Nodup :=
  (fault?_eq_none_iff.mp catalog.faultless).distinct

/-- A name stands for the one operator of the catalog that has it. -/
theorem get?_eq_some_iff {catalog : Catalog} {name : String} {op : Operator} :
    catalog.get? name = some op ↔ op ∈ catalog.operators ∧ op.name = name := by
  constructor
  · intro found
    exact ⟨List.mem_of_find?_eq_some found, by simpa using List.find?_some found⟩
  · rintro ⟨member, rfl⟩
    obtain ⟨first, found⟩ : ∃ first, catalog.get? op.name = some first := by
      apply Option.isSome_iff_exists.mp
      exact (catalog.contains_iff op.name).mpr ⟨op, member, rfl⟩
    have named : first.name = op.name := by simpa using List.find?_some found
    have listed : first ∈ catalog.operators := List.mem_of_find?_eq_some found
    rw [found, List.inj_on_of_nodup_map catalog.nodup_names listed member named]

theorem get?_of_perm {catalog other : Catalog} (perm : other.operators.Perm catalog.operators)
    (name : String) : other.get? name = catalog.get? name := by
  apply Option.ext
  intro op
  rw [get?_eq_some_iff, get?_eq_some_iff, perm.mem_iff]

end Catalog

namespace RuleBook

/-- The signatures of a catalog give a rule to every operator in it and to no other name. -/
theorem getElem?_ofSignatures_operators (catalog : Catalog) (name : String) :
    (ofSignatures catalog.operators)[name]? =
      (catalog.get? name).map fun op => Rule.ofSignature op.definition := by
  cases found : catalog.get? name with
  | none =>
    refine getElem?_ofSignatures fun op member same => ?_
    rw [Catalog.get?_eq_some_iff.mpr ⟨member, same⟩] at found
    cases found
  | some op =>
    obtain ⟨member, rfl⟩ := Catalog.get?_eq_some_iff.mp found
    refine Std.ExtTreeMap.getElem?_ofList_of_mem Std.ReflCmp.compare_self ?_
      (List.mem_map.mpr ⟨op, member, rfl⟩)
    have distinct := catalog.nodup_names
    rw [List.Nodup, List.pairwise_map] at distinct
    rw [List.pairwise_map]
    exact distinct.imp fun other => by simpa using other

end RuleBook

namespace Vocabulary

variable {catalog : Catalog} {document : SettingsDocument} {settings : Settings}

private theorem getElem?_rules_of_layers (accepted : Settings.ofDocument document = .ok settings)
    (name : String) :
    (ofCatalog catalog settings).rules[name]? =
      document.overrides[name]?.or (RuleBook.builtin[name]?.or
        ((catalog.get? name).map fun op => Rule.ofSignature op.definition)) := by
  rw [ofCatalog, RuleBook.build, RuleBook.getElem?_layer, Settings.overrideRules,
    RuleBook.getElem?_layer, RuleBook.getElem?_ofSignatures_operators, Option.or_assoc,
    ← (Settings.of_ofDocument accepted).1]

private theorem mem_rules_iff (accepted : Settings.ofDocument document = .ok settings)
    (name : String) :
    name ∈ (ofCatalog catalog settings).rules ↔
      name ∈ catalog.operators.map (·.name) ++ RuleBook.builtin.keys ++
        document.overrides.keys := by
  have listed : (catalog.get? name).isSome = true ↔ name ∈ catalog.operators.map (·.name) := by
    rw [List.mem_map]
    exact catalog.contains_iff name
  rw [Std.ExtTreeMap.mem_iff_isSome_getElem?, getElem?_rules_of_layers accepted]
  simp only [Option.isSome_or, Option.isSome_map, Bool.or_eq_true, List.mem_append, listed,
    Std.ExtTreeMap.mem_keys, Std.ExtTreeMap.mem_iff_isSome_getElem?]
  tauto

private theorem ofCatalog_of_perm {other : Catalog}
    (perm : other.operators.Perm catalog.operators) (settings : Settings) :
    ofCatalog other settings = ofCatalog catalog settings := by
  have names : other.names = catalog.names := by
    apply Std.ExtTreeSet.ext_mem
    intro name
    simp [Catalog.names, perm.mem_iff]
  have rules : RuleBook.build other.operators settings.overrideRules =
      RuleBook.build catalog.operators settings.overrideRules := by
    apply Std.ExtTreeMap.ext_getElem?
    intro name
    rw [RuleBook.build, RuleBook.build, RuleBook.getElem?_layer, RuleBook.getElem?_layer,
      RuleBook.getElem?_ofSignatures_operators, RuleBook.getElem?_ofSignatures_operators,
      Catalog.get?_of_perm perm]
  rw [ofCatalog, ofCatalog, names, rules]

/-- A name has the rule that the settings state for it, or else the one that is built in, or else
the one that the signature of its operator gives; the rules are as many as these names, the
operators are those of the catalog, and their order does not matter. -/
theorem rules_of_layers (catalog : Catalog) {document : SettingsDocument} {settings : Settings}
    (accepted : Settings.ofDocument document = .ok settings) :
    (∀ name, (ofCatalog catalog settings).rules[name]? =
        document.overrides[name]?.or (RuleBook.builtin[name]?.or
          ((catalog.get? name).map fun op => Rule.ofSignature op.definition))) ∧
      (∀ (name : String) (rule : Rule), document.overrides[name]? = some rule →
        rule.positions ≠ []) ∧
      (∀ name op, catalog.get? name = some op ↔ op ∈ catalog.operators ∧ op.name = name) ∧
      (∀ signature, (Rule.ofSignature signature).ignoreNamed = true ∧
        (Rule.ofSignature signature).positions.Pairwise (· < ·)) ∧
      (ofCatalog catalog settings).rules.size =
        (catalog.operators.map (·.name) ++ RuleBook.builtin.keys ++
          document.overrides.keys).dedup.length ∧
      (∀ name, (ofCatalog catalog settings).isOperator name = true ↔
        ∃ op ∈ catalog.operators, op.name = name) ∧
      ∀ other : Catalog, other.operators.Perm catalog.operators →
        ofCatalog other settings = ofCatalog catalog settings := by
  refine ⟨getElem?_rules_of_layers accepted, (Settings.of_ofDocument accepted).2,
    fun name op => Catalog.get?_eq_some_iff, fun signature => ⟨rfl, ?_⟩,
    NameMap.size_eq_length_dedup (mem_rules_iff accepted), fun name => ?_,
    fun other perm => ofCatalog_of_perm perm settings⟩
  · exact Operator.Signature.pairwise_fieldPositions signature
  · rw [isOperator_ofCatalog, Catalog.contains_iff]

/-- Operators with a rule of each kind. -/
def layeredCatalog : Catalog :=
  ⟨[{ name := "max", definition := "max(x, y, ...)" },
    { name := "ts_corr", definition := "ts_corr(x, y, d)" },
    { name := "min", definition := "min(x, y, ...)" }], rfl⟩

/-- Settings that override a rule of the program and one of an operator that is not listed. -/
def layeredSettings : Settings where
  overrides := .ofList [("max", (⟨[2, 1], false⟩ : Rule)), ("vec_choose", ⟨[0], true⟩)]
  depthLimit_ne_zero := Settings.default.depthLimit_ne_zero
  overrides_nonempty := rfl

/-- Each layer is seen through where the layers before it have nothing. -/
theorem rules_of_layers_max :
    Settings.ofDocument layeredSettings.toSettingsDocument = .ok layeredSettings ∧
      (ofCatalog layeredCatalog layeredSettings).rules["max"]? = some ⟨[2, 1], false⟩ ∧
      (ofCatalog layeredCatalog layeredSettings).rules["min"]? = some (Rule.firstArguments 7) ∧
      (ofCatalog layeredCatalog layeredSettings).rules["ts_corr"]? = some ⟨[0, 1], true⟩ ∧
      (ofCatalog layeredCatalog layeredSettings).rules["rank"]? = none ∧
      (ofCatalog layeredCatalog layeredSettings).rules.size = 6 ∧
      ofCatalog ⟨layeredCatalog.operators.reverse, rfl⟩ layeredSettings =
        ofCatalog layeredCatalog layeredSettings := by
  have accepted := Settings.ofDocument_toSettingsDocument layeredSettings
  obtain ⟨rules, _, _, _, size, _, perm⟩ := rules_of_layers layeredCatalog accepted
  refine ⟨accepted, (rules "max").trans (by decide +kernel), (rules "min").trans (by decide +kernel),
    (rules "ts_corr").trans (by decide +kernel), (rules "rank").trans (by decide +kernel),
    size.trans (by decide +kernel), perm _ (List.reverse_perm _)⟩

end Vocabulary

end FormulaFields
