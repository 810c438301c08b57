import FormulaFields.Names
import FormulaFields.Operator.Basic
import FormulaFields.Operator.Signature

/-!
Rules say which arguments of an operator may hold data fields. Most rules are read off signatures;
overrides replace them for operators whose signatures do not follow the convention.
-/
namespace FormulaFields

structure Rule where
  /-- The positions of the arguments, counted from zero. -/
  positions : List Nat
  /-- Leave out an argument at a listed position when an equals sign occurs in it. -/
  ignoreNamed : Bool := true
  deriving DecidableEq, Repr

namespace Rule

/-- The rule for an operator whose first `count` arguments hold fields. -/
def firstArguments (count : Nat) : Rule := ⟨List.range count, true⟩

def ofSignature (signature : String) : Rule := ⟨Operator.Signature.fieldPositions signature, true⟩

def isEmpty (r : Rule) : Bool := r.positions.isEmpty

end Rule

/-- The rules of all operators by name. -/
abbrev RuleBook := NameMap Rule

namespace RuleBook

/-- Rules for operators whose signatures do not name their fields by the convention. -/
def builtin : RuleBook :=
  .ofList [("greater_equal", Rule.firstArguments 2), ("multiply", Rule.firstArguments 7),
    ("max", Rule.firstArguments 7), ("min", Rule.firstArguments 7)]

/-- The rules in `upper`, and those in `lower` that they do not replace. -/
def layer (upper lower : RuleBook) : RuleBook :=
  upper.foldl (fun rules name rule => rules.insert name rule) lower

/-- The rules that the signatures give; of two operators with one name the later counts. -/
def ofSignatures (operators : List Operator) : RuleBook :=
  .ofList (operators.map fun op => (op.name, Rule.ofSignature op.definition))

/-- The overrides, and for all other operators the rules that their signatures give. -/
def build (operators : List Operator) (overrides : RuleBook) : RuleBook :=
  overrides.layer (ofSignatures operators)

end RuleBook

end FormulaFields
