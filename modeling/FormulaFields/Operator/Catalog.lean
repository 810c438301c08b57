import FormulaFields.Names
import FormulaFields.Operator.Basic
import FormulaFields.Text.Blank

/-!
Catalogs: lists of operators in which every name shows a character and no name comes twice. A list
that breaks this is refused for its first operator that does.
-/
namespace FormulaFields

inductive CatalogFault where
  /-- The text is no listing of operators. -/
  | malformed
  | duplicateName (name : String)
  | blankName (index : Nat)
  deriving DecidableEq, Repr

namespace CatalogFault

/-- What stands before the reason why a JSON text is refused. -/
def malformedTitle : String := "invalid catalog json: "

/-- The wording of a fault. What the reader says of a malformed text is its `reason`. -/
def message (fault : CatalogFault) (reason : String := "") : String :=
  match fault with
  | .malformed => malformedTitle ++ reason
  | .duplicateName name => "duplicate operator name \x60" ++ name ++ "\x60 in catalog"
  | .blankName index => "operator entry #" ++ toString index ++ " has an empty name"

end CatalogFault

namespace Catalog

/-- The fault of the first operator whose name is blank or stands before it; `seen` are the names
before the list, and `index` is the place of its head. -/
def faultAfter? (seen : NameSet) (index : Nat) : List Operator → Option CatalogFault
  | [] => none
  | op :: rest =>
    if Text.isAllBlank op.name then some (.blankName index)
    else if seen.contains op.name then some (.duplicateName op.name)
    else faultAfter? (seen.insert op.name) (index + 1) rest

def fault? (operators : List Operator) : Option CatalogFault := faultAfter? ∅ 0 operators

end Catalog

structure Catalog where
  operators : List Operator
  faultless : Catalog.fault? operators = none

namespace Catalog

def ofList (operators : List Operator) : Except CatalogFault Catalog :=
  match h : fault? operators with
  | some fault => .error fault
  | none => .ok ⟨operators, h⟩

variable (c : Catalog)

def get? (name : String) : Option Operator := c.operators.find? (·.name == name)

def contains (name : String) : Bool := (c.get? name).isSome

def names : NameSet := .ofList (c.operators.map (·.name))

def size : Nat := c.operators.length

def isEmpty : Bool := c.operators.isEmpty

end Catalog

end FormulaFields
