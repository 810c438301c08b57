import FormulaFields.Alpha.Basic
import FormulaFields.Usage.Scan

/-!
Which alphas use which fields. The index keeps a set of fields for every id; an id that is stated
again has the fields stated last. The formulas are searched one after the other, or all of them
before the first entry is made and then perhaps several at a time.
-/
namespace FormulaFields

structure UsageIndex where
  entries : NameMap NameSet

namespace UsageIndex

def empty : UsageIndex := ⟨∅⟩

instance : EmptyCollection UsageIndex := ⟨empty⟩

def insert (index : UsageIndex) (id : String) (fields : NameSet) : UsageIndex :=
  ⟨index.entries.insert id fields⟩

def ofList (entries : List (String × NameSet)) : UsageIndex := ⟨.ofList entries⟩

/-- The index of formulas by id, each of them searched when its turn comes. -/
def ofFormulas (v : Vocabulary) (formulas : List (String × String)) : UsageIndex :=
  formulas.foldl (fun index (id, formula) => index.insert id (v.fields formula)) ∅

/-- A way to do one thing to every member of a list, perhaps to several of them at a time. -/
abbrev Spread (Item Result : Type) : Type := (Item → Result) → List Item → List Result

/-- The index of formulas by id, all of them searched before the first entry is made. -/
def ofFormulasBy (spread : Spread (String × String) (String × NameSet)) (v : Vocabulary)
    (formulas : List (String × String)) : UsageIndex :=
  let found := spread (fun (id, formula) => (id, v.fields formula)) formulas
  found.foldl (fun index (id, fields) => index.insert id fields) ∅

/-- The formula of an alpha that belongs in the index: a regular alpha with code. -/
def indexed? (a : Alpha) : Option (String × String) :=
  if a.isRegular then a.formula?.map (a.id, ·) else none

def ofAlphasBy (spread : Spread (String × String) (String × NameSet)) (v : Vocabulary)
    (alphas : List Alpha) : UsageIndex :=
  ofFormulasBy spread v (alphas.filterMap indexed?)

def ofAlphas (v : Vocabulary) (alphas : List Alpha) : UsageIndex := ofAlphasBy List.map v alphas

variable (index : UsageIndex)

def get? (id : String) : Option NameSet := index.entries[id]?

def toList : List (String × NameSet) := index.entries.toList

def size : Nat := index.entries.size

def isEmpty : Bool := index.entries.isEmpty

/-- The ids that use at least one of the fields. -/
def lookup (fields : List String) : NameSet :=
  .ofList ((index.toList.filter fun entry => fields.any entry.2.contains).map (·.1))

end UsageIndex

end FormulaFields
