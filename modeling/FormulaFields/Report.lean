import FormulaFields.Alpha.Reference
import FormulaFields.Json.Printer
import FormulaFields.Settings.Basic
import FormulaFields.Usage.Index

/-!
The two questions a user can ask, and their answers as text and as JSON: which fields does a formula
use, and which alphas use given fields.
-/
namespace FormulaFields

open Json (Value)

structure FieldReport where
  /-- The listed alpha that the input named. -/
  alpha : Option String
  fields : NameSet
  /-- The alphas that use one of the fields, if a listing was given. -/
  matching : Option NameSet

structure MatchReport where
  fields : List String
  matching : NameSet

/-- The fields of what the input names, and the listed alphas that share one. -/
def check (v : Vocabulary) (platform : String) (listing : Option (List Alpha)) (input : String) :
    FieldReport :=
  let subject := Subject.ofInput platform input (listing.getD [])
  let fields := v.fields subject.formula
  { alpha := subject.alpha
    fields
    matching := listing.map fun alphas => (UsageIndex.ofAlphas v alphas).lookup fields.toList }

/-- The listed alphas that use one of the fields. -/
def lookup (v : Vocabulary) (alphas : List Alpha) (fields : List String) : MatchReport :=
  { fields, matching := (UsageIndex.ofAlphas v alphas).lookup fields }

namespace Report

/-- The lines that say which alphas match, each with its link. -/
def matchLines (platform : String) (matching : NameSet) (current : Option String) : List String :=
  if matching.isEmpty then
    match current with
    | some id => ["No other alpha uses these fields (current: " ++ id ++ ")"]
    | none => ["No alpha uses these fields"]
  else
    "Alphas using these fields:" ::
      matching.toList.map fun id => "  " ++ id ++ "  " ++ alphaLink platform id

def ofLines (lines : List String) : String := String.join (lines.map (· ++ "\n"))

def nullable (s : Option String) : Value := s.elim .null .text

def nameSet (names : NameSet) : Value := .texts names.toList

end Report

namespace FieldReport

variable (r : FieldReport)

def lines (platform : String) : List String :=
  (r.alpha.map ("alpha " ++ ·)).toList ++
    [toString r.fields.size ++ " field(s):"] ++ r.fields.toList.map ("  " ++ ·) ++
    r.matching.elim [] (Report.matchLines platform · r.alpha)

def toValue : Value :=
  .record [("alpha_id", Report.nullable r.alpha), ("fields", Report.nameSet r.fields),
    ("matching_alphas", r.matching.elim .null Report.nameSet)]

end FieldReport

namespace MatchReport

variable (r : MatchReport)

def lines (platform : String) : List String := Report.matchLines platform r.matching none

def toValue : Value :=
  .record [("fields", .texts r.fields), ("matching_alphas", Report.nameSet r.matching)]

end MatchReport

end FormulaFields
