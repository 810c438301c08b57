import FormulaFields.Proofs.Links
import FormulaFields.Proofs.PrintedListings
import Mathlib.Data.List.Sort

/-!
Reports as texts. What the lines and the JSON of a report are is said here from the report alone:
names in increasing order, a link as the address of the platform with a path behind it. The printers
write just that, and no other text is meant. Main statements: `FieldReport.tells_iff`,
`MatchReport.tells_iff`, `FieldReport.isDocument_iff` and `MatchReport.isDocument_iff`.
-/
namespace FormulaFields

open Json (Value)

/-! ### Sets of names -/

/-- The list has the members of the set, in increasing order. -/
structure NameSet.Lists (names : List String) (set : NameSet) : Prop where
  increasing : names.Pairwise (· < ·)
  mem_iff : ∀ name, name ∈ names ↔ name ∈ set

theorem NameSet.lists_toList (set : NameSet) : Lists set.toList set where
  increasing := by
    refine List.Pairwise.imp ?_ (Std.ExtTreeSet.ordered_toList (t := set))
    intro first second less
    exact compareOfLessAndEq_eq_lt.mp less
  mem_iff _ := Std.ExtTreeSet.mem_toList

/-- There is only one way to list a set. -/
theorem NameSet.lists_iff {names : List String} {set : NameSet} :
    Lists names set ↔ names = set.toList := by
  constructor
  · intro listed
    have other := lists_toList set
    refine listed.increasing.eq_of_mem_iff other.increasing fun name => ?_
    rw [listed.mem_iff, other.mem_iff]
  · rintro rfl
    exact lists_toList set

/-! ### Lines -/

namespace Report

/-- The text is the lines, each with a newline at its end. -/
def IsText (text : String) (lines : List String) : Prop :=
  text.toList = lines.flatMap fun line => line.toList ++ ['\n']

/-- The line stands in the text, at its start or behind a newline, and a newline ends it. -/
def HasLine (text line : String) : Prop :=
  ∃ before after, text = before ++ line ++ "\n" ++ after ∧
    (before = "" ∨ ∃ front, before = front ++ "\n")

theorem isText_iff {text : String} {lines : List String} :
    IsText text lines ↔ text = ofLines lines := by
  rw [← String.toList_inj, ofLines, String.toList_join, List.flatMap_map, IsText]
  simp only [String.toList_append]
  rfl

theorem hasLine_ofLines {lines : List String} {line : String} (member : line ∈ lines) :
    HasLine (ofLines lines) line := by
  obtain ⟨front, back, rfl⟩ := List.append_of_mem member
  refine ⟨ofLines front, ofLines back, by simp [ofLines, String.append_assoc], ?_⟩
  rcases List.eq_nil_or_concat front with rfl | ⟨lines, last, rfl⟩
  · exact .inl rfl
  · exact .inr ⟨ofLines lines ++ last, by simp [ofLines, String.append_assoc]⟩

/-- Behind a line without a newline in it, the next newline of the text ends it. -/
private theorem cut_of_append_eq {line rest front behind : List Char} (plain : '\n' ∉ line)
    (whole : line ++ '\n' :: rest = front ++ '\n' :: behind) :
    front = line ∧ rest = behind ∨
      ∃ more, front = line ++ '\n' :: more ∧ rest = more ++ '\n' :: behind := by
  rcases List.append_eq_append_iff.mp whole with ⟨more, rfl, later⟩ | ⟨more, rfl, later⟩
  · rcases List.cons_eq_append_iff.mp later with ⟨rfl, here⟩ | ⟨others, rfl, here⟩
    · exact .inl ⟨List.append_nil _, (List.cons.inj here).2.symm⟩
    · exact .inr ⟨others, rfl, here⟩
  · rcases List.cons_eq_append_iff.mp later with ⟨rfl, here⟩ | ⟨others, rfl, _⟩
    · exact .inl ⟨(List.append_nil _).symm, (List.cons.inj here).2⟩
    · exact absurd (List.mem_append_right front List.mem_cons_self) plain

private theorem mem_of_flatMap_eq {lines : List (List Char)} (plain : ∀ l ∈ lines, '\n' ∉ l)
    {before line after : List Char} (own : '\n' ∉ line)
    (start : before = [] ∨ ∃ front, before = front ++ ['\n'])
    (whole : lines.flatMap (· ++ ['\n']) = before ++ line ++ '\n' :: after) : line ∈ lines := by
  -- The first line is cut off the text, and what stands before the line grows shorter by it.
  induction lines generalizing before with
  | nil => simp at whole
  | cons first rest ih =>
    obtain ⟨free, others⟩ := List.forall_mem_cons.mp plain
    rw [List.flatMap_cons, List.append_assoc, List.singleton_append] at whole
    rcases start with rfl | ⟨front, rfl⟩
    · rcases cut_of_append_eq free whole with ⟨same, _⟩ | ⟨more, longer, _⟩
      · rw [List.nil_append] at same
        exact same ▸ List.mem_cons_self
      · simp [show line = first ++ '\n' :: more from longer] at own
    · -- The line begins behind a newline: the one that ends the first line or a later one.
      simp only [List.append_assoc, List.singleton_append] at whole
      apply List.mem_cons_of_mem
      rcases cut_of_append_eq free whole with ⟨_, next⟩ | ⟨more, _, later⟩
      · exact ih others (.inl rfl) next
      · exact ih others (.inr ⟨more, rfl⟩) (by simpa using later)

/-- Where no line holds a newline itself, no other line stands in the text. -/
theorem hasLine_ofLines_iff {lines : List String} {line : String}
    (plain : ∀ l ∈ lines, '\n' ∉ l.toList) (own : '\n' ∉ line.toList) :
    HasLine (ofLines lines) line ↔ line ∈ lines := by
  refine ⟨?_, hasLine_ofLines⟩
  rintro ⟨before, after, whole, start⟩
  have chars : (lines.map String.toList).flatMap (· ++ ['\n']) =
      before.toList ++ line.toList ++ '\n' :: after.toList := by
    have text : IsText (ofLines lines) lines := isText_iff.mpr rfl
    rw [IsText, whole] at text
    simpa [List.flatMap_map] using text.symm
  have begun : before.toList = [] ∨ ∃ front, before.toList = front ++ ['\n'] := by
    rcases start with rfl | ⟨front, rfl⟩
    · exact .inl rfl
    · exact .inr ⟨front.toList, by simp⟩
  have listed := mem_of_flatMap_eq (List.forall_mem_map.mpr plain) own begun chars
  obtain ⟨other, member, same⟩ := List.mem_map.mp listed
  exact String.toList_injective same ▸ member

/-- The address without the slashes at its end. -/
structure IsBase (platform base : String) : Prop where
  slashes : ∃ slashes, platform.toList = base.toList ++ slashes ∧ ∀ c ∈ slashes, c = '/'
  ended : base.toList.getLast? ≠ some '/'

theorem isBase_iff {platform base : String} :
    IsBase platform base ↔
      base = String.ofList (Text.dropEndWhile (· == '/') platform.toList) := by
  rw [← String.toList_inj, String.toList_ofList, Text.dropEndWhile_eq]
  constructor
  · rintro ⟨⟨slashes, whole, only⟩, ended⟩
    -- Dropping passes all of the slashes and stops at the end of the base.
    have passed : ∀ c ∈ slashes.reverse, (c == '/') = true := by simpa using only
    have kept : base.toList.rdropWhile (· == '/') = base.toList := by
      rw [List.rdropWhile_eq_self_iff]
      intro filled last
      rw [List.getLast?_eq_some_getLast filled, beq_iff_eq.mp last] at ended
      exact ended rfl
    rw [whole, List.rdropWhile, List.reverse_append, List.dropWhile_append_of_pos passed]
    exact kept.symm
  · intro same
    refine ⟨⟨platform.toList.rtakeWhile (· == '/'), ?_, fun c slash => ?_⟩, ?_⟩
    · rw [same, List.rdropWhile_append_rtakeWhile]
    · simpa using List.mem_rtakeWhile_imp slash
    · rw [same]
      intro last
      have filled : platform.toList.rdropWhile (· == '/') ≠ [] := by
        intro none
        rw [none] at last
        cases last
      rw [List.getLast?_eq_some_getLast filled, Option.some.injEq] at last
      exact List.rdropWhile_last_not _ _ filled (by rw [last]; rfl)

/-- The lines say which alphas match, each with its link, or that none does. -/
inductive TellsMatches (platform : String) (matching : NameSet) :
    Option String → List String → Prop
  | none (empty : matching = ∅) :
      TellsMatches platform matching none ["No alpha uses these fields"]
  | noOther (id : String) (empty : matching = ∅) :
      TellsMatches platform matching (some id)
        ["No other alpha uses these fields (current: " ++ id ++ ")"]
  | some (current : Option String) {ids : List String} {base : String} (filled : matching ≠ ∅)
      (listed : NameSet.Lists ids matching) (address : IsBase platform base) :
      TellsMatches platform matching current
        ("Alphas using these fields:" ::
          ids.map fun id => "  " ++ id ++ "  " ++ (base ++ "/alpha/" ++ id))

theorem tellsMatches_iff {platform : String} {matching : NameSet} {current : Option String}
    {lines : List String} :
    TellsMatches platform matching current lines ↔
      lines = matchLines platform matching current := by
  rw [matchLines.eq_def]
  constructor
  · intro told
    cases told with
    | none empty => rw [if_pos (Std.ExtTreeSet.isEmpty_iff.mpr empty)]
    | noOther id empty => rw [if_pos (Std.ExtTreeSet.isEmpty_iff.mpr empty)]
    | some _ filled listed address =>
      rw [if_neg (mt Std.ExtTreeSet.isEmpty_iff.mp filled), NameSet.lists_iff.mp listed,
        isBase_iff.mp address]
      rfl
  · rintro rfl
    split
    next empty =>
      rw [Std.ExtTreeSet.isEmpty_iff] at empty
      cases current with
      | none => exact .none empty
      | some id => exact .noOther id empty
    next filled =>
      rw [Std.ExtTreeSet.isEmpty_iff] at filled
      exact .some current filled (NameSet.lists_toList matching) (isBase_iff.mpr rfl)

end Report

/-! ### Reports -/

namespace FieldReport

variable {r : FieldReport} {platform : String} {lines : List String} {v : Value}

/-- The lines are the report as text: the alpha, if the input names one, the fields after their
number, and the alphas that match, if a listing is given. -/
def Tells (r : FieldReport) (platform : String) (lines : List String) : Prop :=
  ∃ fields found, NameSet.Lists fields r.fields ∧
    lines = r.alpha.elim [] (fun id => ["alpha " ++ id]) ++
      (toString fields.length ++ " field(s):") :: fields.map ("  " ++ ·) ++ found ∧
    (r.matching = none → found = []) ∧
    ∀ names, r.matching = some names → Report.TellsMatches platform names r.alpha found

theorem lines_eq (r : FieldReport) (platform : String) :
    r.lines platform = r.alpha.elim [] (fun id => ["alpha " ++ id]) ++
      (toString r.fields.toList.length ++ " field(s):") :: r.fields.toList.map ("  " ++ ·) ++
        r.matching.elim [] (Report.matchLines platform · r.alpha) := by
  rw [FieldReport.lines, Std.ExtTreeSet.length_toList]
  cases r.alpha <;> simp

theorem tells_iff : r.Tells platform lines ↔ lines = r.lines platform := by
  rw [lines_eq]
  constructor
  · rintro ⟨fields, found, listed, rfl, unlisted, told⟩
    have last : found = r.matching.elim [] (Report.matchLines platform · r.alpha) := by
      cases matching : r.matching with
      | none => exact unlisted matching
      | some names => exact Report.tellsMatches_iff.mp (told names matching)
    rw [NameSet.lists_iff.mp listed, last]
  · rintro rfl
    refine ⟨_, _, NameSet.lists_toList _, rfl, fun unlisted => ?_, fun names listed => ?_⟩
    · rw [unlisted]
      rfl
    · rw [listed]
      exact Report.tellsMatches_iff.mpr rfl

/-- The value is the report as JSON. -/
def IsDocument (r : FieldReport) (v : Value) : Prop :=
  ∃ (fields : List String) (matching : Option (List String)),
    v = .record [("alpha_id", r.alpha.elim .null .text), ("fields", .texts fields),
      ("matching_alphas", matching.elim .null .texts)] ∧
    NameSet.Lists fields r.fields ∧ (matching = none ↔ r.matching = none) ∧
    ∀ ids, matching = some ids → ∃ names, r.matching = some names ∧ NameSet.Lists ids names

theorem toValue_eq (r : FieldReport) :
    r.toValue = .record [("alpha_id", r.alpha.elim .null .text),
      ("fields", .texts r.fields.toList),
      ("matching_alphas", (r.matching.map (·.toList)).elim .null .texts)] := by
  rw [toValue]
  cases r.matching <;> rfl

theorem isDocument_iff : r.IsDocument v ↔ v = r.toValue := by
  rw [toValue_eq]
  constructor
  · rintro ⟨fields, matching, rfl, listed, absent, each⟩
    have matched : matching = r.matching.map (·.toList) := by
      cases matching with
      | none =>
        rw [absent.mp rfl]
        rfl
      | some ids =>
        obtain ⟨names, held, ordered⟩ := each ids rfl
        rw [held, NameSet.lists_iff.mp ordered]
        rfl
    rw [NameSet.lists_iff.mp listed, matched]
  · rintro rfl
    refine ⟨_, _, rfl, NameSet.lists_toList _, Option.map_eq_none_iff, fun ids listed => ?_⟩
    obtain ⟨names, held, rfl⟩ := Option.map_eq_some_iff.mp listed
    exact ⟨names, held, NameSet.lists_toList names⟩

theorem isLegible_toValue (r : FieldReport) : r.toValue.isLegible = true := by
  apply Value.isLegible_record
  intro member listed
  simp only [List.mem_cons, List.not_mem_nil, or_false] at listed
  rcases listed with rfl | rfl | rfl
  · cases r.alpha <;> rfl
  · exact Value.isLegible_texts _
  · cases r.matching with
    | none => rfl
    | some names => exact Value.isLegible_texts _

end FieldReport

namespace MatchReport

variable {r : MatchReport} {platform : String} {lines : List String} {v : Value}

/-- The lines are the report as text. -/
def Tells (r : MatchReport) (platform : String) (lines : List String) : Prop :=
  Report.TellsMatches platform r.matching none lines

theorem tells_iff : r.Tells platform lines ↔ lines = r.lines platform :=
  Report.tellsMatches_iff

/-- The value is the report as JSON. -/
def IsDocument (r : MatchReport) (v : Value) : Prop :=
  ∃ ids, v = .record [("fields", .texts r.fields), ("matching_alphas", .texts ids)] ∧
    NameSet.Lists ids r.matching

theorem isDocument_iff : r.IsDocument v ↔ v = r.toValue := by
  constructor
  · rintro ⟨ids, rfl, listed⟩
    rw [NameSet.lists_iff.mp listed]
    rfl
  · rintro rfl
    exact ⟨_, rfl, NameSet.lists_toList _⟩

theorem isLegible_toValue (r : MatchReport) : r.toValue.isLegible = true := by
  apply Value.isLegible_record
  intro member listed
  simp only [List.mem_cons, List.not_mem_nil, or_false] at listed
  rcases listed with rfl | rfl <;> exact Value.isLegible_texts _

end MatchReport

end FormulaFields
