import FormulaFields.Proofs.Ceiling
import FormulaFields.Proofs.StatementView

/-!
Names that stand beside calls. A text is searched operand by operand, and an operand yields either
what its calls report or, if they report nothing, all of its plain names. So a name in an operand is
a field of the formula unless the operand binds it or the calls beside it report a field, and
neither exception can be left out.
-/
namespace FormulaFields

open Formula

namespace Formula

/-- Without a connective or a logical word outside brackets, tokens are their own only operand. -/
theorem pieces_of_not_isCompound {ts : List Token} (simple : isCompound ts = false) :
    Nesting.pieces (·.kind.shift) Token.isJoint 0 ts = [ts] := by
  rw [isCompound, Bool.or_eq_false_iff] at simple
  obtain ⟨connective, logical⟩ := simple
  apply Nesting.pieces_of_cutFirst?_eq_none
  -- Where no connective stands, only logical words are joints.
  have same : ∀ t ∈ ts, t.isJoint = t.isLogicalWord := by
    intro t member
    have other : t.kind.isConnective = false := by
      simpa using List.any_eq_false.mp connective t member
    rw [Token.isJoint, other, Bool.false_or]
  rw [Nesting.cutFirst?_congr _ _ same]
  exact Option.isSome_eq_false_iff.mp logical |> Option.isNone_iff_eq_none.mp

theorem isCompound_sight (text : String) : isCompound (sight text) = isCompound (tokens text) :=
  (relabels_gist ⟨∅, ∅, 0⟩).isCompound_map (tokens text)

theorem sight_operands (text : String) :
    (operands text).map sight = splitTokens Token.isJoint (sight text) :=
  sight_splitText (relabels_gist ⟨∅, ∅, 0⟩).isJoint text

/-- An operand is not cut any further. -/
theorem pieces_of_mem_operands {source operand : String} (member : operand ∈ operands source) :
    Nesting.pieces (·.kind.shift) Token.isJoint 0 (sight operand) = [sight operand] := by
  have seen : sight operand ∈ splitTokens Token.isJoint (sight source) := by
    rw [← sight_operands]
    exact List.mem_map_of_mem member
  exact Nesting.pieces_of_mem_pieces _ _ (List.mem_filter.mp seen).1

/-- A name that is no logical word. -/
def Token.isPlainName (t : Token) : Bool := t.isName && !logicalWords.contains t.text

private theorem isPlainName_of_isJoint (t : Token) (joint : t.isJoint = true) :
    t.isPlainName = false := by
  simp only [Token.isJoint, Token.isLogicalWord, Bool.or_eq_true, Bool.and_eq_true] at joint
  rcases joint with connective | ⟨_, logical⟩
  · cases kind : t.kind with
    | connective op => simp [Token.isPlainName, Token.isName, kind]
    | _ => simp [kind, Kind.isConnective] at connective
  · rw [Token.isPlainName, logical, Bool.not_true, Bool.and_false]

private theorem filter_isPlainName_sight (text : String) :
    (sight text).filter (·.isPlainName) = (tokens text).filter (·.isPlainName) := by
  rw [sight]
  induction tokens text with
  | nil => rfl
  | cons t rest ih =>
    rw [List.map_cons, List.filter_cons, List.filter_cons, ih]
    -- Names are seen as they are, and what is no name is not seen as one.
    by_cases named : t.isName = true
    · rw [Token.gist_of_name named]
    · simp [Token.isPlainName, Token.isName_gist, named]

/-- The operands of a text hold all of its names but the logical words between them, in order. -/
theorem plainNames_operands (source : String) :
    (operands source).flatMap (fun operand => (tokens operand).filter (·.isPlainName)) =
      (tokens source).filter (·.isPlainName) := by
  have filled := flatMap_filter_splitTokens isPlainName_of_isJoint (sight source)
  rw [← sight_operands, List.flatMap_map] at filled
  simpa only [filter_isPlainName_sight] using filled

end Formula

namespace Vocabulary

/-! ### Quiet operands -/

/-- The calls of an expression `depth` deep report a field, so that its other names are not looked
at. No call is looked at where a connective stands or the limit is passed. -/
structure CallsReport (v : Vocabulary) (depth : Nat) (expression : String) : Prop where
  simple : isCompound (tokens expression) = false
  within : depth ≤ v.depthLimit
  found : ∃ call ∈ calls expression, ∃ argument ∈ v.fieldArguments mentionsEquals call,
    v.scanText argument (depth + 1) ≠ []

instance (v : Vocabulary) (depth : Nat) (expression : String) :
    Decidable (v.CallsReport depth expression) :=
  decidable_of_iff (isCompound (tokens expression) = false ∧ depth ≤ v.depthLimit ∧
      ∃ call ∈ calls expression, ∃ argument ∈ v.fieldArguments mentionsEquals call,
        v.scanText argument (depth + 1) ≠ [])
    ⟨fun ⟨simple, within, found⟩ => ⟨simple, within, found⟩,
      fun ⟨simple, within, found⟩ => ⟨simple, within, found⟩⟩

variable {v : Vocabulary}

/-- What the calls among the tokens report, their arguments being searched so many levels deep. -/
def reported (v : Vocabulary) (levels : Nat) (ts : List Token) : List String :=
  ((tokenCalls ts).flatMap (v.fieldArguments holdEquals)).flatMap (v.scanTokens levels)

theorem scanTokens_of_simple {ts : List Token} (simple : isCompound ts = false) (levels : Nat) :
    v.scanTokens (levels + 1) ts =
      if (v.reported levels ts).isEmpty then v.plainNames ts else v.reported levels ts := by
  rw [scanTokens, simple, if_neg Bool.false_ne_true]
  rfl

theorem reported_sight (levels : Nat) (text : String) :
    v.reported levels (sight text) = v.reported levels (tokens text) := by
  have gist := relabels_gist v
  have inner (ts : List Token) :
      v.scanTokens levels (ts.map Token.gist) = v.scanTokens levels ts := by
    rw [gist.scanTokens_map, List.map_id]
  simp only [reported, sight, gist.arguments_map, List.flatMap_map, inner]

theorem callsReport_iff {depth : Nat} {expression : String} :
    v.CallsReport depth expression ↔ isCompound (tokens expression) = false ∧
      depth ≤ v.depthLimit ∧ v.reported (v.depthLimit - depth) (tokens expression) ≠ [] := by
  have levels (text : String) : v.scanText text (depth + 1) =
      v.scanTokens (v.depthLimit - depth) (sight text) := by
    rw [scanText, scan_sight, Nat.add_sub_add_right]
  have found : v.reported (v.depthLimit - depth) (tokens expression) ≠ [] ↔
      ∃ call ∈ calls expression, ∃ argument ∈ v.fieldArguments mentionsEquals call,
        v.scanText argument (depth + 1) ≠ [] := by
    rw [← reported_sight, reported, ← sight_arguments, List.flatMap_map, Ne,
      List.flatMap_eq_nil_iff]
    simp only [not_forall, levels, List.mem_flatMap]
    constructor
    · rintro ⟨argument, ⟨call, listed, chosen⟩, yields⟩
      exact ⟨call, listed, argument, chosen, yields⟩
    · rintro ⟨call, listed, argument, chosen, yields⟩
      exact ⟨argument, ⟨call, listed, chosen⟩, yields⟩
  rw [found]
  exact ⟨fun ⟨simple, within, report⟩ => ⟨simple, within, report⟩,
    fun ⟨simple, within, report⟩ => ⟨simple, within, report⟩⟩

/-- An operand whose calls report nothing yields its plain names. -/
theorem scanText_of_quiet {depth : Nat} {source operand : String}
    (member : operand ∈ operands source) (quiet : ¬ v.CallsReport depth operand) :
    v.scanText operand depth = v.plainNames (tokens operand) := by
  rw [scanText, scan_sight, ← plainNames_sight]
  by_cases compound : isCompound (tokens operand) = true
  · -- The connectives stand in brackets, so the operand is cut into itself, down to the limit.
    rw [← isCompound_sight] at compound
    exact scanTokens_uncut v compound (pieces_of_mem_operands member) _
  · by_cases within : depth ≤ v.depthLimit
    · -- No call reports anything, so the search falls back to the plain names.
      have simple : isCompound (tokens operand) = false := by simpa using compound
      have silent : v.reported (v.depthLimit - depth) (sight operand) = [] := by
        by_contra found
        rw [reported_sight] at found
        exact quiet (callsReport_iff.mpr ⟨simple, within, found⟩)
      obtain ⟨levels, left⟩ : ∃ levels, v.depthLimit + 1 - depth = levels + 1 :=
        ⟨v.depthLimit - depth, by omega⟩
      have fewer : v.depthLimit - depth = levels := by omega
      rw [fewer] at silent
      rw [left, scanTokens_of_simple (by rw [isCompound_sight, simple]), silent]
      rfl
    · -- Below the limit nothing but the plain names is looked at.
      have none : v.depthLimit + 1 - depth = 0 := by omega
      rw [none, scanTokens]

/-- The depth at which the operands of a text are searched: a text that is not cut is searched
itself. -/
def operandDepth (source : String) : Nat := if isCompound (tokens source) then 1 else 0

private theorem flatMap_operands (source : String) (depth : Nat) :
    (operands source).flatMap (v.scanText · depth) =
      (splitTokens Token.isJoint (sight source)).flatMap
        (v.scanTokens (v.depthLimit + 1 - depth)) := by
  rw [← sight_operands, List.flatMap_map]
  simp only [scanText, scan_sight]

/-- A text is searched operand by operand. -/
theorem scanText_eq_flatMap_operands (source : String) :
    v.scanText source 0 = (operands source).flatMap (v.scanText · (operandDepth source)) := by
  rw [flatMap_operands, scanText, scan_sight, operandDepth, Nat.sub_zero]
  by_cases compound : isCompound (tokens source) = true
  · -- Cutting takes one level, which is the depth at which the operands are searched.
    rw [if_pos compound, Nat.add_sub_cancel, scanTokens, isCompound_sight, if_pos compound]
  · rw [if_neg compound, splitTokens,
      pieces_of_not_isCompound (by rw [isCompound_sight]; simpa using compound)]
    -- A text without tokens has no operands and no names.
    cases sight source with
    | nil => rfl
    | cons t rest => exact (List.flatMap_singleton _ _).symm

/-! ### Bare names -/

/-- Every name that stands in a fragment outside brackets, with no parenthesis and no equals sign
behind it, is a field of the formula, if it can be one and is not assigned. -/
def ReportsBareNames (v : Vocabulary) (formula : String) : Prop :=
  ∀ fragment ∈ (v.script formula).fragments, ∀ before name after,
    tokens fragment = before ++ ⟨.name, name⟩ :: after →
    Nesting.level (·.kind.shift) 0 before = 0 →
    (∀ next ∈ after.head?, next.kind ≠ .opening .round ∧ next.kind ≠ .equals) →
    v.Admits name → name ∉ (v.script formula).assigned → name ∈ v.fields formula

/-- A call beside a name can hide it, and so can a binding of the name in the same expression. -/
theorem not_reportsBareNames :
    ¬ ReportsBareNames ⟨.ofList ["rank"], .ofList [("rank", Rule.firstArguments 1)], 50⟩
        "rank(close) + volume" ∧
      ¬ ReportsBareNames ⟨.ofList ["rank"], .ofList [("rank", Rule.firstArguments 1)], 50⟩
        "close + f(close = 1)" := by
  constructor
  · intro reports
    have found := reports "rank(close) + volume" (by decide +kernel)
      (tokens "rank(close) +") "volume" [] (by decide +kernel) (by decide +kernel)
      (by decide +kernel) (by decide +kernel) (by decide +kernel)
    exact absurd found (by decide +kernel)
  · intro reports
    have found := reports "close + f(close = 1)" (by decide +kernel)
      [] "close" (tokens "+ f(close = 1)") (by decide +kernel) (by decide +kernel)
      (by decide +kernel) (by decide +kernel) (by decide +kernel)
    exact absurd found (by decide +kernel)

/-- The names of what is searched for a formula, its fragments alone and joined, stand in the
operands. A name of an operand is a field of the formula, if it can be one and is not assigned,
unless the operand binds it or the calls of the operand report a field. -/
theorem mem_fields_of_mem_operand (v : Vocabulary) (formula : String) :
    ∀ source ∈ (v.script formula).joined :: (v.script formula).fragments,
      (operands source).flatMap (fun operand => (tokens operand).filter (·.isPlainName)) =
          (tokens source).filter (·.isPlainName) ∧
        ∀ operand ∈ operands source, ∀ name, ⟨.name, name⟩ ∈ tokens operand →
          v.Admits name → name ∉ (v.script formula).assigned →
          name ∈ v.fields formula ∨ Binds (tokens operand) name ∨
            v.CallsReport (operandDepth source) operand := by
  intro source searched
  refine ⟨plainNames_operands source, ?_⟩
  intro operand cut name stands admitted unassigned
  by_cases bound : Binds (tokens operand) name
  · exact Or.inr (Or.inl bound)
  · by_cases loud : v.CallsReport (operandDepth source) operand
    · exact Or.inr (Or.inr loud)
    · left
      -- A quiet operand yields all of its plain names, and the source yields what its operands do.
      have plain : name ∈ v.plainNames (tokens operand) :=
        mem_plainNames_iff.mpr ⟨mem_names_iff.mpr stands, admitted, bound⟩
      rw [← scanText_of_quiet cut loud] at plain
      have found : name ∈ v.scanText source 0 := by
        rw [scanText_eq_flatMap_operands]
        exact List.mem_flatMap.mpr ⟨operand, cut, plain⟩
      exact v.mem_fields_of_mem_scanText searched found admitted.1 unassigned

/-- The call beside `volume` reports nothing; the call of the other operand does not matter. -/
theorem mem_fields_of_mem_operand_volume :
    "volume" ∈ fields ⟨.ofList ["rank"], .ofList [("rank", Rule.firstArguments 1)], 50⟩
      "x = rank(close) > volume + rank(2)" := by
  have member := (mem_fields_of_mem_operand
    ⟨.ofList ["rank"], .ofList [("rank", Rule.firstArguments 1)], 50⟩
    "x = rank(close) > volume + rank(2)" "rank(close) > volume + rank(2)" (by decide +kernel)).2
    "volume + rank(2)" (by decide +kernel) "volume" (by decide +kernel) (by decide +kernel)
    (by decide +kernel)
  rcases member with found | bound | loud
  · exact found
  · exact absurd bound (by decide +kernel)
  · exact absurd loud (by decide +kernel)

end Vocabulary

end FormulaFields
