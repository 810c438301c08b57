import FormulaFields.Proofs.TokenScan
import Mathlib.Data.List.Basic

/-!
Changes of tokens that the search for fields cannot tell apart, but for the names it reports. A
relabeling keeps the kind of every token and whether an equals sign is in it, and it renames names
one to one and in step with the vocabulary. The search of relabeled tokens is the relabeled search.
-/
namespace FormulaFields

open Formula

/-- Tokens change by `change` and names by `name`, and the vocabulary knows a changed name for what
it knew the name for. -/
structure Relabels (v : Vocabulary) (change : Token → Token) (name : String → String) : Prop where
  kind : ∀ t, (change t).kind = t.kind
  text : ∀ t, t.isName = true → (change t).text = name t.text
  equals : ∀ t, '=' ∈ (change t).text.toList ↔ '=' ∈ t.text.toList
  semicolon : change ⟨.semicolon, ";"⟩ = ⟨.semicolon, ";"⟩
  injective : Function.Injective name
  logical : ∀ n, Token.logicalWords.contains (name n) = Token.logicalWords.contains n
  operator : ∀ n, v.isOperator (name n) = v.isOperator n
  rule : ∀ n, v.rules[name n]? = v.rules[n]?

namespace Formula.Call

variable {Argument Other : Type}

/-- A call with its name and its arguments changed. -/
def view (name : String → String) (argument : Argument → Other) (call : Call Argument) :
    Call Other :=
  ⟨name call.name, call.arguments.map argument⟩

end Formula.Call

theorem Formula.enclosed?_map {change : Token → Token} (kind : ∀ t, (change t).kind = t.kind)
    (inner : Nat) (ts : List Token) :
    enclosed? inner (ts.map change) = (enclosed? inner ts).map (·.map change) := by
  induction ts generalizing inner with
  | nil => rfl
  | cons t rest ih =>
    simp only [List.map_cons, enclosed?, kind, ih]
    split
    · rfl
    all_goals simp only [Option.map_map]; rfl

namespace Vocabulary

variable {Argument Other : Type} {v : Vocabulary}

theorem fieldArguments_view {name : String → String} {argument : Argument → Other}
    {isNamed : Argument → Bool} {isNamed' : Other → Bool}
    (operator : ∀ n, v.isOperator (name n) = v.isOperator n)
    (rule : ∀ n, v.rules[name n]? = v.rules[n]?)
    (agree : ∀ a, isNamed' (argument a) = isNamed a) (call : Call Argument) :
    v.fieldArguments isNamed' (call.view name argument) =
      (v.fieldArguments isNamed call).map argument := by
  have first : (if v.isOperator call.name then (call.arguments.map argument).take 1 else []) =
      (if v.isOperator call.name then call.arguments.take 1 else []).map argument := by
    split
    · rw [List.map_take]
    · rfl
  simp only [fieldArguments, Call.view, operator, rule]
  cases v.rules[call.name]? with
  | none => exact first
  | some found =>
    dsimp only
    split
    · exact first
    · have picked : found.positions.filterMap ((call.arguments.map argument)[·]?) =
          (found.positions.filterMap (call.arguments[·]?)).map argument := by
        rw [List.map_filterMap]
        apply List.filterMap_congr
        intro position _
        exact List.getElem?_map
      rw [picked, List.filter_map]
      congr 1
      apply List.filter_congr
      intro a _
      simp [agree]

end Vocabulary

theorem Formula.holdEquals_map {change : Token → Token}
    (equals : ∀ t, '=' ∈ (change t).text.toList ↔ '=' ∈ t.text.toList) (ts : List Token) :
    holdEquals (ts.map change) = holdEquals ts := by
  rw [holdEquals, holdEquals, List.any_map]
  apply List.any_congr rfl
  intro t
  simp [equals]

theorem Formula.joinTokens_map {change : Token → Token}
    (semicolon : change ⟨.semicolon, ";"⟩ = ⟨.semicolon, ";"⟩) (fragments : List (List Token)) :
    joinTokens (fragments.map (·.map change)) = (joinTokens fragments).map change := by
  unfold joinTokens
  induction fragments with
  | nil => rfl
  | cons first rest ih =>
    cases rest with
    | nil => simp
    | cons second more =>
      rw [List.map_cons] at ih
      rw [List.map_cons, List.map_cons, List.intercalate_cons_cons, List.intercalate_cons_cons, ih]
      simp [semicolon]

namespace Relabels

variable {v : Vocabulary} {change : Token → Token} {name : String → String}
  (relabels : Relabels v change name)

include relabels

theorem isName (t : Token) : (change t).isName = t.isName := by
  rw [Token.isName, Token.isName, relabels.kind]

theorem isLogicalWord (t : Token) : (change t).isLogicalWord = t.isLogicalWord := by
  rw [Token.isLogicalWord, Token.isLogicalWord, relabels.kind]
  -- Only the text of a name matters, and it is renamed within or without the logical words.
  cases named : t.kind == .name with
  | false => rfl
  | true => rw [relabels.text t named, relabels.logical]

theorem isJoint (t : Token) : (change t).isJoint = t.isJoint := by
  rw [Token.isJoint, Token.isJoint, relabels.kind, relabels.isLogicalWord]

theorem names_map (ts : List Token) : names (ts.map change) = (names ts).map name := by
  induction ts with
  | nil => rfl
  | cons t rest ih =>
    rw [names, names] at ih
    rw [names, names, List.map_cons, List.filter_cons, List.filter_cons, relabels.isName]
    split
    next named => rw [List.map_cons, List.map_cons, List.map_cons, ih, relabels.text t named]
    · exact ih

theorem boundNames_map (ts : List Token) :
    boundNames (ts.map change) = (boundNames ts).map name := by
  rw [boundNames, boundNames, ← List.map_tail, List.zip_map, List.filterMap_map,
    List.map_filterMap]
  apply List.filterMap_congr
  rintro ⟨t, next⟩ _
  simp only [Function.comp_apply, Prod.map_apply, relabels.isName, relabels.kind]
  cases named : t.isName with
  | false => rfl
  | true =>
    rw [relabels.text t named, Bool.true_and]
    split <;> rfl

private theorem contains_map (list : List String) (n : String) :
    (list.map name).contains (name n) = list.contains n := by
  apply Bool.eq_iff_iff.mpr
  simp only [List.contains_iff_mem, List.mem_map]
  constructor
  · rintro ⟨m, member, same⟩
    exact relabels.injective same ▸ member
  · exact fun member => ⟨n, member, rfl⟩

theorem plainNames_map (ts : List Token) :
    v.plainNames (ts.map change) = (v.plainNames ts).map name := by
  simp only [Vocabulary.plainNames, relabels.names_map, relabels.boundNames_map, List.filter_map]
  congr 1
  apply List.filter_congr
  intro n _
  simp only [Function.comp_apply, relabels.operator, relabels.contains_map, relabels.logical]

private theorem views {cuts : Token → Bool} (same : ∀ t, cuts (change t) = cuts t) :
    Nesting.Views (·.kind.shift) cuts (·.kind.shift) cuts (some ∘ change) where
  hidden := nofun
  seen := by
    rintro t _ ⟨⟩
    exact ⟨by rw [relabels.kind], same t⟩

theorem pieces_map {cuts : Token → Bool} (same : ∀ t, cuts (change t) = cuts t)
    (ts : List Token) :
    Nesting.pieces (·.kind.shift) cuts 0 (ts.map change) =
      (Nesting.pieces (·.kind.shift) cuts 0 ts).map (·.map change) := by
  have mapped := Nesting.map_pieces (relabels.views same) 0 ts
  simpa only [List.filterMap_eq_map] using mapped.symm

theorem splitTokens_map {cuts : Token → Bool} (same : ∀ t, cuts (change t) = cuts t)
    (ts : List Token) :
    splitTokens cuts (ts.map change) = (splitTokens cuts ts).map (·.map change) := by
  rw [splitTokens, splitTokens, relabels.pieces_map same, List.filter_map]
  congr 1
  apply List.filter_congr
  intro piece _
  simp

theorem cutFirst?_map {cuts : Token → Bool} (same : ∀ t, cuts (change t) = cuts t)
    (ts : List Token) :
    Nesting.cutFirst? (·.kind.shift) cuts 0 (ts.map change) =
      (Nesting.cutFirst? (·.kind.shift) cuts 0 ts).map
        (Prod.map (·.map change) (·.map change)) := by
  have mapped := Nesting.map_cutFirst? (relabels.views same) 0 ts
  simpa only [List.filterMap_eq_map] using mapped.symm

theorem isCompound_map (ts : List Token) : isCompound (ts.map change) = isCompound ts := by
  rw [isCompound, isCompound, relabels.cutFirst?_map relabels.isLogicalWord, Option.isSome_map,
    List.any_map]
  congr 1
  apply List.any_congr rfl
  intro t
  simp [relabels.kind]

theorem tokenCallsAfter_map (skip : Nat) (ts : List Token) :
    tokenCallsAfter skip (ts.map change) =
      (tokenCallsAfter skip ts).map (Call.view name (·.map change)) := by
  induction ts generalizing skip with
  | nil => cases skip <;> rfl
  | cons t rest ih =>
    cases skip with
    | succ skip => exact ih skip
    | zero =>
      have opens : (rest.map change).head?.any (·.kind == .opening .round) =
          rest.head?.any (·.kind == .opening .round) := by
        cases rest <;> simp [relabels.kind]
      rw [List.map_cons, tokenCallsAfter, tokenCallsAfter, relabels.isName, opens, ← List.map_tail,
        enclosed?_map relabels.kind]
      split
      next call =>
        simp only [Bool.and_eq_true] at call
        cases enclosed? 0 rest.tail with
        | none => rfl
        | some inside =>
          have commas : splitTokens (·.kind == .comma) (inside.map change) =
              (splitTokens (·.kind == .comma) inside).map (·.map change) :=
            relabels.splitTokens_map (fun t => by rw [relabels.kind]) inside
          simp only [Option.map_some, List.length_map, List.map_cons, ih, commas,
            relabels.text t call.1]
          rfl
      · exact ih 0

/-- The same calls are found with the same rules, and the same arguments are left out. -/
theorem arguments_map (ts : List Token) :
    (tokenCalls (ts.map change)).flatMap (v.fieldArguments holdEquals) =
      ((tokenCalls ts).flatMap (v.fieldArguments holdEquals)).map (·.map change) := by
  rw [tokenCalls, tokenCalls, relabels.tokenCallsAfter_map, List.flatMap_map, List.map_flatMap]
  apply List.flatMap_congr
  intro call _
  exact Vocabulary.fieldArguments_view relabels.operator relabels.rule
    (holdEquals_map relabels.equals) call

/-- The search of relabeled tokens finds the relabeled names, at every level. -/
theorem scanTokens_map (levels : Nat) (ts : List Token) :
    v.scanTokens levels (ts.map change) = (v.scanTokens levels ts).map name := by
  induction levels generalizing ts with
  | zero => exact relabels.plainNames_map ts
  | succ levels ih =>
    have inner : ∀ pieces : List (List Token),
        (pieces.map (·.map change)).flatMap (v.scanTokens levels) =
          (pieces.flatMap (v.scanTokens levels)).map name := by
      intro pieces
      simp only [List.flatMap_map, List.map_flatMap, ih]
    rw [Vocabulary.scanTokens, Vocabulary.scanTokens, relabels.isCompound_map]
    split
    · rw [relabels.splitTokens_map relabels.isJoint, inner]
    · simp only [relabels.arguments_map, inner, List.isEmpty_map, relabels.plainNames_map]
      split <;> rfl

/-! ### Statements -/

private theorem assignment?_map (statement : List Token) :
    assignment? (statement.map change) =
      (assignment? statement).map (Prod.map (·.map change) (·.map change)) :=
  relabels.cutFirst?_map (fun t => by rw [relabels.kind]) statement

theorem targetTokens_map (statement : List Token) :
    targetTokens (statement.map change) = (targetTokens statement).map change := by
  rw [targetTokens, targetTokens, relabels.assignment?_map]
  cases assignment? statement <;> rfl

theorem valueTokens_map (statement : List Token) :
    valueTokens (statement.map change) = (valueTokens statement).map change := by
  rw [valueTokens, valueTokens, relabels.assignment?_map]
  cases assignment? statement <;> rfl

private theorem statementTokens_map (ts : List Token) :
    statementTokens (ts.map change) = (statementTokens ts).map (·.map change) :=
  relabels.pieces_map (fun t => by rw [relabels.kind]) ts

theorem fragmentTokens_map (ts : List Token) :
    fragmentTokens (ts.map change) = (fragmentTokens ts).map (·.map change) := by
  have values : (statementTokens (ts.map change)).map valueTokens =
      ((statementTokens ts).map valueTokens).map (·.map change) := by
    simp only [relabels.statementTokens_map, List.map_map]
    apply List.map_congr_left
    intro statement _
    exact relabels.valueTokens_map statement
  rw [fragmentTokens, fragmentTokens, values, List.filter_map]
  congr 1
  apply List.filter_congr
  intro fragment _
  simp

theorem assignedNames_map (operators : NameSet)
    (same : ∀ n, operators.contains (name n) = operators.contains n) (ts : List Token) :
    assignedNames operators (ts.map change) = (assignedNames operators ts).map name := by
  rw [assignedNames, assignedNames, relabels.statementTokens_map, List.flatMap_map,
    List.map_flatMap]
  apply List.flatMap_congr
  intro statement _
  rw [relabels.targetTokens_map, relabels.names_map, List.filter_map]
  congr 1
  apply List.filter_congr
  intro n _
  simp [same]

theorem candidatesOfTokens_map (ts : List Token) :
    v.candidatesOfTokens (ts.map change) = (v.candidatesOfTokens ts).map name := by
  rw [Vocabulary.candidatesOfTokens, Vocabulary.candidatesOfTokens, relabels.fragmentTokens_map,
    joinTokens_map relabels.semicolon, relabels.scanTokens_map, List.map_append, List.flatMap_map,
    List.map_flatMap]
  congr 1
  apply List.flatMap_congr
  intro fragment _
  exact relabels.scanTokens_map _ fragment

/-- The fields of relabeled tokens are the relabeled fields. -/
theorem fieldsOfTokens_map (ts : List Token) :
    v.fieldsOfTokens (ts.map change) = .ofList ((v.fieldsOfTokens ts).toList.map name) := by
  have assigned (n : String) :
      name n ∈ assignedNames v.operators (ts.map change) ↔ n ∈ assignedNames v.operators ts := by
    rw [relabels.assignedNames_map _ relabels.operator,
      List.mem_map_of_injective relabels.injective]
  apply Std.ExtTreeSet.ext_mem
  intro n
  simp only [Vocabulary.fieldsOfTokens, relabels.candidatesOfTokens_map, Std.ExtTreeSet.mem_ofList,
    List.contains_iff_mem, List.mem_map, Std.ExtTreeSet.mem_toList]
  rw [List.filter_map]
  simp [assigned, relabels.operator]

end Relabels

end FormulaFields
