import FormulaFields.Proofs.JoinedParts
import FormulaFields.Proofs.SplitTexts

/-!
Operands with joints between them. An expression is cut at the joints that stand outside brackets,
so a chain of operands is searched operand by operand, one level deeper. An expression whose
connectives all stand in brackets is cut as well, but into itself: the search goes on with the same
text level by level, until the limit is passed and only its names are looked for. Main statements:
`scanText_chain`, `scanText_of_nested`.
-/
namespace FormulaFields

open Formula

namespace Formula

/-! ### Chains -/

/-- How a comparison or a symbolic connective is written. -/
def Connective.text : Connective → String
  | .less => "<"
  | .atMost => "<="
  | .greater => ">"
  | .atLeast => ">="
  | .same => "=="
  | .differs => "!="
  | .both => "&&"
  | .either => "||"

/-- What can join two operands. -/
inductive Joint where
  | symbol (op : Connective)
  | and
  | or
  deriving DecidableEq, Repr

def Joint.token : Joint → Token
  | .symbol op => ⟨.connective op, op.text⟩
  | .and => ⟨.name, "and"⟩
  | .or => ⟨.name, "or"⟩

/-- Operands in a row, each but the last one with the joint behind it. -/
def chain (last : String) : List (String × Joint) → String
  | [] => last
  | (operand, joint) :: rest => operand ++ " " ++ joint.token.text ++ " " ++ chain last rest

/-- A text that can stand before a joint: its brackets cancel out, no quoted text is left open in
it, and no joint of its own stands outside its brackets. -/
structure Operand (text : String) : Prop where
  level : Nesting.level (·.kind.shift) 0 (tokens text) = 0
  closed : ∀ t ∈ tokens text, ¬ t.IsUnterminated
  undivided : NoneOutside Token.isJoint text

instance : DecidablePred Operand := fun text =>
  decidable_of_iff (Nesting.level (·.kind.shift) 0 (tokens text) = 0 ∧
      (∀ t ∈ tokens text, ¬ t.IsUnterminated) ∧ NoneOutside Token.isJoint text)
    ⟨fun ⟨level, closed, undivided⟩ => ⟨level, closed, undivided⟩,
      fun operand => ⟨operand.level, operand.closed, operand.undivided⟩⟩

namespace Joint

variable (joint : Joint)

theorem isJoint_token : joint.token.isJoint = true := by
  cases joint <;> rfl

/-- A joint is read as the token it stands for. -/
theorem lexemes_text : lexemes joint.token.text = [.token joint.token] := by
  cases joint with
  | symbol op => cases op <;> decide
  | and => decide
  | or => decide

theorem sealed_text : Lexeme.Sealed (lexemes joint.token.text) := by
  apply sealed_of_terminated
  rw [tokens, lexemes_text]
  rintro t member ⟨quoted, _⟩
  obtain rfl := List.mem_singleton.mp member
  cases joint <;> cases quoted

end Joint

/-- An operand that stands before a joint is read apart from all that follows. -/
theorem tokens_joined {operand : String} (closed : Lexeme.Sealed (lexemes operand)) (joint : Joint)
    (rest : String) :
    tokens (operand ++ " " ++ joint.token.text ++ " " ++ rest) =
      tokens operand ++ joint.token :: tokens rest := by
  have front : lexemes (operand ++ " " ++ joint.token.text) =
      lexemes operand ++ [.blank ' ', .token joint.token] := by
    rw [lexemes_append_space closed, joint.lexemes_text]
  have sealed_ : Lexeme.Sealed (lexemes (operand ++ " " ++ joint.token.text)) := by
    have alone := joint.sealed_text
    rw [joint.lexemes_text] at alone
    rw [front]
    exact closed.append (alone.cons_blank ' ')
  rw [tokens, lexemes_append_space sealed_, front]
  simp [tokens]

/-- A chain is cut into its operands. -/
theorem parts_chain {links : List (String × Joint)} {last : String}
    (operands : ∀ link ∈ links, Operand link.1) (final : NoneOutside Token.isJoint last) :
    parts (tokens (chain last links)) = (links.map (·.1) ++ [last]).map tokens := by
  induction links with
  | nil => exact parts_eq_singleton_iff.mpr final
  | cons link rest ih =>
    obtain ⟨operand, joint⟩ := link
    obtain ⟨first, others⟩ := List.forall_mem_cons.mp operands
    have joins : Nesting.separates (·.kind.shift) Token.isJoint 0 joint.token = true := by
      simp [Nesting.separates, joint.isJoint_token, shift_of_isJoint _ joint.isJoint_token]
    -- The operand leaves no bracket open, so the joint behind it is the first that cuts.
    rw [chain, tokens_joined (sealed_of_terminated first.closed), parts,
      Nesting.Uncut.pieces_append first.undivided, first.level, Nesting.pieces, if_pos joins,
      ← parts, ih others]
    simp

end Formula

namespace Vocabulary

variable (v : Vocabulary)

theorem scanText_of_blank {text : String} (blank : Text.isAllBlank text = true) (depth : Nat) :
    v.scanText text depth = [] := by
  have gone : Text.trimmed text = "" := by
    have trimmed := trim_blanks (List.all_eq_true.mp blank) (List.forall_mem_nil _) []
    rw [List.append_nil, List.append_nil] at trimmed
    rw [Text.trimmed, trimmed]
    rfl
  rw [← scanText_trimmed, gone, scanText_eq]
  exact scanTokens_nil v _

/-- A chain of operands yields what its operands yield one level deeper, in order. A blank operand
yields nothing. -/
theorem scanText_chain {links : List (String × Joint)} {last : String} (several : links ≠ [])
    (operands : ∀ link ∈ links, Operand link.1) (final : NoneOutside Token.isJoint last)
    {depth : Nat} (within : depth ≤ v.depthLimit) :
    v.scanText (chain last links) depth =
        (links.map (·.1) ++ [last]).flatMap (v.scanText · (depth + 1)) ∧
      ∀ operand, Text.isAllBlank operand = true → v.scanText operand (depth + 1) = [] := by
  have cut := parts_chain operands final
  have compound : isCompound (tokens (chain last links)) = true := by
    by_contra simple
    -- What is not compound is its own only part, but a chain has a part for every operand.
    have whole : parts (tokens (chain last links)) = [tokens (chain last links)] :=
      pieces_of_not_isCompound (by simpa using simple)
    have lengths := congrArg List.length (cut.symm.trans whole)
    simp only [List.length_map, List.length_append, List.length_singleton] at lengths
    exact several (List.length_eq_zero_iff.mp (by omega))
  have levels : v.depthLimit + 1 - depth = v.depthLimit + 1 - (depth + 1) + 1 := by omega
  refine ⟨?_, fun operand blank => v.scanText_of_blank blank (depth + 1)⟩
  rw [scanText_eq, levels, scanTokens_of_compound compound, cut, List.flatMap_map]
  simp only [scanText_eq]

/-- Comparisons in brackets, brackets that close before they open, quoted joints, and a blank
operand between two logical words. The last operand leaves a bracket and a quoted text open. -/
theorem scanText_chain_open :
    let v : Vocabulary := ⟨.ofList ["rank"], .ofList [("rank", Rule.firstArguments 1)], 2⟩
    let links : List (String × Joint) := [("rank(close > (open))", .symbol .atLeast),
      (")volume(", .and), (" ", .or), ("f[\">=\" + cap]", .symbol .both)]
    let last := "rank(high, low) + (\x27 and"
    links ≠ [] ∧ (∀ link ∈ links, Operand link.1) ∧ NoneOutside Token.isJoint last ∧
      1 ≤ v.depthLimit ∧
      chain last links = "rank(close > (open)) >= )volume( and   or f[\">=\" + cap] && " ++ last ∧
      v.scanText (chain last links) 1 = ["close", "open", "volume", "f", "cap", "high"] := by
  intro v links last
  have operands : ∀ link ∈ links, Operand link.1 := by decide +kernel
  have final : NoneOutside Token.isJoint last := by decide +kernel
  refine ⟨List.cons_ne_nil _ _, operands, final, by decide, by decide +kernel, ?_⟩
  have within : 1 ≤ v.depthLimit := by decide
  rw [(v.scanText_chain (List.cons_ne_nil _ _) operands final within).1]
  decide +kernel

end Vocabulary

/-! ### Comparisons in brackets -/

namespace Formula

/-- There are connectives in the text, and no joint stands outside its brackets. -/
structure Nested (text : String) : Prop where
  compared : ∃ t ∈ tokens text, t.kind.isConnective = true
  undivided : NoneOutside Token.isJoint text

instance : DecidablePred Nested := fun text =>
  decidable_of_iff ((∃ t ∈ tokens text, t.kind.isConnective = true) ∧
      NoneOutside Token.isJoint text)
    ⟨fun ⟨compared, undivided⟩ => ⟨compared, undivided⟩,
      fun nested => ⟨nested.compared, nested.undivided⟩⟩

variable {text : String}

theorem Nested.isCompound (nested : Nested text) : isCompound (tokens text) = true := by
  obtain ⟨t, member, connective⟩ := nested.compared
  rw [Formula.isCompound, List.any_eq_true.mpr ⟨t, member, connective⟩, Bool.true_or]

/-- Nothing cuts such a text, so it is its own only operand. -/
theorem Nested.operands (nested : Nested text) : operands text = [Text.trimmed text] := by
  obtain ⟨t, member, _⟩ := nested.compared
  exact splitText_of_pieces (parts_eq_singleton_iff.mpr nested.undivided)
    (List.ne_nil_of_mem member)

end Formula

namespace Vocabulary

variable (v : Vocabulary)

/-- The texts that the search of a text goes on with, one level deeper: its operands, or the
arguments of its calls. Beyond the limit it goes on with nothing. -/
def searchedNext (text : String) (depth : Nat) : List String :=
  if v.depthLimit < depth then []
  else if isCompound (tokens (Text.trimmed text)) then operands (Text.trimmed text)
  else (calls (Text.trimmed text)).flatMap (v.fieldArguments mentionsEquals)

/-- The texts that are searched so many levels below a text. -/
def searchedBelow : Nat → String → Nat → List String
  | 0, text, _ => [text]
  | levels + 1, text, depth =>
    (v.searchedNext text depth).flatMap (searchedBelow levels · (depth + 1))

/-- The search is a recursion on the texts that it goes on with. -/
theorem scanText_eq_searchedNext (text : String) (depth : Nat) :
    v.scanText text depth =
      let found := (v.searchedNext text depth).flatMap (v.scanText · (depth + 1))
      if depth ≤ v.depthLimit ∧ isCompound (tokens (Text.trimmed text)) = true then found
      else if found.isEmpty then v.plainNames (tokens (Text.trimmed text)) else found := by
  by_cases within : depth ≤ v.depthLimit
  · have levels : v.depthLimit + 1 - depth = v.depthLimit + 1 - (depth + 1) + 1 := by omega
    have inside : ¬ v.depthLimit < depth := by omega
    simp only [scanText, levels, scan, searchedNext, inside, within, if_false, true_and]
    split <;> rfl
  · have levels : v.depthLimit + 1 - depth = 0 := by omega
    have beyond : v.depthLimit < depth := by omega
    simp [scanText, levels, scan, searchedNext, beyond, within]

variable {text : String}

/-- The search of a text whose comparisons stand in brackets goes on with the text. -/
theorem searchedNext_of_nested (nested : Nested (Text.trimmed text)) (depth : Nat) :
    v.searchedNext text depth = if depth ≤ v.depthLimit then [Text.trimmed text] else [] := by
  rw [searchedNext, if_pos nested.isCompound, nested.operands, trimmed_trimmed]
  by_cases within : depth ≤ v.depthLimit
  · rw [if_pos within, if_neg (by omega)]
  · rw [if_neg within, if_pos (by omega)]

private theorem scanText_nested (nested : Nested (Text.trimmed text)) (depth : Nat) :
    v.scanText text depth = v.plainNames (tokens (Text.trimmed text)) := by
  -- By induction on the levels that are left: each of them hands the text on to the next.
  induction left : v.depthLimit + 1 - depth generalizing text depth with
  | zero =>
    rw [scanText, left]
    rfl
  | succ levels ih =>
    have within : depth ≤ v.depthLimit := by omega
    have again : Nested (Text.trimmed (Text.trimmed text)) := by rwa [trimmed_trimmed]
    have later := ih again (depth + 1) (by omega)
    rw [scanText_eq_searchedNext, v.searchedNext_of_nested nested, if_pos within,
      List.flatMap_singleton, if_pos ⟨within, nested.isCompound⟩, later, trimmed_trimmed]

private theorem searchedBelow_nested (nested : Nested (Text.trimmed text)) (levels depth : Nat) :
    v.searchedBelow (levels + 1) text depth =
      if depth + levels ≤ v.depthLimit then [Text.trimmed text] else [] := by
  induction levels generalizing text depth with
  | zero =>
    have single : v.searchedBelow 1 text depth = v.searchedNext text depth :=
      List.flatMap_singleton' _
    rw [single, v.searchedNext_of_nested nested, Nat.add_zero]
  | succ levels ih =>
    rw [searchedBelow, v.searchedNext_of_nested nested]
    by_cases within : depth ≤ v.depthLimit
    · have again : Nested (Text.trimmed (Text.trimmed text)) := by rwa [trimmed_trimmed]
      have later := ih again (depth + 1)
      rw [if_pos within, List.flatMap_singleton, later, trimmed_trimmed, Nat.add_right_comm,
        Nat.add_assoc]
    · rw [if_neg within, if_neg (by omega)]
      rfl

/-- An expression with connectives, none of which stands outside brackets, yields its names at every
depth and under every limit. The search goes on with the expression itself, once for each level that
is left, and then with nothing. -/
theorem scanText_of_nested {expression : String} (nested : Nested (Text.trimmed expression))
    (depth : Nat) :
    v.scanText expression depth = v.plainNames (tokens expression) ∧
      ∀ levels, v.searchedBelow (levels + 1) expression depth =
        if depth + levels ≤ v.depthLimit then [Text.trimmed expression] else [] := by
  refine ⟨?_, fun levels => v.searchedBelow_nested nested levels depth⟩
  rw [v.scanText_nested nested, ← plainNames_sight, sight_trimmed, plainNames_sight]

/-- A bracket that was never opened puts the comparison and the logical word at a negative depth,
and the quoted text at the end is open. Three levels are left at depth 1. -/
theorem scanText_of_nested_unbalanced :
    let v : Vocabulary := ⟨.ofList ["rank"], .ofList [("rank", Rule.firstArguments 1)], 3⟩
    let expression := " ) close > rank(open, k = 1) and volume ( \x27<= "
    Nested (Text.trimmed expression) ∧ v.scanText expression 1 = ["close", "open", "volume"] ∧
      v.searchedBelow 3 expression 1 = [") close > rank(open, k = 1) and volume ( \x27<="] ∧
      v.searchedBelow 4 expression 1 = [] := by
  intro v expression
  have nested : Nested (Text.trimmed expression) := by decide +kernel
  obtain ⟨names, below⟩ := v.scanText_of_nested nested 1
  refine ⟨nested, ?_, ?_, ?_⟩
  · rw [names]
    decide +kernel
  · rw [below 2]
    decide +kernel
  · rw [below 3]
    decide +kernel

end Vocabulary

end FormulaFields
