import FormulaFields.Proofs.TokenView

/-!
The depth limit is only a ceiling. Operands and arguments have fewer tokens than the expression
they were cut from, with one exception: an expression whose connectives are all in brackets is its
own only operand. The search of such an expression never gets further, whatever the limit, and ends
with its names. Every other search is over when the tokens are used up.
-/
namespace FormulaFields

open Formula

namespace Vocabulary

/-! ### Enough levels -/

section Levels

variable (v : Vocabulary)

theorem scanTokens_nil (levels : Nat) : v.scanTokens levels [] = [] := by
  cases levels <;> rfl

/-- An expression that is its own only operand yields its names at every level. -/
theorem scanTokens_uncut {ts : List Token} (compound : isCompound ts = true)
    (uncut : Nesting.pieces (·.kind.shift) Token.isJoint 0 ts = [ts]) (levels : Nat) :
    v.scanTokens levels ts = v.plainNames ts := by
  induction levels with
  | zero => rfl
  | succ levels ih =>
    have operands : splitTokens Token.isJoint ts = [ts] := by
      cases ts with
      | nil => cases compound
      | cons t rest => rw [splitTokens, uncut]; rfl
    rw [scanTokens, if_pos compound, operands, List.flatMap_singleton, ih]

/-- Levels beyond the number of tokens make no difference. -/
theorem scanTokens_eq_of_length_le {ts : List Token} {levels levels' : Nat}
    (enough : ts.length ≤ levels) (enough' : ts.length ≤ levels') :
    v.scanTokens levels ts = v.scanTokens levels' ts := by
  induction levels generalizing ts levels' with
  | zero =>
    have none : ts = [] := List.length_eq_zero_iff.mp (by omega)
    rw [none, scanTokens_nil, scanTokens_nil]
  | succ levels ih =>
    cases levels' with
    | zero =>
      have none : ts = [] := List.length_eq_zero_iff.mp (by omega)
      rw [none, scanTokens_nil, scanTokens_nil]
    | succ levels' =>
      have inner (parts : List (List Token)) (shorter : ∀ part ∈ parts, part.length < ts.length) :
          parts.flatMap (v.scanTokens levels) = parts.flatMap (v.scanTokens levels') := by
        apply List.flatMap_congr
        intro part member
        have fewer := shorter part member
        exact ih (by omega) (by omega)
      -- Operands and arguments are shorter, so the levels suffice for them too, but for the one
      -- expression that is its own operand.
      by_cases compound : isCompound ts = true
      · by_cases uncut : Nesting.pieces (·.kind.shift) Token.isJoint 0 ts = [ts]
        · rw [v.scanTokens_uncut compound uncut, v.scanTokens_uncut compound uncut]
        · rw [scanTokens, scanTokens, if_pos compound, if_pos compound]
          apply inner
          intro operand member
          have piece := (List.mem_filter.mp member).1
          rcases Nesting.length_lt_or_eq_of_mem_pieces _ _ piece with shorter | ⟨_, whole⟩
          · exact shorter
          · exact absurd whole uncut
      · rw [scanTokens, scanTokens, if_neg compound, if_neg compound,
          inner _ fun argument member => (detached_of_mem_searched member).2]

end Levels

/-! ### Limits -/

section Limits

variable (operators : NameSet) (rules : RuleBook)

theorem scan_limit (limit limit' levels : Nat) (text : String) :
    (mk operators rules limit).scan levels text = (mk operators rules limit').scan levels text := by
  induction levels generalizing text with
  | zero => rfl
  | succ levels ih =>
    have inner : (mk operators rules limit).scan levels = (mk operators rules limit').scan levels :=
      funext ih
    rw [scan, scan, inner]
    rfl

/-- A search depends on the limit and the depth only through their difference, and not even on that
where it is as large as the number of tokens. -/
theorem scanText_eq_of_limits (expression : String) :
    (∀ limit depth limit' depth', depth ≤ limit → depth' ≤ limit' →
      limit - depth = limit' - depth' →
      (mk operators rules limit).scanText expression depth =
        (mk operators rules limit').scanText expression depth') ∧
    (∀ limit depth limit' depth', depth ≤ limit → depth' ≤ limit' →
      (tokens expression).length ≤ limit - depth →
      (tokens expression).length ≤ limit' - depth' →
      (mk operators rules limit).scanText expression depth =
        (mk operators rules limit').scanText expression depth') := by
  constructor
  · intro limit depth limit' depth' within within' same
    -- The search is told only how many levels are left.
    have levels : limit + 1 - depth = limit' + 1 - depth' := by omega
    simp only [scanText, levels]
    exact scan_limit operators rules limit limit' _ expression
  · intro limit depth limit' depth' _ _ enough enough'
    have equal : (mk operators rules limit).scan (limit + 1 - depth) expression =
        (mk operators rules limit).scan (limit' + 1 - depth') expression := by
      rw [scan_eq, scan_eq]
      exact scanTokens_eq_of_length_le _ (by omega) (by omega)
    exact equal.trans (scan_limit operators rules limit limit' _ expression)

/-- Eight tokens, whose comparison in parentheses is its own only operand. -/
theorem scanText_eq_of_limits_nested :
    (tokens "rank((a>b))").length = 8 ∧
      (mk (.ofList ["rank"]) ∅ 4).scanText "rank((a>b))" 1 =
        (mk (.ofList ["rank"]) ∅ 3).scanText "rank((a>b))" 0 ∧
      (mk (.ofList ["rank"]) ∅ 20).scanText "rank((a>b))" 0 =
        (mk (.ofList ["rank"]) ∅ 10).scanText "rank((a>b))" 1 := by
  have same := (scanText_eq_of_limits (.ofList ["rank"]) ∅ "rank((a>b))").1 4 1 3 0
    (by decide) (by decide) (by decide)
  have enough := (scanText_eq_of_limits (.ofList ["rank"]) ∅ "rank((a>b))").2 20 0 10 1
    (by decide) (by decide) (by decide) (by decide)
  exact ⟨by decide, same, enough⟩

end Limits

end Vocabulary

end FormulaFields
