import FormulaFields.Proofs.TokenScan
import Mathlib.Data.List.Basic

/-!
Tokens whose parentheses match. A search for the end of a call passes over them, and they are cut
only where a separator stands outside their own parentheses.
-/
namespace FormulaFields.Formula

/-- What holds of separators and of the parts between them, and passes to tokens in a row. -/
theorem intercalate_induction {holds : List Token → Prop} (nil : holds [])
    (append : ∀ first second, holds first → holds second → holds (first ++ second))
    {separator : Token} (between : holds [separator]) {parts : List (List Token)}
    (all : ∀ part ∈ parts, holds part) : holds ([separator].intercalate parts) := by
  induction parts with
  | nil => exact nil
  | cons first rest ih =>
    simp only [List.mem_cons, forall_eq_or_imp] at all
    cases rest with
    | nil => simpa using all.1
    | cons second more =>
      rw [List.intercalate_cons_cons]
      exact append _ _ (append _ _ all.1 between) (ih all.2)

/-- Tokens with matching parentheses; outside of all of them stand only those that `bare` admits. -/
inductive Balanced : (bare : Token → Prop) → List Token → Prop where
  | nil {bare} : Balanced bare []
  | token {bare} {t : Token} (flat : t.kind.shift = 0) (admitted : bare t) : Balanced bare [t]
  | append {bare} {first second : List Token} :
    Balanced bare first → Balanced bare second → Balanced bare (first ++ second)
  | round {bare} {opening closing : Token} {inner : List Token}
    (opens : opening.kind = .opening .round) (closes : closing.kind = .closing .round) :
    Balanced (fun _ => True) inner → Balanced bare (opening :: (inner ++ [closing]))

namespace Balanced

variable {bare : Token → Prop} {ts : List Token}

theorem mono {wider : Token → Prop} (wide : ∀ t, bare t → wider t) (balanced : Balanced bare ts) :
    Balanced wider ts := by
  induction balanced with
  | nil => exact .nil
  | token flat admitted => exact .token flat (wide _ admitted)
  | append _ _ first second => exact .append (first wide) (second wide)
  | round opens closes inner _ => exact .round opens closes inner

theorem cons {t : Token} (flat : t.kind.shift = 0) (admitted : bare t)
    (balanced : Balanced bare ts) : Balanced bare (t :: ts) :=
  .append (.token flat admitted) balanced

theorem intercalate {separator : Token} (flat : separator.kind.shift = 0)
    (admitted : bare separator) {parts : List (List Token)}
    (balanced : ∀ part ∈ parts, Balanced bare part) :
    Balanced bare ([separator].intercalate parts) :=
  intercalate_induction .nil (fun _ _ => .append) (.token flat admitted) balanced

/-- The search for a closing parenthesis passes over balanced tokens. -/
theorem enclosed?_append (balanced : Balanced bare ts) (inner : Nat) (rest : List Token) :
    enclosed? inner (ts ++ rest) = (enclosed? inner rest).map (ts ++ ·) := by
  induction balanced generalizing inner rest with
  | nil => simp
  | @token _ t flat _ =>
    rw [List.singleton_append, enclosed?.eq_def]
    cases kind : t.kind with
    | opening =>
      rw [kind] at flat
      cases flat
    | closing =>
      rw [kind] at flat
      cases flat
    | _ => simp [kind]
  | append _ _ first second =>
    rw [List.append_assoc, first, second, Option.map_map]
    congr 1
    funext tail
    simp
  | @round _ opening closing inside opens closes _ ih =>
    rw [List.cons_append, List.append_assoc, List.singleton_append, enclosed?.eq_def]
    simp only [opens, ih, enclosed?, closes, Option.map_map]
    congr 1
    funext tail
    simp

/-- Balanced tokens are not cut inside their parentheses. -/
theorem pieces_append {cuts : Token → Bool} (balanced : Balanced bare ts) {depth : Int}
    (within : 0 ≤ depth) (uncut : depth = 0 → ∀ t, bare t → cuts t = false) (rest : List Token) :
    Nesting.pieces (·.kind.shift) cuts depth (ts ++ rest) =
      (Nesting.pieces (·.kind.shift) cuts depth rest).modifyHead (ts ++ ·) := by
  induction balanced generalizing depth rest with
  | nil =>
    obtain ⟨first, more, pieces⟩ := Nesting.exists_pieces_eq_cons (·.kind.shift) cuts depth rest
    simp [pieces]
  | @token bare t flat admitted =>
    -- At depth zero the token does not cut, and at other depths nothing does.
    have joined : Nesting.separates (·.kind.shift) cuts depth t = false := by
      by_cases outside : depth = 0
      · simp [Nesting.separates, uncut outside t admitted]
      · simp [Nesting.separates, outside]
    rw [List.singleton_append, Nesting.pieces, joined, flat, Int.add_zero]
    rfl
  | append _ _ first second =>
    rw [List.append_assoc, first within uncut, second within uncut]
    obtain ⟨head, more, pieces⟩ := Nesting.exists_pieces_eq_cons (·.kind.shift) cuts depth rest
    simp [pieces]
  | @round bare opening closing inside opens closes _ ih =>
    have up : opening.kind.shift = 1 := by rw [opens]; rfl
    have down : closing.kind.shift = -1 := by rw [closes]; rfl
    have opened : Nesting.separates (·.kind.shift) cuts depth opening = false := by
      simp [Nesting.separates, up]
    have closed : Nesting.separates (·.kind.shift) cuts (depth + 1) closing = false := by
      simp [Nesting.separates, down]
    -- Inside the parentheses nothing is cut, whatever stands bare in them.
    have deeper : depth + 1 ≠ 0 := by omega
    rw [List.cons_append, List.append_assoc, List.singleton_append, Nesting.pieces, opened, up,
      if_neg Bool.false_ne_true, ih (by omega) (fun outside => absurd outside deeper),
      Nesting.pieces, closed, down, if_neg Bool.false_ne_true, Int.add_neg_cancel_right]
    obtain ⟨head, more, pieces⟩ := Nesting.exists_pieces_eq_cons (·.kind.shift) cuts depth rest
    simp [pieces]

/-- Balanced tokens with separators between them are cut at these separators. -/
theorem pieces_intercalate (cuts : Token → Bool) (separator : Token)
    (flat : separator.kind.shift = 0) (cut : cuts separator = true)
    (uncut : ∀ t, bare t → cuts t = false) {first : List Token} {parts : List (List Token)}
    (balanced : ∀ part ∈ first :: parts, Balanced bare part) :
    Nesting.pieces (·.kind.shift) cuts 0 ([separator].intercalate (first :: parts)) =
      first :: parts := by
  apply Nesting.pieces_intercalate (·.kind.shift) cuts flat cut
  intro part member rest
  exact (balanced part member).pieces_append (Int.le_refl 0) (fun _ => uncut) rest

end Balanced

/-! ### Calls -/

private theorem tokenCallsAfter_append (skipped rest : List Token) :
    tokenCallsAfter skipped.length (skipped ++ rest) = tokenCallsAfter 0 rest := by
  induction skipped with
  | nil => rfl
  | cons t more ih => exact ih

theorem tokenCallsAfter_cons {t : Token} (other : t.isName = false) (rest : List Token) :
    tokenCallsAfter 0 (t :: rest) = tokenCallsAfter 0 rest := by
  rw [tokenCallsAfter, other, Bool.false_and, if_neg Bool.false_ne_true]

/-- A name with balanced tokens in parentheses behind it is a call. -/
theorem tokenCallsAfter_call {name opening closing : Token} {inside : List Token}
    {bare : Token → Prop} (named : name.kind = .name) (opens : opening.kind = .opening .round)
    (closes : closing.kind = .closing .round) (balanced : Balanced bare inside)
    (rest : List Token) :
    tokenCallsAfter 0 (name :: opening :: (inside ++ closing :: rest)) =
      ⟨name.text, splitTokens (·.kind == .comma) inside⟩ :: tokenCallsAfter 0 rest := by
  have begins : (name.isName && (opening :: (inside ++ closing :: rest)).head?.any
      (·.kind == .opening .round)) = true := by
    simp [Token.isName, named, opens]
  have matching : enclosed? 0 (inside ++ closing :: rest) = some inside := by
    rw [balanced.enclosed?_append, enclosed?.eq_def]
    simp [closes]
  -- The search goes on behind the closing parenthesis.
  have behind := tokenCallsAfter_append (opening :: (inside ++ [closing])) rest
  rw [List.cons_append, List.append_assoc, List.singleton_append, List.length_cons,
    List.length_append, List.length_singleton] at behind
  rw [tokenCallsAfter, if_pos begins, List.tail_cons, matching]
  exact congrArg _ behind

end FormulaFields.Formula
