/-!
Finding and cutting by position.
-/
namespace FormulaFields.Text

/-- The list without the longest stretch at its end whose members all pass. -/
def dropEndWhile {Item : Type} (test : Item → Bool) (list : List Item) : List Item :=
  (list.reverse.dropWhile test).reverse

/-- The text after the first occurrence of `part`. -/
def after? (part : List Char) : List Char → Option (List Char)
  | [] => if part.isEmpty then some [] else none
  | c :: rest =>
    if part.isPrefixOf (c :: rest) then some ((c :: rest).drop part.length) else after? part rest

theorem after?_eq_none_iff (part text : List Char) :
    after? part text = none ↔ ¬ part <:+: text := by
  induction text with
  | nil => cases part <;> simp [after?]
  | cons c rest ih =>
    rw [after?, List.infix_cons_iff]
    by_cases here : part <+: c :: rest
    · simp [List.isPrefixOf_iff_prefix.mpr here, here]
    · have other : part.isPrefixOf (c :: rest) = false := by
        simpa [← List.isPrefixOf_iff_prefix] using here
      simp [other, here, ih]

end FormulaFields.Text
