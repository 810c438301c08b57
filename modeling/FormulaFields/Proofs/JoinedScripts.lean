import FormulaFields.Proofs.SplitTexts

/-!
The fragments of a script as one text. A fragment is what its statement evaluates: the statement
itself, or what stands behind its equals sign. That sign stands outside brackets, so what is behind
it begins where no bracket is open and ends where the statement ends; it holds no semicolon outside
brackets, and of all fragments only the last can leave a bracket or a quoted text open. So joining
the fragments loses nothing. Main statement: `Script.fragments_of_joined`.
-/
namespace FormulaFields.Formula

namespace Statement

/-- What a statement evaluates closes as many brackets as the statement. -/
theorem level_value (text : String) :
    Nesting.level (·.kind.shift) 0 (tokens (ofText text).value) =
      Nesting.level (·.kind.shift) 0 (tokens text) := by
  unfold ofText
  split
  next left right cut =>
    obtain ⟨equals, whole, _, flat, outside⟩ := Nesting.exists_of_cutFirst? _ _ cut
    have settled := Lexeme.settled_lexemes text
    rw [whole] at settled
    -- The brackets left of the sign cancel out, and the sign is none.
    rw [level_trimmedText settled.right.2.2, tokens, Lexeme.level_tokens, whole,
      Nesting.level_append, outside, Nesting.level, flat, Int.add_zero]
  · rfl

/-- No semicolon stands outside brackets in what a statement evaluates. -/
theorem splitText_value {source text : String}
    (member : text ∈ splitText (·.kind == .semicolon) source) (shown : (ofText text).value ≠ "") :
    splitText (·.kind == .semicolon) (ofText text).value = [(ofText text).value] := by
  unfold ofText at shown ⊢
  split at shown
  next left right cut =>
    obtain ⟨group, found, rfl, _⟩ := exists_of_mem_splitText member
    obtain ⟨equals, whole, _, flat, outside⟩ := Nesting.exists_of_cutFirst? _ _ cut
    -- The statement is a piece, so no semicolon outside brackets is in it.
    have alone := pieces_trimmedText (· == .semicolon)
      (settled_of_mem_pieces (Lexeme.settled_lexemes source) found)
      (Nesting.pieces_of_mem_pieces _ _ found)
    have uncut := Lexeme.uncut_of_tokens (Nesting.uncut_of_pieces (by simp +contextual [Kind.shift])
      alone)
    -- What is behind the sign begins outside brackets, as the statement does.
    have settled := Lexeme.settled_lexemes (Lexeme.trimmedText group)
    rw [whole] at uncut settled
    have behind := (Nesting.uncut_append_iff.mp uncut).2
    rw [outside, Nesting.uncut_cons, flat, Int.add_zero] at behind
    exact splitText_trimmedText (· == .semicolon) settled.right.2.2
      (Nesting.pieces_of_cutFirst?_eq_none _ _ behind.2.cutFirst?_eq_none) shown
  · exact splitText_of_mem_splitText (· == .semicolon) member

end Statement

namespace Script

variable (operators : NameSet) (text : String)

theorem pairwise_level_fragments :
    (ofText operators text).fragments.Pairwise fun fragment _ =>
      Nesting.level (·.kind.shift) 0 (tokens fragment) = 0 := by
  have outside := pairwise_level_splitText (· == .semicolon) text
  apply List.Pairwise.filter
  rw [statements, List.map_map, List.pairwise_map]
  exact outside.imp fun {statement _} level => (Statement.level_value statement).trans level

theorem splitText_of_mem_fragments {fragment : String}
    (member : fragment ∈ (ofText operators text).fragments) :
    splitText (·.kind == .semicolon) fragment = [fragment] := by
  obtain ⟨inside, shown⟩ := List.mem_filter.mp member
  obtain ⟨_, listed, rfl⟩ := List.mem_map.mp inside
  obtain ⟨statement, piece, rfl⟩ := List.mem_map.mp listed
  exact Statement.splitText_value piece (by simpa using shown)

/-- The joined fragments are split into the fragments again, and what is read in them is what is
read in the fragments, with one semicolon between any two. -/
theorem fragments_of_joined :
    splitText (·.kind == .semicolon) (ofText operators text).joined =
        (ofText operators text).fragments ∧
      tokens (ofText operators text).joined =
        [⟨.semicolon, ";"⟩].intercalate ((ofText operators text).fragments.map tokens) := by
  have closed := pairwise_fragments operators text
  have separator : "; " = String.singleton ';' ++ " " := by decide
  constructor
  · rw [joined, separator]
    exact splitText_joined (· == .semicolon) delimiter_semicolon rfl
      (closed.and (pairwise_level_fragments operators text))
      fun _ => splitText_of_mem_fragments operators text
  · exact tokens_intercalate closed

/-- A target goes, a blank right side goes, and a bracket that is never opened hides the semicolon
behind it. -/
example :
    let script := ofText ∅ "a = f(b; c); ; d = ; ) e; g (; \x27h; "
    script.fragments = ["f(b; c)", ") e; g (", "\x27h;"] ∧
      script.joined = "f(b; c); ) e; g (; \x27h;" := by decide +kernel

end Script

end FormulaFields.Formula
