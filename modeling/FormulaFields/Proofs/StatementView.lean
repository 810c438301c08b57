import FormulaFields.Proofs.TokenView

/-!
Statements as stretches of tokens. A formula is cut at its semicolons, each statement at its first
equals sign, and the right sides are joined again with semicolons. What the joined text reads as is
the right sides in a row: of all statements only the last can leave a quoted text open, and so no
right side runs into the next one.
-/
namespace FormulaFields

open Formula

namespace Formula

/-! ### Single statements -/

private theorem assignment?_sight (text : String) :
    (Nesting.cutFirst? Lexeme.shift (Lexeme.passes (·.kind == .equals)) 0 (lexemes text)).map
        (Prod.map (fun ls => (Lexeme.tokens ls).map Token.gist)
          (fun ls => (Lexeme.tokens ls).map Token.gist)) =
      assignment? (sight text) := by
  -- Equals signs look the same in every view.
  have views : Nesting.Views Lexeme.shift (Lexeme.passes (·.kind == .equals)) (·.kind.shift)
      (·.kind == .equals) (·.token?.map Token.gist) :=
    views_lexemes fun t => by rw [Token.gist_kind]
  have cut := Nesting.map_cutFirst? views 0 (lexemes text)
  simp only [filterMap_gist] at cut
  exact cut

private theorem settled_sides {text : String} {left right : List Lexeme}
    (cut : Nesting.cutFirst? Lexeme.shift (Lexeme.passes (·.kind == .equals)) 0 (lexemes text) =
      some (left, right)) :
    Lexeme.Settled left ∧ Lexeme.Settled right ∧ ∀ x ∈ right, x ∈ lexemes text := by
  obtain ⟨x, whole, _⟩ := Nesting.exists_of_cutFirst? _ _ cut
  have settled := Lexeme.settled_lexemes text
  rw [whole] at settled
  refine ⟨settled.left, settled.right.2.2, fun y member => ?_⟩
  rw [whole]
  exact List.mem_append_right _ (List.mem_cons_of_mem x member)

theorem sight_value (text : String) :
    sight (Statement.ofText text).value = valueTokens (sight text) := by
  rw [valueTokens, ← assignment?_sight]
  unfold Statement.ofText
  split
  next left right cut =>
    rw [cut]
    exact Lexeme.sight_trimmedText (settled_sides cut).2.1
  next cut =>
    rw [cut]
    rfl

theorem assigned_eq (operators : NameSet) (text : String) :
    (Statement.ofText text).assigned operators =
      (names (targetTokens (sight text))).filter (!operators.contains ·) := by
  rw [targetTokens, ← assignment?_sight, Statement.ofText]
  cases cut :
      Nesting.cutFirst? Lexeme.shift (Lexeme.passes (·.kind == .equals)) 0 (lexemes text) with
  | none => rfl
  | some sides =>
    obtain ⟨left, right⟩ := sides
    have target := Lexeme.sight_trimmedText (settled_sides cut).1
    simp only [Statement.assigned, Option.map_some, Option.getD_some, Prod.map]
    rw [← target, names_sight]

/-- A value is blank exactly where it has no tokens, if this holds of its statement. -/
private theorem value_isEmpty {text : String} (blank : text.isEmpty = (sight text).isEmpty) :
    (Statement.ofText text).value.isEmpty = (valueTokens (sight text)).isEmpty := by
  rw [← sight_value]
  unfold Statement.ofText
  split
  next left right cut =>
    have settled := (settled_sides cut).2.1
    rw [Lexeme.trimmedText_isEmpty settled, Lexeme.sight_trimmedText settled]
  · exact blank

private theorem sealed_value {text : String} (closed : Lexeme.Sealed (lexemes text)) :
    Lexeme.Sealed (lexemes (Statement.ofText text).value) := by
  unfold Statement.ofText
  split
  next left right cut =>
    obtain ⟨_, settled, within⟩ := settled_sides cut
    -- The right side is a part of the statement, so nothing is open in it either.
    have sealed_ : Lexeme.Sealed right := fun x member => closed x (within x member)
    exact sealed_.trimmedText settled
  · exact closed

/-! ### Sequences of statements -/

private theorem nonempty_of_mem_splitText {cuts : Token → Bool} {text piece : String}
    (member : piece ∈ splitText cuts text) :
    piece.isEmpty = (sight piece).isEmpty := by
  obtain ⟨inside, _⟩ := List.mem_filter.mp member
  obtain ⟨group, found, rfl⟩ := List.mem_map.mp inside
  have settled := settled_of_mem_pieces (Lexeme.settled_lexemes text) found
  rw [Lexeme.trimmedText_isEmpty settled, Lexeme.sight_trimmedText settled]

/-- Only the last piece of a text can leave a quoted text open. -/
theorem pairwise_splitText (cuts : Token → Bool) (text : String) :
    (splitText cuts text).Pairwise fun piece _ => Lexeme.Sealed (lexemes piece) := by
  have settled := Lexeme.settled_lexemes text
  have ahead := Nesting.pairwise_pieces Lexeme.shift (Lexeme.passes cuts) 0 (lexemes text)
  apply List.Pairwise.filter
  rw [List.pairwise_map]
  refine ahead.imp_of_mem fun member _ early => ?_
  have closed : Lexeme.Sealed _ := fun x inside => settled.sealed_dropLast x (early x inside)
  exact closed.trimmedText (settled_of_mem_pieces settled member)

private theorem map_filter_value (pieces : List String)
    (blank : ∀ piece ∈ pieces, piece.isEmpty = (sight piece).isEmpty) :
    ((pieces.map fun piece => (Statement.ofText piece).value).filter (!·.isEmpty)).map sight =
      ((pieces.map sight).map valueTokens).filter (!·.isEmpty) := by
  induction pieces with
  | nil => rfl
  | cons piece rest ih =>
    simp only [List.mem_cons, forall_eq_or_imp] at blank
    simp only [List.map_cons, List.filter_cons, value_isEmpty blank.1]
    split
    · rw [List.map_cons, sight_value, ih blank.2]
    · exact ih blank.2

/-- Blank statements have no values, so it makes no difference when they are left out. -/
private theorem fragmentTokens_eq (ts : List Token) :
    fragmentTokens ts =
      ((splitTokens (·.kind == .semicolon) ts).map valueTokens).filter (!·.isEmpty) := by
  rw [fragmentTokens, statementTokens, splitTokens]
  induction Nesting.pieces (·.kind.shift) (·.kind == .semicolon) 0 ts with
  | nil => rfl
  | cons statement rest ih =>
    cases statement with
    | nil => exact ih
    | cons t more =>
      rw [List.filter_cons_of_pos rfl, List.map_cons, List.map_cons, List.filter_cons,
        List.filter_cons, ih]

private theorem assignedNames_eq (operators : NameSet) (ts : List Token) :
    assignedNames operators ts =
      (splitTokens (·.kind == .semicolon) ts).flatMap fun statement =>
        (names (targetTokens statement)).filter (!operators.contains ·) := by
  rw [assignedNames, statementTokens, splitTokens]
  induction Nesting.pieces (·.kind.shift) (·.kind == .semicolon) 0 ts with
  | nil => rfl
  | cons statement rest ih =>
    cases statement with
    | nil => exact ih
    | cons t more => rw [List.filter_cons_of_pos rfl, List.flatMap_cons, List.flatMap_cons, ih]

private theorem semicolon_gist (t : Token) :
    (t.gist.kind == .semicolon) = (t.kind == .semicolon) := by
  rw [Token.gist_kind]

theorem sight_fragments (operators : NameSet) (text : String) :
    (Script.ofText operators text).fragments.map sight = fragmentTokens (sight text) := by
  rw [fragmentTokens_eq, ← sight_splitText semicolon_gist,
    ← map_filter_value _ (fun _ => nonempty_of_mem_splitText)]
  simp [Script.ofText, Script.ofStatements, statements, Function.comp_def]

theorem assigned_script (operators : NameSet) (text : String) :
    (Script.ofText operators text).assigned =
      .ofList (assignedNames operators (sight text)) := by
  rw [assignedNames_eq, ← sight_splitText semicolon_gist, List.flatMap_map]
  simp only [Script.ofText, Script.ofStatements, statements, List.flatMap_map, assigned_eq]

/-! ### Joined statements -/

/-- A semicolon ends every token before it that is not open, and takes nothing itself. -/
theorem lexemes_semicolon {first : String} (closed : Lexeme.Sealed (lexemes first))
    (second : String) :
    lexemes (first ++ ";" ++ second) =
      lexemes first ++ .token ⟨.semicolon, ";"⟩ :: lexemes second :=
  lexemes_append_delimiter closed delimiter_semicolon second

private theorem lexemes_joint {first : String} (closed : Lexeme.Sealed (lexemes first))
    (second : String) :
    lexemes (first ++ "; " ++ second) =
      lexemes first ++ .token ⟨.semicolon, ";"⟩ :: .blank ' ' :: lexemes second := by
  have apart : first ++ "; " ++ second = first ++ ";" ++ (" " ++ second) := by
    apply String.toList_injective
    simp
  rw [apart, lexemes_semicolon closed, lexemes_space]

/-- Texts that are joined as statements are read one by one, with a semicolon between any two. -/
theorem tokens_intercalate {texts : List String}
    (closed : texts.Pairwise fun text _ => Lexeme.Sealed (lexemes text)) :
    tokens ("; ".intercalate texts) = joinTokens (texts.map tokens) := by
  induction texts with
  | nil => rfl
  | cons first rest ih =>
    cases rest with
    | nil => simp [joinTokens]
    | cons second more =>
      obtain ⟨ahead, later⟩ := List.pairwise_cons.mp closed
      -- All texts but the last one are closed, so the first is not glued to the others.
      have next := ih later
      rw [List.map_cons] at next
      rw [String.intercalate_cons_cons, tokens, lexemes_joint (ahead second List.mem_cons_self),
        List.map_cons, List.map_cons, joinTokens, List.intercalate_cons_cons, ← joinTokens, ← next]
      simp [tokens]

theorem sight_joined {fragments : List String}
    (closed : fragments.Pairwise fun fragment _ => Lexeme.Sealed (lexemes fragment)) :
    sight ("; ".intercalate fragments) = joinTokens (fragments.map sight) := by
  rw [sight, tokens_intercalate closed, ← joinTokens_map rfl, List.map_map]
  rfl

theorem pairwise_fragments (operators : NameSet) (text : String) :
    (Script.ofText operators text).fragments.Pairwise
      fun fragment _ => Lexeme.Sealed (lexemes fragment) := by
  have closed := pairwise_splitText (·.kind == .semicolon) text
  apply List.Pairwise.filter
  rw [statements, List.map_map, List.pairwise_map]
  exact closed.imp fun whole => sealed_value whole

end Formula

/-! ### Fields -/

namespace Vocabulary

variable (v : Vocabulary)

/-- What is found in a text that is searched for a formula is a field of the formula, unless it is
assigned or an operator. -/
theorem mem_fields_of_mem_scanText {formula source name : String}
    (searched : source ∈ (v.script formula).joined :: (v.script formula).fragments)
    (found : name ∈ v.scanText source 0) (operator : v.isOperator name = false)
    (unassigned : name ∉ (v.script formula).assigned) : name ∈ v.fields formula := by
  have candidate : name ∈ v.candidates (v.script formula) := by
    rw [candidates, List.mem_append, List.mem_flatMap]
    rcases List.mem_cons.mp searched with joined | fragment
    · exact Or.inl (joined ▸ found)
    · exact Or.inr ⟨source, fragment, found⟩
  rw [fields, fieldsOfScript, Std.ExtTreeSet.mem_ofList, List.contains_iff_mem]
  have absent : (v.script formula).assigned.contains name = false :=
    Bool.eq_false_iff.mpr (mt Std.ExtTreeSet.mem_iff_contains.mpr unassigned)
  exact List.mem_filter.mpr ⟨candidate, by rw [absent, operator]; rfl⟩

private theorem candidates_sight (text : String) :
    v.candidates (.ofText v.operators text) = v.candidatesOfTokens (sight text) := by
  have joined : sight (Script.ofText v.operators text).joined =
      joinTokens (fragmentTokens (sight text)) := by
    rw [Script.joined, sight_joined (pairwise_fragments _ _), sight_fragments]
  have outermost : ∀ text, v.scanText text 0 = v.scanTokens (v.depthLimit + 1) (sight text) :=
    fun text => v.scan_sight (v.depthLimit + 1) text
  rw [candidates, candidatesOfTokens, outermost, joined, ← sight_fragments v.operators,
    List.flatMap_map]
  simp only [outermost]

/-- The fields of a formula are those of its tokens. -/
theorem fields_eq (formula : String) :
    v.fields formula = v.fieldsOfTokens (tokens (clean formula)) := by
  have gist := relabels_gist v
  have candidates : v.candidates (v.script formula) =
      v.candidatesOfTokens (tokens (clean formula)) := by
    rw [script, candidates_sight, sight, gist.candidatesOfTokens_map, List.map_id]
  have assigned : (v.script formula).assigned =
      .ofList (assignedNames v.operators (tokens (clean formula))) := by
    rw [script, assigned_script, sight, gist.assignedNames_map _ (fun _ => rfl), List.map_id]
  rw [fields, fieldsOfScript, candidates, assigned, fieldsOfTokens]

end Vocabulary

end FormulaFields
