import FormulaFields.Proofs.PrintedStatements

/-!
Splitting a text at separators outside its brackets. The pieces stand in the text one behind the
other, and they hold its tokens without the separators: each piece starts where no bracket is open,
each but the last one ends so, and trimming a piece takes from its tokens at most the blanks at the
end of a quoted text that is never closed. So a piece is split no further, and pieces that are
joined again are split into themselves. Main statement: `splitText_lossless`.
-/
namespace FormulaFields.Formula

/-! ### Pieces in a row -/

namespace Nesting

section

variable {Item : Type} (shift : Item → Int) (cuts : Item → Bool)

/-- The items that do not separate. -/
def unseparated (depth : Int) : List Item → List Item
  | [] => []
  | x :: rest =>
    if separates shift cuts depth x then unseparated depth rest
    else x :: unseparated (depth + shift x) rest

variable {shift cuts}

theorem flatten_pieces (depth : Int) (list : List Item) :
    (pieces shift cuts depth list).flatten = unseparated shift cuts depth list := by
  induction list generalizing depth with
  | nil => rfl
  | cons x rest ih =>
    rw [pieces, unseparated]
    split
    · rw [List.flatten_cons, List.nil_append, ih]
    · obtain ⟨first, more, cut⟩ := exists_pieces_eq_cons shift cuts (depth + shift x) rest
      rw [← ih, cut, List.modifyHead_cons, List.flatten_cons, List.flatten_cons, List.cons_append]

/-- The first piece is all there is, or a separator outside brackets stands behind it and the other
pieces are those of what follows. -/
theorem eq_of_pieces_eq_cons {depth : Int} {list first : List Item} {more : List (List Item)}
    (cut : pieces shift cuts depth list = first :: more) :
    (list = first ∧ more = []) ∨
      ∃ x rest, list = first ++ x :: rest ∧ separates shift cuts 0 x = true ∧
        level shift depth first = 0 ∧ pieces shift cuts 0 rest = more := by
  induction list generalizing depth first more with
  | nil =>
    obtain ⟨rfl, rfl⟩ := List.cons.inj cut
    exact Or.inl ⟨rfl, rfl⟩
  | cons x rest ih =>
    rw [pieces] at cut
    split at cut
    next separator =>
      obtain ⟨rfl, rfl⟩ := List.cons.inj cut
      have outside : depth = 0 := by
        simp only [separates, Bool.and_eq_true, beq_iff_eq] at separator
        exact separator.1.2
      subst outside
      exact Or.inr ⟨x, rest, rfl, separator, rfl, rfl⟩
    · obtain ⟨front, others, next⟩ := exists_pieces_eq_cons shift cuts (depth + shift x) rest
      rw [next, List.modifyHead_cons] at cut
      obtain ⟨rfl, rfl⟩ := List.cons.inj cut
      -- `x` and the first piece of the rest are the first piece, with the same things behind it.
      rcases ih next with ⟨rfl, rfl⟩ | ⟨y, behind, rfl, separator, outside, later⟩
      · exact Or.inl ⟨rfl, rfl⟩
      · exact Or.inr ⟨y, behind, rfl, separator, outside, later⟩

/-- What is a single piece is that piece. -/
theorem pieces_eq_of_length {depth : Int} {list : List Item}
    (single : (pieces shift cuts depth list).length = 1) :
    pieces shift cuts depth list = [list] := by
  obtain ⟨first, more, cut⟩ := exists_pieces_eq_cons shift cuts depth list
  rcases eq_of_pieces_eq_cons cut with ⟨rfl, rfl⟩ | ⟨x, rest, _, _, _, later⟩
  · exact cut
  -- A separator would leave a second piece behind it, though perhaps an empty one.
  · obtain ⟨second, others, next⟩ := exists_pieces_eq_cons shift cuts 0 rest
    rw [cut, ← later, next] at single
    simp at single

/-- All pieces but the last one leave no bracket open. -/
theorem pairwise_level (list : List Item) :
    (pieces shift cuts 0 list).Pairwise fun piece _ => level shift 0 piece = 0 := by
  induction groups : pieces shift cuts 0 list generalizing list with
  | nil => exact List.Pairwise.nil
  | cons first more ih =>
    rcases eq_of_pieces_eq_cons groups with ⟨_, rfl⟩ | ⟨x, rest, _, _, outside, later⟩
    · exact List.pairwise_singleton _ _
    · exact List.Pairwise.cons (fun _ _ => outside) (ih rest later)

/-- Where no bracket is open, a separator parts the pieces before it from those behind it. -/
theorem pieces_append_cons {first : List Item} {x : Item} (outside : level shift 0 first = 0)
    (separator : separates shift cuts 0 x = true) (rest : List Item) :
    pieces shift cuts 0 (first ++ x :: rest) =
      pieces shift cuts 0 first ++ pieces shift cuts 0 rest := by
  obtain ⟨head, more, cut⟩ := exists_pieces_eq_cons shift cuts 0 first
  obtain ⟨front, last, whole⟩ : ∃ front last, pieces shift cuts 0 first = front ++ [last] :=
    ⟨_, _, (List.dropLast_append_getLast (cut ▸ List.cons_ne_nil head more)).symm⟩
  -- The last piece would go on behind the first list, but there the separator stands.
  rw [pieces_append whole, outside, pieces, if_pos separator, whole]
  simp

end

end Nesting

/-- The parts stand in the text one behind the other. -/
def InOrder : List String → String → Prop
  | [], _ => True
  | part :: more, text => ∃ before after, text = before ++ part ++ after ∧ InOrder more after

theorem InOrder.behind {parts : List String} {text : String} (ordered : InOrder parts text)
    (before : String) : InOrder parts (before ++ text) := by
  cases parts with
  | nil => trivial
  | cons part more =>
    obtain ⟨front, after, rfl, later⟩ := ordered
    exact ⟨before ++ front, after, by simp only [String.append_assoc], later⟩

theorem InOrder.sublist {some parts : List String} (fewer : some.Sublist parts) {text : String}
    (ordered : InOrder parts text) : InOrder some text := by
  induction fewer generalizing text with
  | slnil => trivial
  | cons part _ ih =>
    obtain ⟨before, after, rfl, later⟩ := ordered
    exact (ih later).behind _
  | cons_cons part _ ih =>
    obtain ⟨before, after, whole, later⟩ := ordered
    exact ⟨before, after, whole, ih later⟩

/-! ### Tokens of the pieces -/

section Tokens

variable {cuts : Token → Bool}

theorem map_tokens_pieces (cuts : Token → Bool) (depth : Int) (ls : List Lexeme) :
    (Nesting.pieces Lexeme.shift (Lexeme.passes cuts) depth ls).map Lexeme.tokens =
      Nesting.pieces (·.kind.shift) cuts depth (Lexeme.tokens ls) :=
  Nesting.map_pieces (views_tokens cuts) depth ls

private theorem views_trimmed (separators : Kind → Bool) :
    Nesting.Views (·.kind.shift) (separators ·.kind) (·.kind.shift) (separators ·.kind)
      (some ∘ Token.trimmed) where
  hidden := nofun
  seen := by
    rintro t _ ⟨⟩
    exact ⟨rfl, rfl⟩

/-- A token of a text has no blanks at its end, or it is a quoted text that is never closed and the
text ends with it. -/
theorem trimmed_or_unterminated {text : String} {t : Token} (member : t ∈ tokens text) :
    t.trimmed = t ∨ t.IsUnterminated ∧ (tokens text).getLast? = some t := by
  have settled := Lexeme.settled_lexemes text
  have inside := Lexeme.mem_tokens.mp member
  have sound := settled.sound _ inside
  by_cases unclosed : (Lexeme.token t).IsOpen
  · right
    refine ⟨Lexeme.unterminated_of_isOpen sound unclosed, ?_⟩
    -- An open text takes all that follows, so nothing stands behind it.
    obtain ⟨front, last, whole⟩ := List.eq_nil_or_concat (lexemes text) |>.resolve_left
      (List.ne_nil_of_mem inside)
    have early := settled.sealed_dropLast
    rw [List.concat_eq_append] at whole
    rw [whole, List.dropLast_concat] at early
    rw [whole, List.mem_append, List.mem_singleton] at inside
    obtain rfl := inside.resolve_left fun before => early _ before unclosed
    simp [tokens, whole]
  · exact Or.inl (Lexeme.trimmed_of_closed sound unclosed)

theorem exists_of_mem_splitText {text piece : String} (member : piece ∈ splitText cuts text) :
    ∃ group ∈ Nesting.pieces Lexeme.shift (Lexeme.passes cuts) 0 (lexemes text),
      piece = Lexeme.trimmedText group ∧ piece ≠ "" ∧
        tokens piece = (Lexeme.tokens group).map Token.trimmed := by
  obtain ⟨inside, shown⟩ := List.mem_filter.mp member
  obtain ⟨group, found, rfl⟩ := List.mem_map.mp inside
  have settled := settled_of_mem_pieces (Lexeme.settled_lexemes text) found
  exact ⟨group, found, rfl, by simpa using shown, Lexeme.tokens_trimmedText settled⟩

/-- What the pieces are in the text: stretches of it that are not blank, with no blanks around
them, one behind the other, which together hold all tokens but the separators. -/
structure Dissects (separators : Kind → Bool) (text : String) (pieces : List String) : Prop where
  shown : ∀ piece ∈ pieces, piece ≠ ""
  trimmed : ∀ piece ∈ pieces, Text.trimmed piece = piece
  ordered : InOrder pieces text
  tokens : pieces.flatMap tokens =
    (Nesting.unseparated (·.kind.shift) (separators ·.kind) 0 (tokens text)).map Token.trimmed

private theorem inOrder_trimmedText (cuts : Token → Bool) (ls : List Lexeme) :
    InOrder ((Nesting.pieces Lexeme.shift (Lexeme.passes cuts) 0 ls).map Lexeme.trimmedText)
      (String.ofList (Lexeme.render ls)) := by
  -- By induction on the pieces: each of them is followed by a separator and the later ones.
  induction groups : Nesting.pieces Lexeme.shift (Lexeme.passes cuts) 0 ls generalizing ls with
  | nil => trivial
  | cons first more ih =>
    obtain ⟨before, after, whole, _⟩ := exists_trim (Lexeme.render first)
    have spelled : String.ofList (Lexeme.render first) =
        String.ofList before ++ Lexeme.trimmedText first ++ String.ofList after := by
      rw [Lexeme.trimmedText, ← String.ofList_append, ← String.ofList_append, ← whole]
    rcases Nesting.eq_of_pieces_eq_cons groups with ⟨rfl, rfl⟩ | ⟨x, rest, rfl, _, _, later⟩
    · exact ⟨_, _, spelled, trivial⟩
    · refine ⟨String.ofList before, String.ofList after ++ (String.ofList x.chars ++
        String.ofList (Lexeme.render rest)), ?_, ((ih rest later).behind _).behind _⟩
      rw [Lexeme.render_append, Lexeme.render_cons, String.ofList_append, String.ofList_append,
        spelled, String.append_assoc]

private theorem flatMap_tokens_splitText (cuts : Token → Bool) (text : String) :
    (splitText cuts text).flatMap tokens =
      (Nesting.unseparated (·.kind.shift) cuts 0 (tokens text)).map Token.trimmed := by
  -- A piece that is left out is empty and has no tokens.
  have kept (texts : List String) :
      (texts.filter (!·.isEmpty)).flatMap tokens = texts.flatMap tokens := by
    induction texts with
    | nil => rfl
    | cons first rest ih =>
      rw [List.filter_cons, List.flatMap_cons]
      split
      · rw [List.flatMap_cons, ih]
      next empty =>
        obtain rfl : first = "" := by simpa using empty
        exact ih
  have settled := Lexeme.settled_lexemes text
  rw [splitText, kept, List.flatMap_map, ← Nesting.flatten_pieces, tokens, ← map_tokens_pieces,
    ← List.flatMap_def, List.map_flatMap]
  exact List.flatMap_congr fun group member =>
    Lexeme.tokens_trimmedText (settled_of_mem_pieces settled member)

theorem dissects_splitText (separators : Kind → Bool) (text : String) :
    Dissects separators text (splitText (separators ·.kind) text) where
  shown := by
    intro piece member
    obtain ⟨_, _, _, shown, _⟩ := exists_of_mem_splitText member
    exact shown
  trimmed := by
    intro piece member
    obtain ⟨group, _, rfl, _⟩ := exists_of_mem_splitText member
    rw [Text.trimmed, Lexeme.trimmedText, String.toList_ofList, trim_trim]
  ordered := by
    have ordered := inOrder_trimmedText (separators ·.kind) (lexemes text)
    rw [render_lexemes, String.ofList_toList] at ordered
    exact ordered.sublist List.filter_sublist
  tokens := flatMap_tokens_splitText _ text

end Tokens

/-! ### Splitting a piece -/

/-- A text that nothing cuts is its own piece. -/
theorem splitText_of_pieces {cuts : Token → Bool} {text : String}
    (whole : Nesting.pieces (·.kind.shift) cuts 0 (tokens text) = [tokens text])
    (shown : tokens text ≠ []) : splitText cuts text = [Text.trimmed text] := by
  have groups : Nesting.pieces Lexeme.shift (Lexeme.passes cuts) 0 (lexemes text) =
      [lexemes text] := by
    apply Nesting.pieces_eq_of_length
    have lengths := congrArg List.length (map_tokens_pieces cuts 0 (lexemes text))
    rw [List.length_map] at lengths
    rw [lengths, ← tokens, whole, List.length_singleton]
  have inked : (Text.trimmed text).isEmpty = false := by
    rw [trimmed_eq, Lexeme.trimmedText_isEmpty (Lexeme.settled_lexemes text)]
    simpa [tokens] using shown
  rw [splitText, groups, List.map_singleton, ← trimmed_eq, List.filter_singleton, inked]
  rfl

/-- Trimming changes no token so that it nests or separates otherwise. -/
theorem pieces_trimmedText (separators : Kind → Bool) {ls : List Lexeme}
    (settled : Lexeme.Settled ls)
    (whole : Nesting.pieces Lexeme.shift (Lexeme.passes (separators ·.kind)) 0 ls = [ls]) :
    Nesting.pieces (·.kind.shift) (separators ·.kind) 0 (tokens (Lexeme.trimmedText ls)) =
      [tokens (Lexeme.trimmedText ls)] := by
  have seen := Nesting.map_pieces (views_trimmed separators) 0 (Lexeme.tokens ls)
  rw [← map_tokens_pieces, whole] at seen
  simpa [Lexeme.tokens_trimmedText settled] using seen.symm

theorem level_trimmedText {ls : List Lexeme} (settled : Lexeme.Settled ls) :
    Nesting.level (·.kind.shift) 0 (tokens (Lexeme.trimmedText ls)) =
      Nesting.level Lexeme.shift 0 ls := by
  have seen := Nesting.level_filterMap (views_trimmed fun _ => false) 0 (Lexeme.tokens ls)
  rwa [List.filterMap_eq_map, Lexeme.level_tokens, ← Lexeme.tokens_trimmedText settled] at seen

/-- What nothing cuts is its own piece when it is trimmed. -/
theorem splitText_trimmedText (separators : Kind → Bool) {ls : List Lexeme}
    (settled : Lexeme.Settled ls)
    (whole : Nesting.pieces Lexeme.shift (Lexeme.passes (separators ·.kind)) 0 ls = [ls])
    (shown : Lexeme.trimmedText ls ≠ "") :
    splitText (separators ·.kind) (Lexeme.trimmedText ls) = [Lexeme.trimmedText ls] := by
  have inked : tokens (Lexeme.trimmedText ls) ≠ [] := by
    intro none
    rw [Lexeme.tokens_trimmedText settled, List.map_eq_nil_iff] at none
    have empty := Lexeme.trimmedText_isEmpty settled
    rw [none] at empty
    exact shown (String.isEmpty_iff.mp empty)
  have trimmed : Text.trimmed (Lexeme.trimmedText ls) = Lexeme.trimmedText ls := by
    rw [Text.trimmed, Lexeme.trimmedText, String.toList_ofList, trim_trim]
  rw [splitText_of_pieces (pieces_trimmedText separators settled whole) inked, trimmed]

/-- Splitting a piece again gives that piece. -/
theorem splitText_of_mem_splitText (separators : Kind → Bool) {text piece : String}
    (member : piece ∈ splitText (separators ·.kind) text) :
    splitText (separators ·.kind) piece = [piece] := by
  obtain ⟨group, found, rfl, shown, _⟩ := exists_of_mem_splitText member
  exact splitText_trimmedText separators
    (settled_of_mem_pieces (Lexeme.settled_lexemes text) found)
    (Nesting.pieces_of_mem_pieces _ _ found) shown

/-! ### Joining the pieces -/

section Joined

theorem splitText_space (cuts : Token → Bool) (text : String) :
    splitText cuts (" " ++ text) = splitText cuts text := by
  obtain ⟨first, more, cut⟩ :=
    Nesting.exists_pieces_eq_cons Lexeme.shift (Lexeme.passes cuts) 0 (lexemes text)
  have space : Nesting.pieces Lexeme.shift (Lexeme.passes cuts) 0 (lexemes (" " ++ text)) =
      (.blank ' ' :: first) :: more := by
    have blind : Nesting.separates Lexeme.shift (Lexeme.passes cuts) 0 (.blank ' ') = false := rfl
    rw [lexemes_space, Nesting.pieces, blind, if_neg Bool.false_ne_true, Lexeme.shift, Int.add_zero,
      cut, List.modifyHead_cons]
  have trimmed : Lexeme.trimmedText (.blank ' ' :: first) = Lexeme.trimmedText first := rfl
  rw [splitText, space, List.map_cons, trimmed, splitText, cut, List.map_cons]

variable (separators : Kind → Bool) {c : Char} {kind : Kind}

/-- A delimiter that separates parts what stands before it from what follows, if no bracket and no
quoted text is open there. -/
theorem splitText_append (delimiter : Delimiter c kind) (cut : separators kind = true)
    {first : String} (closed : Lexeme.Sealed (lexemes first))
    (outside : Nesting.level (·.kind.shift) 0 (tokens first) = 0) (second : String) :
    splitText (separators ·.kind) (first ++ String.singleton c ++ second) =
      splitText (separators ·.kind) first ++ splitText (separators ·.kind) second := by
  have separator : Nesting.separates Lexeme.shift (Lexeme.passes (separators ·.kind)) 0
      (.token ⟨kind, String.singleton c⟩) = true := by
    simp [Nesting.separates, Lexeme.shift, delimiter.flat, Lexeme.passes, Lexeme.token?, cut]
  rw [tokens, Lexeme.level_tokens] at outside
  rw [splitText, lexemes_append_delimiter closed delimiter,
    Nesting.pieces_append_cons outside separator, List.map_append, List.filter_append]
  rfl

/-- Texts that are split into themselves are so when delimiters join them. -/
theorem splitText_joined (delimiter : Delimiter c kind) (cut : separators kind = true)
    {texts : List String}
    (closed : texts.Pairwise fun text _ => Lexeme.Sealed (lexemes text) ∧
      Nesting.level (·.kind.shift) 0 (tokens text) = 0)
    (whole : ∀ text ∈ texts, splitText (separators ·.kind) text = [text]) :
    splitText (separators ·.kind) ((String.singleton c ++ " ").intercalate texts) = texts := by
  induction texts with
  | nil => rfl
  | cons first rest ih =>
    obtain ⟨single, later⟩ := List.forall_mem_cons.mp whole
    cases rest with
    | nil => rw [String.intercalate_singleton, single]
    | cons second more =>
      -- All texts but the last one are closed, so the delimiter behind the first one separates.
      obtain ⟨ahead, behind⟩ := List.pairwise_cons.mp closed
      obtain ⟨sealed_, outside⟩ := ahead second List.mem_cons_self
      rw [String.intercalate_cons_cons, ← String.append_assoc, String.append_assoc,
        splitText_append separators delimiter cut sealed_ outside, splitText_space, single,
        ih behind later, List.singleton_append]

theorem pairwise_level_splitText (text : String) :
    (splitText (separators ·.kind) text).Pairwise fun piece _ =>
      Nesting.level (·.kind.shift) 0 (tokens piece) = 0 := by
  have settled := Lexeme.settled_lexemes text
  have level : (Nesting.pieces Lexeme.shift (Lexeme.passes (separators ·.kind)) 0
      (lexemes text)).Pairwise fun piece _ => Nesting.level Lexeme.shift 0 piece = 0 :=
    Nesting.pairwise_level _
  apply List.Pairwise.filter
  rw [List.pairwise_map]
  exact level.imp_of_mem fun member _ outside =>
    (level_trimmedText (settled_of_mem_pieces settled member)).trans outside

end Joined

theorem splitArguments_joined (text : String) :
    splitArguments (", ".intercalate (splitArguments text)) = splitArguments text := by
  have comma : ", " = String.singleton ',' ++ " " := by decide
  have level := pairwise_level_splitText (· == .comma) text
  rw [comma]
  exact splitText_joined (· == .comma) delimiter_comma rfl
    ((pairwise_splitText _ text).and level) fun _ => splitText_of_mem_splitText (· == .comma)

/-- Splitting a text neither loses nor doubles anything. The pieces dissect it, where only a quoted
text at the very end that is never closed can lose blanks; a piece is split no further; and
arguments with commas between them are split into these arguments. -/
theorem splitText_lossless (separators : Kind → Bool) (text : String) :
    Dissects separators text (splitText (separators ·.kind) text) ∧
      (∀ t ∈ tokens text,
        t.trimmed = t ∨ t.IsUnterminated ∧ (tokens text).getLast? = some t) ∧
      (∀ piece ∈ splitText (separators ·.kind) text,
        splitText (separators ·.kind) piece = [piece]) ∧
      splitArguments (", ".intercalate (splitArguments text)) = splitArguments text :=
  ⟨dissects_splitText separators text, fun _ => trimmed_or_unterminated,
    fun _ => splitText_of_mem_splitText separators, splitArguments_joined text⟩

/-- A bracket that was never opened hides the comma behind it, until one opens. -/
example : splitArguments "f(b, c), ) d, e (, [g, h], , \"i, " =
    ["f(b, c)", ") d, e (", "[g, h]", "\"i,"] := by decide +kernel

end FormulaFields.Formula
