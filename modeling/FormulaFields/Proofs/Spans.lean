import FormulaFields.Proofs.Slices
import Mathlib.Data.String.Basic

/-!
Where the tokens of a text stand. They tile it: they stand in a row, each on the bytes of its own
text, and nothing but blanks is left between them. What is cut out from one token to another reads
as these tokens again, only that their places are counted from the cut.
-/
namespace FormulaFields.Formula

open Text (isBlank)
open String (utf8Len)

namespace Lexeme

/-- How many bytes some lexemes take. -/
def size (ls : List Lexeme) : Nat := utf8Len (render ls)

@[simp] theorem size_nil : size [] = 0 := rfl

@[simp] theorem size_blank (c : Char) (rest : List Lexeme) :
    size (.blank c :: rest) = c.utf8Size + size rest := by
  simp [size, chars, Nat.add_comm]

@[simp] theorem size_token (t : Token) (rest : List Lexeme) :
    size (.token t :: rest) = t.text.utf8ByteSize + size rest := by
  simp [size, chars, String.utf8Len_toList]

@[simp] theorem size_append (first second : List Lexeme) :
    size (first ++ second) = size first + size second := by
  simp [size]

end Lexeme

theorem size_lexemes (text : String) : Lexeme.size (lexemes text) = text.utf8ByteSize := by
  rw [Lexeme.size, render_lexemes, String.utf8Len_toList]

/-- The token at a place so many bytes further on. -/
def Placed.moved (p : Placed) (bytes : Nat) : Placed := ⟨p.token, p.start + bytes, p.stop + bytes⟩

/-! ### Places -/

theorem map_token_place (start : Nat) (ls : List Lexeme) :
    (place start ls).map (·.token) = Lexeme.tokens ls := by
  induction ls generalizing start with
  | nil => rfl
  | cons x rest ih =>
    cases x with
    | blank c => exact ih _
    | token t => exact congrArg (t :: ·) (ih _)

theorem place_append (start : Nat) (first second : List Lexeme) :
    place start (first ++ second) =
      place start first ++ place (start + Lexeme.size first) second := by
  induction first generalizing start with
  | nil => simp [place]
  | cons x rest ih =>
    cases x with
    | blank c => simp [place, ih, Nat.add_assoc]
    | token t => simp [place, ih, Nat.add_assoc]

theorem place_add (start bytes : Nat) (ls : List Lexeme) :
    place (start + bytes) ls = (place start ls).map (·.moved bytes) := by
  induction ls generalizing start with
  | nil => rfl
  | cons x rest ih =>
    cases x with
    | blank c =>
      rw [place, place, ← ih, Nat.add_right_comm]
    | token t =>
      rw [place, place, List.map_cons, ← ih, Placed.moved, Nat.add_right_comm]

/-- A placed token stands in the list behind as many tokens and bytes as its place says. -/
theorem exists_of_getElem?_place {start : Nat} {ls : List Lexeme} {index : Nat} {p : Placed}
    (found : (place start ls)[index]? = some p) :
    ∃ front back, ls = front ++ .token p.token :: back ∧ (Lexeme.tokens front).length = index ∧
      p.start = start + Lexeme.size front ∧ p.stop = p.start + p.token.text.utf8ByteSize := by
  induction ls generalizing start index with
  | nil => cases found
  | cons x rest ih =>
    cases x with
    | blank c =>
      obtain ⟨front, back, rfl, count, first, last⟩ := ih found
      exact ⟨.blank c :: front, back, rfl, count, by simp [first, Nat.add_assoc], last⟩
    | token t =>
      cases index with
      | zero =>
        obtain rfl := Option.some.inj found
        exact ⟨[], rest, rfl, rfl, rfl, rfl⟩
      | succ index =>
        obtain ⟨front, back, rfl, count, first, last⟩ := ih found
        exact ⟨.token t :: front, back, rfl, by simp [count], by simp [first, Nat.add_assoc], last⟩

theorem map_token_placedTokens (text : String) :
    (placedTokens text).map (·.token) = tokens text :=
  map_token_place 0 (lexemes text)

theorem getElem?_placedTokens {text : String} {front back : List Lexeme} {t : Token}
    (whole : lexemes text = front ++ .token t :: back) :
    (placedTokens text)[(Lexeme.tokens front).length]? =
      some ⟨t, Lexeme.size front, Lexeme.size front + t.text.utf8ByteSize⟩ := by
  have earlier : (place 0 front).length = (Lexeme.tokens front).length := by
    rw [← List.length_map, map_token_place]
  rw [placedTokens, whole, place_append, ← earlier, List.getElem?_append_right (Nat.le_refl _),
    Nat.sub_self, Nat.zero_add]
  rfl

private theorem start_le_of_mem_place {start : Nat} {ls : List Lexeme} {p : Placed}
    (member : p ∈ place start ls) : start ≤ p.start := by
  obtain ⟨index, found⟩ := List.mem_iff_getElem?.mp member
  obtain ⟨front, _, _, _, first, _⟩ := exists_of_getElem?_place found
  omega

/-- Tokens occupy their bytes one after the other. -/
theorem pairwise_place (start : Nat) (ls : List Lexeme) :
    (place start ls).Pairwise fun p q => p.stop ≤ q.start := by
  induction ls generalizing start with
  | nil => exact List.Pairwise.nil
  | cons x rest ih =>
    cases x with
    | blank c => exact ih _
    | token t => exact List.Pairwise.cons (fun _ behind => start_le_of_mem_place behind) (ih _)

/-! ### Tilings -/

/-- Places in a text that hold its tokens in a row, with blanks between them and around them. -/
structure Tiling (text : String) (placed : List Placed) : Prop where
  ordered : placed.Pairwise fun p q => p.start < q.start ∧ p.stop ≤ q.start
  nonempty : ∀ p ∈ placed, p.start < p.stop
  /-- Both ends are between two characters. -/
  ends : ∀ p ∈ placed,
    String.Pos.Raw.IsValid text ⟨p.start⟩ ∧ String.Pos.Raw.IsValid text ⟨p.stop⟩
  spelled : ∀ p ∈ placed, String.Pos.Raw.extract text ⟨p.start⟩ ⟨p.stop⟩ = p.token.text
  inked : ∀ p ∈ placed, ∃ c ∈ p.token.text.toList.head?, isBlank c = false
  /-- A character whose bytes are in no token is blank. -/
  blank : ∀ before c after, text.toList = before ++ c :: after →
    (∀ p ∈ placed, utf8Len before < p.start ∨ p.stop ≤ utf8Len before) → isBlank c = true

/-- A placed token cuts the text in three. -/
private theorem exists_of_mem_placedTokens {text : String} {p : Placed}
    (member : p ∈ placedTokens text) :
    ∃ before after, text = String.ofList (before ++ p.token.text.toList ++ after) ∧
      p.start = utf8Len before ∧ p.stop = utf8Len before + utf8Len p.token.text.toList ∧
      (Lexeme.token p.token).Sound := by
  obtain ⟨index, found⟩ := List.mem_iff_getElem?.mp member
  obtain ⟨front, back, whole, _, first, last⟩ := exists_of_getElem?_place found
  refine ⟨Lexeme.render front, Lexeme.render back, ?_, ?_, ?_, ?_⟩
  · rw [← String.ofList_toList (s := text), ← render_lexemes, whole]
    simp [Lexeme.chars]
  · simpa [Lexeme.size] using first
  · rw [last, first, String.utf8Len_toList, Nat.zero_add, Lexeme.size]
  · apply (Lexeme.settled_lexemes text).sound
    simp [whole]

/-- A character that no token occupies is one of the blanks. -/
private theorem blank_of_uncovered (start : Nat) {ls : List Lexeme} (sound : ∀ x ∈ ls, x.Sound)
    {before : List Char} {c : Char} {after : List Char}
    (whole : Lexeme.render ls = before ++ c :: after)
    (apart : ∀ p ∈ place start ls,
      start + utf8Len before < p.start ∨ p.stop ≤ start + utf8Len before) : isBlank c = true := by
  induction ls generalizing start before with
  | nil => simp at whole
  | cons x rest ih =>
    simp only [List.mem_cons, forall_eq_or_imp] at sound
    rw [Lexeme.render_cons] at whole
    cases x with
    | blank d =>
      cases before with
      | nil =>
        obtain ⟨rfl, _⟩ := List.cons.inj whole
        exact sound.1
      | cons e tail =>
        obtain ⟨rfl, behind⟩ := List.cons.inj whole
        refine ih (start + d.utf8Size) sound.2 behind fun p member => ?_
        have uncovered := apart p member
        rw [String.utf8Len_cons] at uncovered
        omega
    | token t =>
      have uncovered : t.text.utf8ByteSize ≤ utf8Len before := by
        have first := apart _ List.mem_cons_self
        simp only at first
        omega
      -- The token ends before the character, so the character stands behind it.
      have later (middle : List Char) (split : before = t.text.toList ++ middle)
          (behind : Lexeme.render rest = middle ++ c :: after) : isBlank c = true := by
        refine ih (start + t.text.utf8ByteSize) sound.2 behind fun p member => ?_
        have further := apart p (List.mem_cons_of_mem _ member)
        rw [split, String.utf8Len_append, String.utf8Len_toList] at further
        omega
      rcases List.append_eq_append_iff.mp whole with
        ⟨middle, split, behind⟩ | ⟨middle, inside, behind⟩
      · exact later middle split behind
      · cases middle with
        | nil => exact later [] (by simpa [Lexeme.chars] using inside.symm) behind.symm
        | cons d tail =>
          rw [← String.utf8Len_toList, show t.text.toList = before ++ d :: tail from inside,
            String.utf8Len_append, String.utf8Len_cons] at uncovered
          have wide := d.utf8Size_pos
          omega

private theorem tiling_placedTokens (text : String) : Tiling text (placedTokens text) := by
  have nonempty {p : Placed} (member : p ∈ placedTokens text) : p.start < p.stop := by
    obtain ⟨before, after, _, first, last, sound⟩ := exists_of_mem_placedTokens member
    have taken : utf8Len p.token.text.toList ≠ 0 :=
      fun empty => sound.chars_ne_nil (String.utf8Len_eq_zero.mp empty)
    omega
  constructor
  case ordered =>
    refine (pairwise_place 0 (lexemes text)).imp_of_mem fun member _ apart => ⟨?_, apart⟩
    exact (nonempty member).trans_le apart
  case nonempty => exact fun p member => nonempty member
  case ends =>
    intro p member
    obtain ⟨before, after, whole, first, last, _⟩ := exists_of_mem_placedTokens member
    rw [String.Pos.Raw.isValid_iff_exists_append, String.Pos.Raw.isValid_iff_exists_append]
    refine ⟨⟨String.ofList before, String.ofList (p.token.text.toList ++ after), ?_, ?_⟩,
      String.ofList (before ++ p.token.text.toList), String.ofList after, ?_, ?_⟩
    · rw [whole, ← String.ofList_append, List.append_assoc]
    · rw [String.rawEndPos_ofList, first]
    · rw [whole, ← String.ofList_append]
    · rw [String.rawEndPos_ofList, last, String.utf8Len_append]
  case spelled =>
    intro p member
    obtain ⟨before, after, whole, first, last, _⟩ := exists_of_mem_placedTokens member
    rw [whole, first, last, String.extract_of_valid, String.ofList_toList]
  case inked =>
    intro p member
    obtain ⟨_, _, _, _, _, m, single, _⟩ := exists_of_mem_placedTokens member
    cases chars : p.token.text.toList with
    | nil =>
      rw [chars] at single
      cases single
    | cons c rest =>
      rw [chars, Munch.ofChars?] at single
      refine ⟨c, rfl, ?_⟩
      split at single
      · cases single
      next inked => simpa using inked
  case blank =>
    intro before c after whole apart
    apply blank_of_uncovered 0 (Lexeme.settled_lexemes text).sound
    · rw [render_lexemes, whole]
    · simpa only [Nat.zero_add, placedTokens] using apart

/-! ### Slices -/

/-- What cuts the lexemes of a text in three cuts the text in three. -/
theorem eq_ofList_of_lexemes {text : String} {front middle back : List Lexeme}
    (whole : lexemes text = front ++ middle ++ back) :
    text = String.ofList
      (Lexeme.render front ++ Lexeme.render middle ++ Lexeme.render back) := by
  rw [← Lexeme.render_append, ← Lexeme.render_append, ← whole, render_lexemes,
    String.ofList_toList]

/-- Two placed tokens cut the lexemes in three: what stands before the first one, what stands from
it to the second one, and what stands behind. -/
private theorem exists_of_getElem?_placedTokens {text : String} {i j : Nat} {p q : Placed}
    (upto : i ≤ j) (first : (placedTokens text)[i]? = some p)
    (last : (placedTokens text)[j]? = some q) :
    ∃ front middle back, lexemes text = front ++ middle ++ back ∧
      (Lexeme.tokens front).length = i ∧ (Lexeme.tokens middle).length = j - i + 1 ∧
      p.start = Lexeme.size front ∧ q.stop = Lexeme.size front + Lexeme.size middle := by
  obtain ⟨front, behind, whole, count, start, _⟩ := exists_of_getElem?_place first
  rw [Nat.zero_add] at start
  -- From the first token on, the second one is the one at `j - i`.
  have further : (place p.start (.token p.token :: behind))[j - i]? = some q := by
    have earlier : (place 0 front).length = i := by
      rw [← List.length_map, map_token_place, count]
    rw [placedTokens, whole, place_append, List.getElem?_append_right (by omega), earlier,
      Nat.zero_add, ← start] at last
    exact last
  obtain ⟨within, back, rest, count', start', stop⟩ := exists_of_getElem?_place further
  refine ⟨front, within ++ [.token q.token], back, ?_, count, ?_, start, ?_⟩
  · rw [whole, rest]
    simp
  · simp [count']
  · rw [stop, start', start]
    simp [Nat.add_assoc]

/-- What is cut out from one token to another reads as the tokens from the one to the other. -/
private theorem placedTokens_extract {text : String} {i j : Nat} {p q : Placed} (upto : i ≤ j)
    (first : (placedTokens text)[i]? = some p) (last : (placedTokens text)[j]? = some q) :
    (placedTokens (String.Pos.Raw.extract text ⟨p.start⟩ ⟨q.stop⟩)).map (·.moved p.start) =
      ((placedTokens text).drop i).take (j - i + 1) := by
  obtain ⟨front, middle, back, whole, count, count', start, stop⟩ :=
    exists_of_getElem?_placedTokens upto first last
  have cut : String.Pos.Raw.extract text ⟨p.start⟩ ⟨q.stop⟩ =
      String.ofList (Lexeme.render middle) := by
    rw [eq_ofList_of_lexemes whole, start, stop, Lexeme.size, Lexeme.size, String.extract_of_valid]
  have settled : Lexeme.Settled middle := by
    have all := Lexeme.settled_lexemes text
    rw [whole] at all
    exact all.left.right
  have read : placedTokens (String.ofList (Lexeme.render middle)) = place 0 middle := by
    rw [placedTokens, Lexeme.lexemes_of_settled settled]
  have lengths (bytes : Nat) (ls : List Lexeme) :
      (place bytes ls).length = (Lexeme.tokens ls).length := by
    rw [← map_token_place bytes, List.length_map]
  rw [cut, read, ← place_add, Nat.zero_add, placedTokens, whole, place_append, place_append,
    List.append_assoc, List.drop_left' (by rw [lengths, count]),
    List.take_left' (by rw [lengths, count']), Nat.zero_add, start]

/-- The tokens tile their text, and a slice from one token to another is read as these tokens. -/
theorem placedTokens_tile (text : String) :
    Tiling text (placedTokens text) ∧
      ∀ i j p q, i ≤ j → (placedTokens text)[i]? = some p → (placedTokens text)[j]? = some q →
        (placedTokens (String.Pos.Raw.extract text ⟨p.start⟩ ⟨q.stop⟩)).map (·.moved p.start) =
          ((placedTokens text).drop i).take (j - i + 1) :=
  ⟨tiling_placedTokens text, fun _ _ _ _ upto first last => placedTokens_extract upto first last⟩

/-- A number that lacks the digits of its exponent is read alike within and without its text. -/
theorem placedTokens_tile_exponent :
    (placedTokens "é.5e+x \x27a")[1]? = some ⟨⟨.number, ".5e+"⟩, 2, 6⟩ ∧
      (placedTokens "é.5e+x \x27a")[2]? = some ⟨⟨.name, "x"⟩, 6, 7⟩ ∧
      (placedTokens (String.Pos.Raw.extract "é.5e+x \x27a" ⟨2⟩ ⟨7⟩)).map (·.moved 2) =
        ((placedTokens "é.5e+x \x27a").drop 1).take 2 := by
  have first : (placedTokens "é.5e+x \x27a")[1]? = some ⟨⟨.number, ".5e+"⟩, 2, 6⟩ := by
    decide +kernel
  have last : (placedTokens "é.5e+x \x27a")[2]? = some ⟨⟨.name, "x"⟩, 6, 7⟩ := by decide +kernel
  exact ⟨first, last, (placedTokens_tile "é.5e+x \x27a").2 1 2 _ _ (by decide) first last⟩

end FormulaFields.Formula
