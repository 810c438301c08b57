import FormulaFields.Proofs.TokenView

/-!
Where the commas of a text stand. A comma is a token of its own or stands in a quoted text, and a
token that nests is a bracket of one character. So a text is its arguments with commas between
them, and a comma inside an argument has a bracket or a quote before it.
-/
namespace FormulaFields.Formula

/-- Tokens of these kinds decide where a text is cut into arguments. -/
def Kind.shapes (k : Kind) : Bool := k == .comma || k.shift != 0

/-- The characters that bring a text out of the level at which commas cut it, or hide them. -/
def shields : List Char := ['(', ')', '[', ']', '\x7b', '\x7d', '\x22', '\x27']

/-! ### Brackets and commas as characters -/

namespace Munch

/-- What such a token becomes is no bracket and no comma. -/
def Shapeless : Munch → Prop
  | .half single _ paired => single.shapes = false ∧ paired.shapes = false
  | m => m.kind.shapes = false

private theorem shapeless_or_whole_of_start (c : Char) :
    (start c).Shapeless ∨ ∃ kind, start c = .whole kind := by
  unfold start
  split
  case h_18 => split_ifs <;> simp [Shapeless, kind, Kind.shapes, Kind.shift]
  all_goals simp [Shapeless, kind, Kind.shapes, Kind.shift]

private theorem shapeless_of_extend? {m longer : Munch} {c : Char} (shapeless : m.Shapeless)
    (grown : m.extend? c = some longer) : longer.Shapeless := by
  cases m with
  | half =>
    simp only [extend?] at grown
    split_ifs at grown
    cases grown
    exact shapeless.2
  | whole => cases grown
  | _ =>
    simp only [extend?] at grown
    split_ifs at grown <;> cases grown <;> rfl

private theorem Shapeless.kind {m : Munch} (shapeless : m.Shapeless) :
    m.kind.shapes = false := by
  cases m with
  | half => exact shapeless.1
  | _ => exact shapeless

/-- Brackets and commas are single characters. -/
private theorem exists_of_shapes {chars : List Char} {m : Munch} (single : ofChars? chars = some m)
    (shapes : m.kind.shapes = true) : ∃ c, chars = [c] ∧ start c = m := by
  cases chars with
  | nil => cases single
  | cons c rest =>
    simp only [ofChars?] at single
    split at single
    · cases single
    rcases shapeless_or_whole_of_start c with shapeless | ⟨kind, first⟩
    · rw [(holds_of_read? shapeless_of_extend? shapeless single).kind] at shapes
      cases shapes
    -- A token that is whole at its first character takes no second one.
    · cases rest with
      | nil => exact ⟨c, rfl, Option.some.inj single⟩
      | cons d more =>
        rw [first] at single
        cases single

private theorem eq_comma_of_start {c : Char} (kind : (start c).kind = .comma) : c = ',' := by
  unfold start at kind
  split at kind
  case h_7 => rfl
  case h_18 => split_ifs at kind <;> cases kind
  all_goals cases kind

private theorem mem_shields_of_start {c : Char} (nests : (start c).kind.shift ≠ 0) :
    c ∈ shields := by
  unfold start at nests
  split at nests
  case h_18 => split_ifs at nests <;> exact absurd rfl nests
  all_goals first | decide | exact absurd rfl nests

theorem chars_of_comma {chars : List Char} {m : Munch} (single : ofChars? chars = some m)
    (comma : m.kind = .comma) : chars = [','] := by
  obtain ⟨c, rfl, rfl⟩ := exists_of_shapes single (by rw [comma]; rfl)
  rw [eq_comma_of_start comma]

theorem chars_of_shift {chars : List Char} {m : Munch} (single : ofChars? chars = some m)
    (nests : m.kind.shift ≠ 0) : ∃ c, chars = [c] ∧ c ∈ shields := by
  obtain ⟨c, rfl, rfl⟩ := exists_of_shapes single (by simp [Kind.shapes, nests])
  exact ⟨c, rfl, mem_shields_of_start nests⟩

/-- A comma is a token of its own, or it is quoted. -/
theorem kind_of_mem_comma {chars : List Char} {m : Munch} (single : ofChars? chars = some m)
    (comma : ',' ∈ chars) : m.kind = .comma ∨ m.kind = .quoted := by
  by_cases quoted : m.kind = .quoted
  · exact Or.inr quoted
  · left
    cases chars with
    | nil => cases comma
    | cons c rest =>
      simp only [ofChars?] at single
      split at single
      · cases single
      have later : ',' ∉ rest :=
        not_mem_of_delimits (proper_start c) single quoted (by decide)
      obtain rfl : ',' = c := (List.mem_cons.mp comma).resolve_right later
      cases rest with
      | nil => exact Option.some.inj single ▸ rfl
      | cons d more => cases single

end Munch

/-! ### Arguments and the commas between them -/

namespace Lexeme

/-- The test at which arguments are cut. -/
abbrev isComma : Lexeme → Bool := passes (·.kind == .comma)

private theorem chars_of_isComma {x : Lexeme} (sound : x.Sound) (comma : x.isComma = true) :
    x.chars = [','] := by
  cases x with
  | blank c => cases comma
  | token t =>
    obtain ⟨m, single, kind⟩ := sound
    exact Munch.chars_of_comma single (kind.trans (by simpa [passes, token?] using comma))

private theorem exists_shield_of_shift {x : Lexeme} (sound : x.Sound) (nests : x.shift ≠ 0) :
    ∃ c ∈ x.chars, c ∈ shields := by
  cases x with
  | blank c => exact absurd rfl nests
  | token t =>
    obtain ⟨m, single, kind⟩ := sound
    obtain ⟨c, whole, shield⟩ := Munch.chars_of_shift single (kind ▸ nests)
    exact ⟨c, by simp [chars, whole], shield⟩

/-- Before a comma inside a lexeme that is none there is a quote. -/
private theorem comma_of_chars {x : Lexeme} (sound : x.Sound) {head tail : List Char}
    (whole : x.chars = head ++ ',' :: tail) :
    x.isComma = true ∨ ∃ c ∈ head, c ∈ shields := by
  cases x with
  | blank c =>
    have blank : Text.isBlank c = true := sound
    have same : ',' ∈ chars (.blank c) := by simp [whole]
    obtain rfl : ',' = c := List.mem_singleton.mp same
    exact absurd blank (by decide)
  | token t =>
    obtain ⟨m, single, kind⟩ := sound
    have whole : t.text.toList = head ++ ',' :: tail := whole
    rcases Munch.kind_of_mem_comma single (by simp [whole]) with comma | quoted
    · exact Or.inl (by simp [passes, token?, ← kind, comma])
    -- A quoted text begins with its quote, which is no comma.
    · obtain ⟨quote, rest, text, symbol, _⟩ := Munch.quoted_of_ofChars? single quoted
      right
      cases head with
      | nil =>
        obtain ⟨rfl, _⟩ := List.cons.inj (text.symm.trans whole)
        exact absurd symbol (by decide)
      | cons c more =>
        obtain ⟨rfl, _⟩ := List.cons.inj (text.symm.trans whole)
        rcases eq_or_eq_of_mem_quotes symbol with rfl | rfl <;>
          exact ⟨_, List.mem_cons_self, by decide⟩

/-- A text is what stands between its outer commas, with commas between. -/
theorem render_eq_intercalate {ls : List Lexeme} (sound : ∀ x ∈ ls, x.Sound) (depth : Int) :
    render ls = [','].intercalate ((Nesting.pieces shift isComma depth ls).map render) := by
  induction ls generalizing depth with
  | nil => rfl
  | cons x rest ih =>
    simp only [List.mem_cons, forall_eq_or_imp] at sound
    rw [Nesting.pieces]
    split
    next separator =>
      have comma : x.isComma = true := by
        simp only [Nesting.separates, Bool.and_eq_true] at separator
        exact separator.2
      obtain ⟨first, more, cut⟩ :=
        Nesting.exists_pieces_eq_cons shift isComma depth rest
      rw [render_cons, ih sound.2 depth, chars_of_isComma sound.1 comma, cut]
      rfl
    · obtain ⟨first, more, cut⟩ :=
        Nesting.exists_pieces_eq_cons shift isComma (depth + shift x) rest
      rw [render_cons, ih sound.2 (depth + shift x), cut]
      cases more <;> simp

private theorem append_eq_append_cons {first second head tail : List Char} {c : Char}
    (whole : first ++ second = head ++ c :: tail) :
    (∃ front, head = first ++ front ∧ second = front ++ c :: tail) ∨
      ∃ back, first = head ++ c :: back := by
  rcases List.append_eq_append_iff.mp whole with behind | ⟨back, rfl, rest⟩
  · exact Or.inl behind
  · rcases List.cons_eq_append_iff.mp rest with ⟨rfl, rest⟩ | ⟨back, rfl, _⟩
    · exact Or.inl ⟨[], by simp, rest.symm⟩
    · exact Or.inr ⟨back, rfl⟩

/-- Where commas do not cut, a comma has a bracket or a quote before it, or the text begins inside
brackets. -/
private theorem exists_shield {ls : List Lexeme} (sound : ∀ x ∈ ls, x.Sound) {depth : Int}
    (uncut : Nesting.Uncut shift isComma depth ls) {head tail : List Char}
    (whole : render ls = head ++ ',' :: tail) :
    depth ≠ 0 ∨ ∃ c ∈ head, c ∈ shields := by
  induction ls generalizing depth head with
  | nil => cases head <;> cases whole
  | cons x rest ih =>
    simp only [List.mem_cons, forall_eq_or_imp] at sound
    obtain ⟨outside, uncut⟩ := Nesting.uncut_cons.mp uncut
    rcases append_eq_append_cons whole with ⟨front, rfl, later⟩ | ⟨back, text⟩
    · rcases ih sound.2 uncut later with inside | ⟨c, member, shield⟩
      -- The comma stands deep, so the text begins inside brackets or `x` is one.
      · by_cases nests : x.shift = 0
        · rw [nests, Int.add_zero] at inside
          exact Or.inl inside
        · obtain ⟨c, member, shield⟩ := exists_shield_of_shift sound.1 nests
          exact Or.inr ⟨c, List.mem_append_left _ member, shield⟩
      · exact Or.inr ⟨c, List.mem_append_right _ member, shield⟩
    · exact (comma_of_chars sound.1 text).imp_left outside

/-- A comma inside an argument has a bracket or a quote before it. -/
theorem exists_shield_of_mem_pieces {ls group : List Lexeme} (sound : ∀ x ∈ ls, x.Sound)
    (member : group ∈ Nesting.pieces shift isComma 0 ls) {head tail : List Char}
    (whole : render group = head ++ ',' :: tail) : ∃ c ∈ head, c ∈ shields := by
  obtain ⟨before, after, parts, _⟩ := Nesting.exists_of_mem_pieces shift isComma member
  have inner : ∀ x ∈ group, x.Sound := fun x inside => sound x (by simp [parts, inside])
  have flat : ∀ x : Lexeme, x.isComma = true → x.shift = 0 := by
    rintro (c | ⟨kind, text⟩) comma
    · rfl
    · obtain rfl : kind = .comma := by simpa [passes, token?] using comma
      rfl
  have uncut : Nesting.Uncut shift isComma 0 group :=
    Nesting.uncut_of_pieces flat (Nesting.pieces_of_mem_pieces shift isComma member)
  exact (exists_shield inner uncut whole).resolve_left fun inside => inside rfl

end Lexeme

theorem not_blank_of_mem_shields {c : Char} (shield : c ∈ shields) : Text.isBlank c = false := by
  have inked : shields.all (!Text.isBlank ·) = true := by decide
  simpa using List.all_eq_true.mp inked c shield

/-- An argument shows a character, and it has no blanks around it. -/
theorem trimmed_of_mem_splitArguments {text argument : String}
    (member : argument ∈ splitArguments text) :
    argument.toList ≠ [] ∧ Text.trim argument.toList = argument.toList := by
  simp only [splitArguments, splitText, List.mem_filter, List.mem_map] at member
  obtain ⟨⟨group, _, rfl⟩, shown⟩ := member
  exact ⟨by simpa using shown, by rw [Lexeme.trimmedText, String.toList_ofList, trim_trim]⟩

/-- A comma inside an argument has a bracket or a quote before it. -/
theorem exists_shield_of_mem_splitArguments {text argument : String}
    (member : argument ∈ splitArguments text) {head tail : List Char}
    (whole : argument.toList = head ++ ',' :: tail) : ∃ c ∈ head, c ∈ shields := by
  simp only [splitArguments, splitText, List.mem_filter, List.mem_map] at member
  obtain ⟨⟨group, piece, rfl⟩, _⟩ := member
  -- The bracket or quote is no blank, so it is not among what was trimmed off.
  obtain ⟨before, after, raw, front, _⟩ := exists_trim (Lexeme.render group)
  rw [Lexeme.trimmedText, String.toList_ofList] at whole
  have behind : Lexeme.render group = (before ++ head) ++ ',' :: (tail ++ after) := by
    rw [raw, whole]
    simp
  obtain ⟨c, inside, shield⟩ := Lexeme.exists_shield_of_mem_pieces
    (Lexeme.settled_lexemes text).sound piece behind
  have inked := not_blank_of_mem_shields shield
  rcases List.mem_append.mp inside with blank | later
  · simp [front c blank] at inked
  · exact ⟨c, later, shield⟩

end FormulaFields.Formula
