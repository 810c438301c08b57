import FormulaFields.Json.Document
import FormulaFields.Json.Printer

/-!
Reading back what was printed. A text spells tokens if it is read as these tokens wherever it
stands; a value has tokens whatever the layout in which it is printed, and from them the builder
makes the value again. Main statements: `read?_compact` and `read?_indented`.
-/
namespace FormulaFields.Json

open Text (Transducer digitValue?)

/-! ### Strings -/

private theorem digitValue?_hexDigit : ∀ n < 16, digitValue? (hexDigit n) = some n := by decide

/-- What is written for a character in a string is read as its code point. -/
private theorem run_quoted_escape (c : Char) (codes : List Nat) (rest : List Char) :
    tokenReader.run (.quoted codes) (escape c ++ rest) =
      tokenReader.run (.quoted (c.toNat :: codes)) rest := by
  unfold escape
  -- The characters with an escape of their own, each read back by name.
  iterate 7
    split
    next named => rw [beq_iff_eq.mp named]; rfl
  next noQuote noBackslash _ _ _ _ _ =>
    split
    next control =>
      have high := digitValue?_hexDigit (c.toNat / 16) (by omega)
      have low := digitValue?_hexDigit (c.toNat % 16) (by omega)
      have zero : digitValue? '0' = some 0 := by decide
      have code : 16 * (c.toNat / 16) + c.toNat % 16 = c.toNat := by omega
      simp [Transducer.run, tokenReader, ReadState.step, high, low, zero, code]
    next visible =>
      simp [Transducer.run, tokenReader, ReadState.step, noQuote, noBackslash, visible]

private theorem run_quoted_escapes (text : List Char) (codes : List Nat) (rest : List Char) :
    tokenReader.run (.quoted codes) (text.flatMap escape ++ rest) =
      tokenReader.run (.quoted ((text.map Char.toNat).reverse ++ codes)) rest := by
  induction text generalizing codes with
  | nil => rfl
  | cons c text ih =>
    rw [List.flatMap_cons, List.append_assoc, run_quoted_escape, ih]
    simp

private theorem not_surrogate (c : Char) :
    isHighSurrogate c.toNat = false ∧ isLowSurrogate c.toNat = false := by
  have valid : c.toNat < 0xD800 ∨ 0xDFFF < c.toNat ∧ c.toNat < 0x110000 := c.valid
  simp only [isHighSurrogate, isLowSurrogate, Bool.and_eq_false_iff, decide_eq_false_iff_not]
  omega

/-- The code points of a text denote it: none of them is a surrogate. -/
theorem textOfCodes?_map_toNat (text : List Char) :
    textOfCodes? (text.map Char.toNat) = some text := by
  induction text with
  | nil => rfl
  | cons c text ih =>
    obtain ⟨high, low⟩ := not_surrogate c
    cases text with
    | nil => simp [textOfCodes?, high, low, Char.ofNat_toNat]
    | cons next rest =>
      simp only [List.map_cons] at ih
      simp [textOfCodes?, high, low, ih, Char.ofNat_toNat]

/-! ### Texts and their tokens -/

/-- Nothing that could go on in a word comes first. -/
def EndsWord (text : List Char) : Prop := ∀ c ∈ text.head?, isWordPart c = false

theorem isSpace_eq_false {c : Char} (part : isWordPart c = true) : isSpace c = false := by
  rw [Bool.eq_false_iff]
  intro space
  simp only [isSpace, Bool.or_eq_true, beq_iff_eq] at space
  rcases space with ((rfl | rfl) | rfl) | rfl <;> exact absurd part (by decide)

theorem step_between_space {c : Char} (space : isSpace c = true) :
    tokenReader.step .between c = (.between, []) := by
  simp [tokenReader, ReadState.step, ReadState.stepBetween, space]

/-- A word is a token as soon as something else comes. -/
theorem run_word_end {rest : List Char} (ended : EndsWord rest) (seen : List Char) :
    tokenReader.run (.word seen) rest =
      wordToken seen.reverse :: tokenReader.run .between rest := by
  cases rest with
  | nil => rfl
  | cons c rest =>
    have apart : isWordPart c = false := ended c rfl
    simp [Transducer.run, tokenReader, ReadState.step, apart]

/-- The text is read as the tokens wherever it stands, if what comes next ends a word. -/
def Spells (text : List Char) (ts : List Token) : Prop :=
  ∀ rest, EndsWord rest →
    tokenReader.run .between (text ++ rest) = ts ++ tokenReader.run .between rest

/-- The character is a token by itself. -/
structure Marks (c : Char) (t : Token) : Prop where
  apart : isWordPart c = false
  step : tokenReader.step .between c = (.between, [t])

namespace Marks

theorem comma : Marks ',' .comma := ⟨rfl, rfl⟩

theorem colon : Marks ':' .colon := ⟨rfl, rfl⟩

theorem openArray : Marks '[' .openArray := ⟨rfl, rfl⟩

theorem closeArray : Marks ']' .closeArray := ⟨rfl, rfl⟩

theorem openObject : Marks '\x7b' .openObject := ⟨rfl, rfl⟩

theorem closeObject : Marks '\x7d' .closeObject := ⟨rfl, rfl⟩

end Marks

namespace Spells

variable {text : List Char} {ts : List Token}

theorem tokens_eq (spelled : Spells text ts) : tokens text = ts := by
  have read := spelled [] nofun
  simpa [tokens, Transducer.run, tokenReader, ReadState.finish] using read

theorem nil : Spells [] [] := fun _ _ => rfl

theorem cons_mark {c : Char} {t : Token} (mark : Marks c t) (behind : Spells text ts) :
    Spells (c :: text) (t :: ts) := by
  intro rest ended
  rw [List.cons_append, Transducer.run, mark.step, behind rest ended]
  rfl

theorem append {later : List Char} {us : List Token} (before : Spells text ts)
    (filled : later ≠ []) (ended : EndsWord later) (behind : Spells later us) :
    Spells (text ++ later) (ts ++ us) := by
  intro rest restEnded
  have boundary : EndsWord (later ++ rest) := by
    obtain ⟨c, more, rfl⟩ := List.exists_cons_of_ne_nil filled
    exact ended
  rw [List.append_assoc, before _ boundary, behind rest restEnded, List.append_assoc]

theorem append_mark {c : Char} {t : Token} {later : List Char} {us : List Token}
    (before : Spells text ts) (mark : Marks c t) (behind : Spells later us) :
    Spells (text ++ c :: later) (ts ++ t :: us) :=
  before.append (by simp) (by simpa [EndsWord] using mark.apart) (behind.cons_mark mark)

theorem blank {c : Char} (space : isSpace c = true) (behind : Spells text ts) :
    Spells (c :: text) ts := by
  intro rest ended
  rw [List.cons_append, Transducer.run, step_between_space space, behind rest ended]
  rfl

theorem newline (level : Nat) (behind : Spells text ts) :
    Spells (Value.newline level ++ text) ts := by
  have indented : ∀ n, Spells (List.replicate n ' ' ++ text) ts := by
    intro n
    induction n with
    | zero => exact behind
    | succ n ih => exact ih.blank rfl
  exact (indented _).blank rfl

theorem quoted (s : String) : Spells (quote s) [.string (some s)] := by
  intro rest _
  have opened : tokenReader.step .between '\x22' = (.quoted [], []) := rfl
  have closed : tokenReader.step (.quoted ((s.toList.map Char.toNat).reverse ++ [])) '\x22' =
      (.between, [.string (some s)]) := by
    simp [tokenReader, ReadState.step, textOfCodes?_map_toNat]
  rw [quote, List.cons_append, List.cons_append, List.append_assoc, Transducer.run, opened,
    run_quoted_escapes, List.singleton_append, Transducer.run, closed]
  rfl

/-! ### Words -/

private theorem run_word {word rest : List Char} (parts : ∀ c ∈ word, isWordPart c = true)
    (ended : EndsWord rest) (seen : List Char) :
    tokenReader.run (.word seen) (word ++ rest) =
      wordToken (seen.reverse ++ word) :: tokenReader.run .between rest := by
  induction word generalizing seen with
  | nil => rw [List.append_nil, List.nil_append, run_word_end ended]
  | cons c word ih =>
    obtain ⟨part, others⟩ := List.forall_mem_cons.mp parts
    have next := ih others (c :: seen)
    simp only [List.cons_append, Transducer.run]
    simpa [tokenReader, ReadState.step, part] using next

theorem word {word : List Char} (filled : word ≠ []) (parts : word.all isWordPart = true) :
    Spells word [wordToken word] := by
  intro rest ended
  cases word with
  | nil => contradiction
  | cons c word =>
    obtain ⟨part, others⟩ := List.forall_mem_cons.mp (List.all_eq_true.mp parts)
    have started : tokenReader.step .between c = (.word [c], []) := by
      simp [tokenReader, ReadState.step, ReadState.stepBetween, isSpace_eq_false part, part]
    rw [List.cons_append, Transducer.run, started]
    exact run_word others ended [c]

end Spells

/-! ### Tokens of a value -/

namespace Value

mutual

def tokens : Value → List Token
  | .array items => .openArray :: itemTokens items ++ [.closeArray]
  | .object members => .openObject :: memberTokens members ++ [.closeObject]
  | .string s => [.string s]
  | v => [.scalar v]

def itemTokens : List Value → List Token
  | [] => []
  | [v] => tokens v
  | v :: rest => tokens v ++ .comma :: itemTokens rest

def memberTokens : List (Option String × Value) → List Token
  | [] => []
  | [(key, v)] => .string key :: .colon :: tokens v
  | (key, v) :: rest => .string key :: .colon :: tokens v ++ .comma :: memberTokens rest

end

mutual

/-- Every string in the value, keys included, denotes a text, and every number is written as it is
read. -/
def isLegible : Value → Bool
  | .number n => n.chars.all isWordPart && Number.ofChars? n.chars == some n
  | .string s => s.isSome
  | .array items => areLegibleItems items
  | .object members => areLegibleMembers members
  | _ => true

def areLegibleItems : List Value → Bool
  | [] => true
  | v :: rest => isLegible v && areLegibleItems rest

def areLegibleMembers : List (Option String × Value) → Bool
  | [] => true
  | (key, v) :: rest => key.isSome && isLegible v && areLegibleMembers rest

end

theorem areLegibleItems_iff {items : List Value} :
    areLegibleItems items = true ↔ ∀ v ∈ items, v.isLegible = true := by
  induction items with
  | nil => simp [areLegibleItems]
  | cons v rest ih => simp [areLegibleItems, ih]

theorem areLegibleMembers_iff {members : List (Option String × Value)} :
    areLegibleMembers members = true ↔
      ∀ member ∈ members, member.1.isSome = true ∧ member.2.isLegible = true := by
  induction members with
  | nil => simp [areLegibleMembers]
  | cons member rest ih => simp [areLegibleMembers, ih]

theorem itemTokens_cons_cons (v next : Value) (rest : List Value) :
    itemTokens (v :: next :: rest) = tokens v ++ .comma :: itemTokens (next :: rest) := rfl

theorem memberTokens_cons_cons (key : Option String) (v : Value)
    (next : Option String × Value) (rest : List (Option String × Value)) :
    memberTokens ((key, v) :: next :: rest) =
      .string key :: .colon :: tokens v ++ .comma :: memberTokens (next :: rest) := rfl

/-! ### Spelling -/

theorem spells_quoteKey {key : Option String} (legible : key.isSome = true) :
    Spells (quoteKey key) [.string key] := by
  obtain ⟨s, rfl⟩ := Option.isSome_iff_exists.mp legible
  exact .quoted s

private theorem spells_number {n : Number} (legible : (Value.number n).isLegible = true) :
    Spells n.chars [.scalar (.number n)] := by
  obtain ⟨parts, read⟩ : n.chars.all isWordPart = true ∧ Number.ofChars? n.chars = some n := by
    simpa only [isLegible, Bool.and_eq_true, beq_iff_eq] using legible
  -- No word that stands for another scalar is a number.
  have other (word : String) (refused : Number.ofChars? word.toList = none) :
      n.chars ≠ word.toList := by
    intro same
    rw [same, refused] at read
    cases read
  have filled : n.chars ≠ [] := other "" rfl
  have token : wordToken n.chars = .scalar (.number n) := by
    rw [wordToken, if_neg (other _ rfl), if_neg (other _ rfl), if_neg (other _ rfl), read]
  exact token ▸ Spells.word filled parts

private theorem spells_null : Spells (scalarChars .null) [.scalar .null] :=
  .word (by decide) (by decide)

private theorem spells_boolean (b : Bool) :
    Spells (scalarChars (.boolean b)) [.scalar (.boolean b)] := by
  cases b <;> exact .word (by decide) (by decide)

mutual

theorem spells_compactChars : (v : Value) → v.isLegible = true → Spells (compactChars v) v.tokens
  | .null, _ => spells_null
  | .boolean b, _ => spells_boolean b
  | .number _, legible => spells_number legible
  | .string _, legible => spells_quoteKey legible
  | .array items, legible =>
    ((spells_compactItems items legible).append_mark .closeArray .nil).cons_mark .openArray
  | .object members, legible =>
    ((spells_compactMembers members legible).append_mark .closeObject .nil).cons_mark .openObject

theorem spells_compactItems : (items : List Value) → areLegibleItems items = true →
    Spells (compactItems items) (itemTokens items)
  | [], _ => .nil
  | [v], legible => spells_compactChars v (areLegibleItems_iff.mp legible v (by simp))
  | v :: next :: rest, legible => by
    obtain ⟨head, tail⟩ := List.forall_mem_cons.mp (areLegibleItems_iff.mp legible)
    exact (spells_compactChars v head).append_mark .comma
      (spells_compactItems (next :: rest) (areLegibleItems_iff.mpr tail))

theorem spells_compactMembers : (members : List (Option String × Value)) →
    areLegibleMembers members = true → Spells (compactMembers members) (memberTokens members)
  | [], _ => .nil
  | [(key, v)], legible => by
    obtain ⟨named, shown⟩ := areLegibleMembers_iff.mp legible (key, v) (by simp)
    exact (spells_quoteKey named).append_mark .colon (spells_compactChars v shown)
  | (key, v) :: next :: rest, legible => by
    obtain ⟨⟨named, shown⟩, tail⟩ := List.forall_mem_cons.mp (areLegibleMembers_iff.mp legible)
    have member := (spells_quoteKey named).append_mark .colon (spells_compactChars v shown)
    exact member.append_mark .comma
      (spells_compactMembers (next :: rest) (areLegibleMembers_iff.mpr tail))

end

/-- The closing mark of an array or object stands on a line of its own. -/
private theorem spells_closing {level : Nat} {text : List Char} {ts : List Token} {c : Char}
    {t : Token} (spelled : Spells text ts) (mark : Marks c t) :
    Spells (text ++ newline level ++ [c]) (ts ++ [t]) := by
  rw [List.append_assoc]
  have closing : Spells (newline level ++ [c]) [t] := (Spells.nil.cons_mark mark).newline level
  exact spelled.append (by simp [newline]) (by simp [EndsWord, newline]; decide) closing

mutual

theorem spells_indentedChars (level : Nat) : (v : Value) → v.isLegible = true →
    Spells (indentedChars level v) v.tokens
  | .null, _ => spells_null
  | .boolean b, _ => spells_boolean b
  | .number _, legible => spells_number legible
  | .string _, legible => spells_quoteKey legible
  | .array [], _ => (Spells.nil.cons_mark .closeArray).cons_mark .openArray
  | .array (v :: rest), legible =>
    (spells_closing (spells_indentedItems (level + 1) (v :: rest) legible) .closeArray).cons_mark
      .openArray
  | .object [], _ => (Spells.nil.cons_mark .closeObject).cons_mark .openObject
  | .object (member :: rest), legible =>
    (spells_closing (spells_indentedMembers (level + 1) (member :: rest) legible)
      .closeObject).cons_mark .openObject

theorem spells_indentedItems (level : Nat) : (items : List Value) →
    areLegibleItems items = true → Spells (indentedItems level items) (itemTokens items)
  | [], _ => .nil
  | [v], legible =>
    (spells_indentedChars level v (areLegibleItems_iff.mp legible v (by simp))).newline level
  | v :: next :: rest, legible => by
    obtain ⟨head, tail⟩ := List.forall_mem_cons.mp (areLegibleItems_iff.mp legible)
    exact ((spells_indentedChars level v head).newline level).append_mark .comma
      (spells_indentedItems level (next :: rest) (areLegibleItems_iff.mpr tail))

theorem spells_indentedMembers (level : Nat) : (members : List (Option String × Value)) →
    areLegibleMembers members = true → Spells (indentedMembers level members) (memberTokens members)
  | [], _ => .nil
  | [(key, v)], legible => by
    obtain ⟨named, shown⟩ := areLegibleMembers_iff.mp legible (key, v) (by simp)
    have value : Spells (' ' :: indentedChars level v) v.tokens :=
      (spells_indentedChars level v shown).blank rfl
    exact ((spells_quoteKey named).newline level).append_mark .colon value
  | (key, v) :: next :: rest, legible => by
    obtain ⟨⟨named, shown⟩, tail⟩ := List.forall_mem_cons.mp (areLegibleMembers_iff.mp legible)
    have value : Spells (' ' :: indentedChars level v) v.tokens :=
      (spells_indentedChars level v shown).blank rfl
    have member := ((spells_quoteKey named).newline level).append_mark .colon value
    exact member.append_mark .comma
      (spells_indentedMembers level (next :: rest) (areLegibleMembers_iff.mpr tail))

end

end Value

namespace BuildState

/-! ### Building -/

mutual

theorem foldl_tokens : (v : Value) → (stack : List Frame) → (first : Bool) →
    v.tokens.foldl step (.value stack first) = .complete stack v
  | .null, _, _ => rfl
  | .boolean _, _, _ => rfl
  | .number _, _, _ => rfl
  | .string _, _, _ => rfl
  | .array items, stack, first => by
    cases items with
    | nil => rfl
    | cons v rest =>
      have opened : (BuildState.value stack first).step .openArray =
          .value (.items [] :: stack) true := rfl
      rw [Value.tokens, List.cons_append, List.foldl_cons, opened]
      exact foldl_itemTokens (v :: rest) (by simp) stack [] true
  | .object members, stack, first => by
    cases members with
    | nil => rfl
    | cons member rest =>
      have opened : (BuildState.value stack first).step .openObject = .key stack [] true := rfl
      rw [Value.tokens, List.cons_append, List.foldl_cons, opened]
      exact foldl_memberTokens (member :: rest) (by simp) stack [] true

theorem foldl_itemTokens : (items : List Value) → items ≠ [] → (stack : List Frame) →
    (before : List Value) → (first : Bool) →
    (Value.itemTokens items ++ [Token.closeArray]).foldl step
        (.value (.items before :: stack) first) =
      .complete stack (.array (before.reverse ++ items))
  | [], filled, _, _, _ => absurd rfl filled
  | [v], _, stack, before, first => by
    rw [Value.itemTokens, List.foldl_append, foldl_tokens]
    simp [step]
  | v :: next :: rest, _, stack, before, first => by
    have others := foldl_itemTokens (next :: rest) (by simp) stack (v :: before) false
    rw [Value.itemTokens_cons_cons, List.append_assoc, List.foldl_append, foldl_tokens]
    simpa [step] using others

theorem foldl_memberTokens : (members : List (Option String × Value)) → members ≠ [] →
    (stack : List Frame) → (before : List (Option String × Value)) → (first : Bool) →
    (Value.memberTokens members ++ [Token.closeObject]).foldl step (.key stack before first) =
      .complete stack (.object (before.reverse ++ members))
  | [], filled, _, _, _ => absurd rfl filled
  | [(name, v)], _, stack, before, first => by
    have value := foldl_tokens v (.members before name :: stack) false
    simp [Value.memberTokens, step, value]
  | (name, v) :: next :: rest, _, stack, before, first => by
    have value := foldl_tokens v (.members before name :: stack) false
    have others := foldl_memberTokens (next :: rest) (by simp) stack ((name, v) :: before) false
    rw [Value.memberTokens_cons_cons]
    simpa [step, value] using others

end

end BuildState

theorem read?_compact {v : Value} (legible : v.isLegible = true) : read? v.compact = some v := by
  have spelled := (Value.spells_compactChars v legible).tokens_eq
  rw [read?, Value.compact, String.toList_ofList, spelled, ofTokens?, BuildState.foldl_tokens]
  rfl

/-- An indented value may end its line. -/
theorem read?_indented {v : Value} (legible : v.isLegible = true) :
    read? (v.indented ++ "\n") = some v := by
  have lineEnd : Spells ['\n'] [] := Spells.nil.blank rfl
  have spelled := ((Value.spells_indentedChars 0 v legible).append (by simp)
    (by simp [EndsWord, isWordPart]) lineEnd).tokens_eq
  have chars : (v.indented ++ "\n").toList = Value.indentedChars 0 v ++ ['\n'] := by
    simp [Value.indented]
  rw [read?, chars, spelled, List.append_nil, ofTokens?, BuildState.foldl_tokens]
  rfl

end FormulaFields.Json
