import FormulaFields.Proofs.Munch

/-!
What is cut out of a text between two of its tokens reads as the tokens it was cut out with. A list
of lexemes is settled when each lexeme stands for itself and none would take the character that
follows it. The reader makes settled lists and makes them of nothing else, and any part of a settled
list is settled; so a slice of a text is read as the same slice of its lexemes.
-/
namespace FormulaFields.Formula

open Text (Transducer isBlank)

namespace Lexeme

/-- The reader makes this lexeme of its characters. -/
def Sound : Lexeme → Prop
  | .blank c => isBlank c = true
  | .token t => ∃ m, Munch.ofChars? t.text.toList = some m ∧ m.kind = t.kind

/-- The lexeme does not take `c` when it follows. -/
def EndsAt (c : Char) : Lexeme → Prop
  | .blank _ => True
  | .token t => ∀ m, Munch.ofChars? t.text.toList = some m → m.extend? c = none

instance (c : Char) : DecidablePred (EndsAt c)
  | .blank _ => isTrue trivial
  | .token t => inferInstanceAs (Decidable (∀ m ∈ Munch.ofChars? t.text.toList, m.extend? c = none))

/-- A quoted text that is never closed. -/
def IsOpen : Lexeme → Prop
  | .blank _ => False
  | .token t => ∃ m, Munch.ofChars? t.text.toList = some m ∧ m.IsOpen

instance : DecidablePred IsOpen
  | .blank _ => isFalse id
  | .token t => inferInstanceAs (Decidable (∃ m ∈ Munch.ofChars? t.text.toList, m.IsOpen))

/-- Lexemes as the reader makes them. -/
def Settled : List Lexeme → Prop
  | [] => True
  | x :: rest => x.Sound ∧ (∀ c, (render rest).head? = some c → x.EndsAt c) ∧ Settled rest

@[simp] theorem render_nil : render [] = [] := rfl

@[simp] theorem render_cons (x : Lexeme) (rest : List Lexeme) :
    render (x :: rest) = x.chars ++ render rest := rfl

@[simp] theorem render_append (first second : List Lexeme) :
    render (first ++ second) = render first ++ render second := List.flatMap_append

@[simp] theorem tokens_nil : tokens [] = [] := rfl

@[simp] theorem tokens_blank (c : Char) (rest : List Lexeme) :
    tokens (.blank c :: rest) = tokens rest := rfl

@[simp] theorem tokens_token (t : Token) (rest : List Lexeme) :
    tokens (.token t :: rest) = t :: tokens rest := rfl

@[simp] theorem tokens_append (first second : List Lexeme) :
    tokens (first ++ second) = tokens first ++ tokens second := List.filterMap_append

theorem mem_tokens {t : Token} {ls : List Lexeme} : t ∈ tokens ls ↔ .token t ∈ ls := by
  rw [tokens, List.mem_filterMap]
  constructor
  · rintro ⟨x, member, seen⟩
    cases x with
    | blank c => cases seen
    | token u =>
      cases seen
      exact member
  · exact fun member => ⟨_, member, rfl⟩

theorem Sound.chars_ne_nil {x : Lexeme} (sound : x.Sound) : x.chars ≠ [] := by
  cases x with
  | blank c => nofun
  | token t =>
    obtain ⟨m, single, _⟩ := sound
    intro empty
    -- Nothing begins a token without a character.
    rw [show t.text.toList = [] from empty] at single
    cases single

/-! ### Settled lists are read as themselves -/

theorem run_read {m longer : Munch} {chars : List Char}
    (grown : m.read? chars = some longer) (seen rest : List Char) :
    reader.run (some ⟨m, seen⟩) (chars ++ rest) =
      reader.run (some ⟨longer, chars.reverse ++ seen⟩) rest := by
  induction chars generalizing m seen with
  | nil => cases grown; rfl
  | cons c more ih =>
    obtain ⟨next, one, further⟩ := Option.bind_eq_some_iff.mp grown
    have stepped : reader.step (some ⟨m, seen⟩) c = (some ⟨next, c :: seen⟩, []) := by
      simp [reader, step, Growing.extend?, one]
    rw [List.cons_append, Transducer.run, stepped, List.nil_append, ih further]
    simp

theorem run_ofChars? {m : Munch} {chars : List Char} (single : Munch.ofChars? chars = some m)
    (rest : List Char) :
    reader.run none (chars ++ rest) = reader.run (some ⟨m, chars.reverse⟩) rest := by
  cases chars with
  | nil => cases single
  | cons c more =>
    rw [Munch.ofChars?] at single
    split at single
    · cases single
    next inked =>
      have stepped : reader.step none c = (some (Growing.start c), []) := by
        simp [reader, step, inked]
      rw [List.cons_append, Transducer.run, stepped, Growing.start, List.nil_append,
        run_read single, List.reverse_cons]

theorem run_end {m : Munch} {rest : List Char} (seen : List Char)
    (ends : ∀ c, rest.head? = some c → m.extend? c = none) :
    reader.run (some ⟨m, seen⟩) rest =
      .token ⟨m.kind, String.ofList seen.reverse⟩ :: reader.run none rest := by
  cases rest with
  | nil => rfl
  | cons c more =>
    have stuck := ends c rfl
    simp only [Transducer.run, reader, step, Option.bind_some, Growing.extend?, stuck,
      Option.map_none, Option.bind_none, Option.map_some, Option.toList_some, Option.toList_none,
      Growing.token]
    split <;> rfl

theorem run_render {ls : List Lexeme} (settled : Settled ls) :
    reader.run none (render ls) = ls := by
  induction ls with
  | nil => rfl
  | cons x rest ih =>
    obtain ⟨sound, ends, settled⟩ := settled
    cases x with
    | blank c =>
      have blank : isBlank c = true := sound
      have stepped : reader.step none c = (none, [.blank c]) := by simp [reader, step, blank]
      rw [render_cons, chars, List.singleton_append, Transducer.run, stepped, ih settled]
      rfl
    | token t =>
      obtain ⟨m, single, kind⟩ := sound
      -- The token takes its own characters and ends in front of what is behind it.
      have stop : ∀ c, (render rest).head? = some c → m.extend? c = none :=
        fun c following => ends c following m single
      rw [render_cons, chars, run_ofChars? single, run_end _ stop, ih settled, kind]
      simp

/-- A settled list is what the reader makes of its text. -/
theorem lexemes_of_settled {ls : List Lexeme} (settled : Settled ls) :
    lexemes (String.ofList (render ls)) = ls := by
  rw [lexemes, String.toList_ofList, run_render settled]

/-! ### The reader makes settled lists -/

private theorem settled_run (text : List Char) :
    Settled (reader.run none text) ∧
      ∀ g : Growing, Munch.ofChars? g.seen.reverse = some g.munch →
        Settled (reader.run (some g) text) := by
  induction text with
  | nil =>
    refine ⟨trivial, fun g grown => ⟨⟨g.munch, ?_, rfl⟩, nofun, trivial⟩⟩
    simpa [Growing.token] using grown
  | cons c rest ih =>
    obtain ⟨fresh, growing⟩ := ih
    -- What stands behind a token that has ended: a blank, or a token that begins with `c`.
    have behind : Settled (reader.run none (c :: rest)) := by
      rw [Transducer.run]
      by_cases blank : isBlank c = true
      · have stepped : reader.step none c = (none, [.blank c]) := by simp [reader, step, blank]
        rw [stepped]
        exact ⟨blank, fun _ _ => trivial, fresh⟩
      · have stepped : reader.step none c = (some (Growing.start c), []) := by
          simp [reader, step, blank]
        rw [stepped]
        apply growing
        simp [Growing.start, Munch.ofChars?, blank, Munch.read?]
    refine ⟨behind, fun g grown => ?_⟩
    -- Either the growing token takes `c`, or it ends and stands before what was just settled.
    cases next : g.munch.extend? c with
    | some longer =>
      have stepped : reader.step (some g) c = (some ⟨longer, c :: g.seen⟩, []) := by
        simp [reader, step, Growing.extend?, next]
      rw [Transducer.run, stepped]
      apply growing
      simpa using Munch.ofChars?_append_singleton grown next
    | none =>
      have text : g.seen.reverse = (String.ofList g.seen.reverse).toList := by simp
      have stop : ∀ d, (c :: rest).head? = some d → g.munch.extend? d = none := by
        rintro d ⟨⟩
        exact next
      rw [show (some g) = some ⟨g.munch, g.seen⟩ from rfl, run_end _ stop]
      refine ⟨⟨g.munch, text ▸ grown, rfl⟩, fun d following m single => ?_, behind⟩
      rw [render_run] at following
      rw [← text, grown] at single
      exact Option.some.inj single ▸ stop d following

theorem settled_lexemes (text : String) : Settled (lexemes text) := (settled_run text.toList).1

/-! ### Parts of settled lists -/

theorem Settled.right {first second : List Lexeme} (settled : Settled (first ++ second)) :
    Settled second := by
  induction first with
  | nil => exact settled
  | cons x rest ih => exact ih settled.2.2

theorem Settled.left {first second : List Lexeme} (settled : Settled (first ++ second)) :
    Settled first := by
  induction first with
  | nil => trivial
  | cons x rest ih =>
    rw [List.cons_append] at settled
    obtain ⟨sound, ends, settled⟩ := settled
    refine ⟨sound, fun c following => ends c ?_, ih settled⟩
    rw [render_append, List.head?_append, following]
    rfl

theorem Settled.append {first second : List Lexeme} (left : Settled first)
    (right : Settled second)
    (ends : ∀ x ∈ first.getLast?, ∀ c, (render second).head? = some c → x.EndsAt c) :
    Settled (first ++ second) := by
  induction first with
  | nil => exact right
  | cons x rest ih =>
    obtain ⟨sound, within, settled⟩ := left
    cases rest with
    | nil => exact ⟨sound, ends x rfl, right⟩
    | cons y more =>
      rw [List.cons_append]
      refine ⟨sound, fun c following => within c ?_, ih settled ends⟩
      -- The first character behind `x` is the first of `y`, with or without the second list.
      obtain ⟨d, tail, inked⟩ := List.exists_cons_of_ne_nil settled.1.chars_ne_nil
      rw [List.cons_append, render_cons, inked] at following
      rw [render_cons, inked]
      exact following

theorem Settled.ends {first second : List Lexeme} (settled : Settled (first ++ second)) :
    ∀ x ∈ first.getLast?, ∀ c, (render second).head? = some c → x.EndsAt c := by
  induction first with
  | nil => nofun
  | cons x rest ih =>
    cases rest with
    | nil =>
      rintro y ⟨⟩
      exact settled.2.1
    | cons y more => exact ih settled.2.2

theorem Settled.sound {ls : List Lexeme} (settled : Settled ls) : ∀ x ∈ ls, x.Sound := by
  induction ls with
  | nil => nofun
  | cons x rest ih =>
    simp only [List.mem_cons, forall_eq_or_imp]
    exact ⟨settled.1, ih settled.2.2⟩

/-! ### Open quoted texts -/

/-- No lexeme is a quoted text that is never closed. -/
def Sealed (ls : List Lexeme) : Prop := ∀ x ∈ ls, ¬ x.IsOpen

theorem Sealed.append {first second : List Lexeme} (left : Sealed first)
    (right : Sealed second) : Sealed (first ++ second) := by
  intro x member
  rcases List.mem_append.mp member with before | behind
  · exact left x before
  · exact right x behind

theorem Sealed.cons_blank {ls : List Lexeme} (closed : Sealed ls) (c : Char) :
    Sealed (.blank c :: ls) :=
  List.forall_mem_cons.mpr ⟨id, closed⟩

/-- Only the last lexeme can be open, for an open text takes all that follows. -/
theorem Settled.sealed_dropLast {ls : List Lexeme} (settled : Settled ls) :
    Sealed ls.dropLast := by
  induction ls with
  | nil => nofun
  | cons x rest ih =>
    cases rest with
    | nil => nofun
    | cons y more =>
      rw [List.dropLast_cons_cons]
      intro z member
      rcases List.mem_cons.mp member with rfl | later
      · intro unclosed
        cases z with
        | blank c => exact unclosed
        | token t =>
          -- An open text would take the first character of the lexeme behind it.
          obtain ⟨_, single, quote, rfl⟩ := unclosed
          obtain ⟨c, tail, inked⟩ := List.exists_cons_of_ne_nil settled.2.2.1.chars_ne_nil
          have ends := settled.2.1 c (by rw [render_cons, inked]; rfl) _ single
          simp only [Munch.extend?] at ends
          split at ends <;> cases ends
      · exact ih settled.2.2 z later

theorem Settled.sealed_of_getLast? {ls : List Lexeme} (settled : Settled ls)
    (closed : ∀ x ∈ ls.getLast?, ¬ x.IsOpen) : Sealed ls := by
  rcases List.eq_nil_or_concat ls with rfl | ⟨front, last, rfl⟩
  · nofun
  · rw [List.concat_eq_append] at settled closed ⊢
    have early : Sealed front := by simpa using settled.sealed_dropLast
    intro x member
    rcases List.mem_append.mp member with before | same
    · exact early x before
    · obtain rfl := List.mem_singleton.mp same
      exact closed x List.getLast?_concat

theorem endsAt_delimiter {x : Lexeme} {c : Char} (closed : ¬ x.IsOpen)
    (delimiter : delimits c = true) : x.EndsAt c := by
  cases x with
  | blank => trivial
  | token t =>
    intro m single
    apply Munch.extend?_delimiter (Munch.proper_ofChars? single) _ delimiter
    exact fun unclosed => closed ⟨m, single, unclosed⟩

theorem Settled.append_delimited {first second : List Lexeme} (left : Settled first)
    (closed : Sealed first) (right : Settled second)
    (delimited : ∀ c ∈ (render second).head?, delimits c = true) : Settled (first ++ second) := by
  apply left.append right
  intro x last c following
  exact endsAt_delimiter (closed x (List.mem_of_getLast? last)) (delimited c following)

end Lexeme

theorem lexemes_append_of_settled {first second : String}
    (settled : Lexeme.Settled (lexemes first ++ lexemes second)) :
    lexemes (first ++ second) = lexemes first ++ lexemes second := by
  rw [← Lexeme.lexemes_of_settled settled, Lexeme.render_append, render_lexemes, render_lexemes,
    ← String.toList_append, String.ofList_toList]

/-- Texts are read apart when nothing is open in the first and a delimiter begins the second. -/
theorem lexemes_append {first second : String} (closed : Lexeme.Sealed (lexemes first))
    (delimited : ∀ c ∈ second.toList.head?, delimits c = true) :
    lexemes (first ++ second) = lexemes first ++ lexemes second :=
  lexemes_append_of_settled ((Lexeme.settled_lexemes first).append_delimited closed
    (Lexeme.settled_lexemes second) (by rwa [render_lexemes]))

theorem lexemes_space (text : String) : lexemes (" " ++ text) = .blank ' ' :: lexemes text := by
  rw [lexemes, String.toList_append]
  rfl

/-- A space ends what stands before it, unless a quoted text is open there. -/
theorem lexemes_append_space {first : String} (closed : Lexeme.Sealed (lexemes first))
    (second : String) :
    lexemes (first ++ " " ++ second) = lexemes first ++ .blank ' ' :: lexemes second := by
  have text : (" " ++ second).toList = ' ' :: second.toList := String.toList_append
  rw [String.append_assoc, lexemes_append closed (by rw [text]; rintro c ⟨⟩; rfl), lexemes_space]

/-- A character that ends what stands before it and is a token by itself, though no bracket. -/
structure Delimiter (c : Char) (kind : Kind) : Prop where
  inked : isBlank c = false
  ends : delimits c = true
  alone : Munch.start c = .whole kind
  flat : kind.shift = 0

theorem delimiter_comma : Delimiter ',' .comma := ⟨by decide, by decide, rfl, rfl⟩

theorem delimiter_semicolon : Delimiter ';' .semicolon := ⟨by decide, by decide, rfl, rfl⟩

/-- A delimiter ends what stands before it, unless a quoted text is open there. -/
theorem lexemes_append_delimiter {first : String} (closed : Lexeme.Sealed (lexemes first))
    {c : Char} {kind : Kind} (delimiter : Delimiter c kind) (second : String) :
    lexemes (first ++ String.singleton c ++ second) =
      lexemes first ++ .token ⟨kind, String.singleton c⟩ :: lexemes second := by
  have text : (String.singleton c ++ second).toList = c :: second.toList := by simp
  have single : Munch.ofChars? (String.singleton c).toList = some (.whole kind) := by
    simp [Munch.ofChars?, delimiter.inked, delimiter.alone, Munch.read?]
  have settled : Lexeme.Settled (.token ⟨kind, String.singleton c⟩ :: lexemes second) := by
    refine ⟨⟨_, single, rfl⟩, ?_, Lexeme.settled_lexemes second⟩
    rintro d _ m read
    obtain rfl := Option.some.inj (read.symm.trans single)
    rfl
  have behind : lexemes (String.singleton c ++ second) =
      .token ⟨kind, String.singleton c⟩ :: lexemes second := by
    rw [← Lexeme.lexemes_of_settled settled, Lexeme.render_cons, render_lexemes]
    exact congrArg lexemes (String.toList_injective (by simp [Lexeme.chars]))
  rw [String.append_assoc, lexemes_append closed (by rw [text]; rintro d ⟨⟩; exact delimiter.ends),
    behind]

theorem identifier_of_mem_tokens {text : String} {t : Token}
    (member : t ∈ tokens text) (named : t.isName = true) : isIdentifier t.text = true := by
  obtain ⟨m, single, kind⟩ := (Lexeme.settled_lexemes text).sound _ (Lexeme.mem_tokens.mp member)
  have name : m.kind = .name := kind.trans (by simpa [Token.isName] using named)
  have identifier := Munch.identifier_of_ofChars? single name
  rwa [String.ofList_toList] at identifier

end FormulaFields.Formula
