import FormulaFields.Proofs.Relabeling
import FormulaFields.Proofs.Stretches
import FormulaFields.Proofs.Trimming

/-!
The search of texts is the search of tokens. Texts are cut between tokens, trimmed and read again
at every level, and what is read is the stretch of tokens that was cut out, up to the blanks at the
end of an open quoted text, which the search does not see. Main statements: `scanText_eq` for an
expression, `fields_eq` for a formula with its statements taken apart and joined again.
-/
namespace FormulaFields

open Formula
open Text (isBlank)

namespace Formula

/-! ### Gists -/

theorem Token.gist_kind (t : Token) : t.gist.kind = t.kind := by
  unfold gist
  split
  next quoted => exact quoted.symm
  · rfl

theorem Token.isName_gist (t : Token) : t.gist.isName = t.isName := by
  rw [isName, isName, gist_kind]

theorem Token.gist_of_name {t : Token} (named : t.isName = true) : t.gist = t := by
  have kind : t.kind = .name := by simpa [isName] using named
  simp [gist, kind]

private theorem equals_gist (t : Token) : '=' ∈ t.gist.text.toList ↔ '=' ∈ t.text.toList := by
  unfold Token.gist
  split
  · by_cases equals : '=' ∈ t.text.toList <;> simp [equals]
  · rfl

theorem relabels_gist (v : Vocabulary) : Relabels v Token.gist id where
  kind := Token.gist_kind
  text := fun t named => by rw [Token.gist_of_name named, id]
  equals := equals_gist
  semicolon := rfl
  injective := Function.injective_id
  logical := fun _ => rfl
  operator := fun _ => rfl
  rule := fun _ => rfl

theorem names_sight (text : String) : names (sight text) = names (tokens text) := by
  have named : Token.isName ∘ Token.gist = Token.isName := funext Token.isName_gist
  rw [names, sight, List.filter_map, List.map_map, named]
  apply List.map_congr_left
  intro t member
  rw [Function.comp_apply, Token.gist_of_name (List.mem_filter.mp member).2]

/-- Trimming a text takes no name from it. -/
theorem names_trimmed (text : String) :
    names (tokens (Text.trimmed text)) = names (tokens text) := by
  rw [← names_sight, sight_trimmed, names_sight]

/-! ### Pieces of texts -/

theorem views_lexemes {cuts : Token → Bool} (same : ∀ t, cuts t.gist = cuts t) :
    Nesting.Views Lexeme.shift (Lexeme.passes cuts) (·.kind.shift) cuts
      (·.token?.map Token.gist) where
  hidden := by
    intro x hidden
    cases x with
    | blank c => exact ⟨rfl, rfl⟩
    | token t => cases hidden
  seen := by
    intro x y seen
    cases x with
    | blank c => cases seen
    | token t =>
      cases seen
      exact ⟨by rw [Token.gist_kind]; rfl, same t⟩

/-- Blanks neither nest nor separate. -/
theorem views_tokens (cuts : Token → Bool) :
    Nesting.Views Lexeme.shift (Lexeme.passes cuts) (·.kind.shift) cuts Lexeme.token? where
  hidden := by
    intro x hidden
    cases x with
    | blank c => exact ⟨rfl, rfl⟩
    | token t => cases hidden
  seen := by
    intro x t seen
    cases x with
    | blank c => cases seen
    | token u =>
      cases seen
      exact ⟨rfl, rfl⟩

theorem filterMap_gist (ls : List Lexeme) :
    ls.filterMap (·.token?.map Token.gist) = (Lexeme.tokens ls).map Token.gist := by
  rw [Lexeme.tokens, List.map_filterMap]

theorem settled_of_mem_pieces {cuts : Lexeme → Bool} {ls piece : List Lexeme}
    (settled : Lexeme.Settled ls) (member : piece ∈ Nesting.pieces Lexeme.shift cuts 0 ls) :
    Lexeme.Settled piece := by
  obtain ⟨before, after, rfl, _⟩ := Nesting.exists_of_mem_pieces _ _ member
  exact settled.left.right

private theorem map_filter_trimmedText (groups : List (List Lexeme))
    (settled : ∀ group ∈ groups, Lexeme.Settled group) :
    ((groups.map Lexeme.trimmedText).filter (!·.isEmpty)).map sight =
      (groups.map fun group => (Lexeme.tokens group).map Token.gist).filter (!·.isEmpty) := by
  induction groups with
  | nil => rfl
  | cons group rest ih =>
    simp only [List.mem_cons, forall_eq_or_imp] at settled
    simp only [List.map_cons, List.filter_cons, Lexeme.trimmedText_isEmpty settled.1]
    split
    · rw [List.map_cons, Lexeme.sight_trimmedText settled.1, ih settled.2]
    · exact ih settled.2

/-- A text is cut where its tokens are cut. -/
theorem sight_splitText {cuts : Token → Bool} (same : ∀ t, cuts t.gist = cuts t)
    (text : String) : (splitText cuts text).map sight = splitTokens cuts (sight text) := by
  have pieces := Nesting.map_pieces (views_lexemes same) 0 (lexemes text)
  simp only [filterMap_gist] at pieces
  rw [splitText, map_filter_trimmedText _
    (fun _ member => settled_of_mem_pieces (Lexeme.settled_lexemes text) member), pieces]
  rfl

theorem sight_splitArguments (text : String) :
    (splitArguments text).map sight = splitTokens (·.kind == .comma) (sight text) :=
  sight_splitText (fun t => by rw [Token.gist_kind]) text

/-! ### Calls -/

theorem tokens_before (count : Nat) (ls : List Lexeme) :
    Lexeme.tokens (Lexeme.before count ls) = (Lexeme.tokens ls).take count := by
  induction ls generalizing count with
  | nil => simp [Lexeme.before]
  | cons x rest ih => cases x <;> cases count <;> simp [Lexeme.before, ih]

theorem tokens_after (count : Nat) (ls : List Lexeme) :
    Lexeme.tokens (Lexeme.after count ls) = (Lexeme.tokens ls).drop count := by
  induction ls generalizing count with
  | nil => cases count <;> rfl
  | cons x rest ih => cases x <;> cases count <;> simp [Lexeme.after, ih]

private theorem exists_before (count : Nat) (ls : List Lexeme) :
    ∃ tail, ls = Lexeme.before count ls ++ tail := by
  induction ls generalizing count with
  | nil => exact ⟨[], by simp [Lexeme.before]⟩
  | cons x rest ih =>
    cases x with
    | blank c =>
      obtain ⟨tail, whole⟩ := ih count
      exact ⟨tail, congrArg (Lexeme.blank c :: ·) whole⟩
    | token t =>
      cases count with
      | zero => exact ⟨.token t :: rest, rfl⟩
      | succ count =>
        obtain ⟨tail, whole⟩ := ih count
        exact ⟨tail, congrArg (Lexeme.token t :: ·) whole⟩

private theorem exists_after (count : Nat) (ls : List Lexeme) :
    ∃ first, ls = first ++ Lexeme.after count ls := by
  induction ls generalizing count with
  | nil => exact ⟨[], by cases count <;> rfl⟩
  | cons x rest ih =>
    cases count with
    | zero => exact ⟨[], by simp [Lexeme.after]⟩
    | succ count =>
      cases x with
      | blank c =>
        obtain ⟨first, whole⟩ := ih (count + 1)
        exact ⟨.blank c :: first, congrArg (Lexeme.blank c :: ·) whole⟩
      | token t =>
        obtain ⟨first, whole⟩ := ih count
        exact ⟨.token t :: first, congrArg (Lexeme.token t :: ·) whole⟩

/-- Every token cuts the lexemes in what stands before it and what stands behind it. -/
theorem before_append_after {count : Nat} {ls : List Lexeme} {t : Token}
    (found : (Lexeme.tokens ls)[count]? = some t) :
    ls = Lexeme.before count ls ++ .token t :: Lexeme.after (count + 1) ls := by
  induction ls generalizing count with
  | nil => cases found
  | cons x rest ih =>
    cases x with
    | blank c => exact congrArg (Lexeme.blank c :: ·) (ih found)
    | token u =>
      cases count with
      | zero =>
        obtain rfl : u = t := Option.some.inj found
        simp [Lexeme.before, Lexeme.after]
      | succ count => exact congrArg (Lexeme.token u :: ·) (ih found)

/-- The text between two tokens reads as the tokens between them. -/
private theorem sight_inside (count : Nat) {ls : List Lexeme} (settled : Lexeme.Settled ls) :
    sight (Lexeme.inside count ls) = ((Lexeme.tokens ls).tail.take count).map Token.gist := by
  obtain ⟨first, start⟩ := exists_after 1 ls
  rw [start] at settled
  obtain ⟨tail, stop⟩ := exists_before count (Lexeme.after 1 ls)
  have inner := settled.right
  rw [stop] at inner
  rw [sight, tokens, Lexeme.inside, Lexeme.lexemes_of_settled inner.left, tokens_before,
    tokens_after, List.drop_one]

private theorem sight_callsAfter (skip : Nat) {ls : List Lexeme}
    (settled : Lexeme.Settled ls) :
    (callsAfter skip ls).map (Call.view id sight) =
      tokenCallsAfter skip ((Lexeme.tokens ls).map Token.gist) := by
  induction ls generalizing skip with
  | nil => cases skip <;> rfl
  | cons x rest ih =>
    have later := fun skip => ih skip settled.2.2
    cases x with
    | blank c => cases skip <;> exact later _
    | token t =>
      cases skip with
      | succ skip => exact later skip
      | zero =>
        -- The next token may stand behind blanks; a call begins whether it does or not.
        have opens : ((Lexeme.tokens rest).map Token.gist).head?.any (·.kind == .opening .round) =
            (rest.findSome? Lexeme.token?).any (·.kind == .opening .round) := by
          rw [Lexeme.tokens, List.head?_map, List.head?_filterMap]
          cases rest.findSome? Lexeme.token? <;> simp [Token.gist_kind]
        have matching := enclosed?_map Token.gist_kind 0 (Lexeme.tokens rest).tail
        rw [callsAfter, Lexeme.tokens_token, List.map_cons, tokenCallsAfter, opens,
          t.isName_gist, ← List.map_tail, matching]
        split
        next call =>
          simp only [Bool.and_eq_true] at call
          cases found : enclosed? 0 (Lexeme.tokens rest).tail with
          | none => rfl
          | some inside =>
            obtain ⟨close, tail, whole, _⟩ := exists_of_enclosed? found
            have argument : sight (Lexeme.inside inside.length rest) = inside.map Token.gist := by
              rw [sight_inside _ settled.2.2, whole, List.take_left]
            simp only [Option.map_some, List.map_cons, List.length_map, later, Call.view, id,
              sight_splitArguments, argument, Token.gist_of_name call.1]
        · exact later 0

theorem sight_calls (expression : String) :
    (calls expression).map (Call.view id sight) = tokenCalls (sight expression) :=
  sight_callsAfter 0 (Lexeme.settled_lexemes expression)

private theorem mentionsEquals_eq (text : String) :
    mentionsEquals text = holdEquals (sight text) := by
  have inside : '=' ∈ text.toList ↔ ∃ t ∈ tokens text, '=' ∈ t.text.toList := by
    rw [← render_lexemes text, Lexeme.render, List.mem_flatMap]
    constructor
    · rintro ⟨x, member, held⟩
      cases x with
      | blank c =>
        -- A blank is no equals sign.
        have blank : isBlank c = true := (Lexeme.settled_lexemes text).sound _ member
        rw [← List.mem_singleton.mp held] at blank
        exact absurd blank (by decide)
      | token t => exact ⟨t, Lexeme.mem_tokens.mpr member, held⟩
    · rintro ⟨t, member, held⟩
      exact ⟨_, Lexeme.mem_tokens.mp member, held⟩
  rw [sight, holdEquals_map equals_gist, mentionsEquals, holdEquals]
  apply Bool.eq_iff_iff.mpr
  simpa using inside

end Formula

/-! ### Scans -/

namespace Vocabulary

variable (v : Vocabulary)

/-- The arguments that the search goes on with are seen as those among the tokens. -/
theorem sight_arguments (expression : String) :
    ((calls expression).flatMap (v.fieldArguments mentionsEquals)).map sight =
      (tokenCalls (sight expression)).flatMap (v.fieldArguments holdEquals) := by
  have gist := relabels_gist v
  rw [← sight_calls, List.flatMap_map, List.map_flatMap]
  apply List.flatMap_congr
  intro call _
  exact (fieldArguments_view gist.operator gist.rule
    (fun text => (mentionsEquals_eq text).symm) call).symm

theorem plainNames_sight (text : String) :
    v.plainNames (sight text) = v.plainNames (tokens text) := by
  rw [sight, (relabels_gist v).plainNames_map, List.map_id]

/-- At every level, the search of a text is the search of what is seen of its tokens. -/
theorem scan_sight (levels : Nat) (text : String) :
    v.scan levels text = v.scanTokens levels (sight text) := by
  have gist := relabels_gist v
  induction levels generalizing text with
  | zero =>
    rw [scan, scanTokens, ← sight_trimmed text, plainNames_sight]
  | succ levels ih =>
    -- Trimming is out of sight, and names and connectives are in sight as they are.
    have plain : v.plainNames (tokens (Text.trimmed text)) = v.plainNames (sight text) := by
      rw [← sight_trimmed text, plainNames_sight]
    have compound : isCompound (tokens (Text.trimmed text)) = isCompound (sight text) := by
      rw [← sight_trimmed text, sight, gist.isCompound_map]
    -- What is cut out reads as the tokens it was cut out with, one level further down.
    have inner : ∀ texts : List String,
        texts.flatMap (v.scan levels) = (texts.map sight).flatMap (v.scanTokens levels) := by
      intro texts
      rw [List.flatMap_map]
      exact List.flatMap_congr fun text _ => ih text
    have cut : (operands (Text.trimmed text)).map sight =
        splitTokens Token.isJoint (sight text) := by
      rw [operands, sight_splitText gist.isJoint, sight_trimmed]
    have arguments := v.sight_arguments (Text.trimmed text)
    rw [sight_trimmed] at arguments
    simp only [scan, scanTokens, compound, inner, cut, arguments, plain]

theorem scan_eq (levels : Nat) (text : String) :
    v.scan levels text = v.scanTokens levels (tokens text) := by
  rw [scan_sight, sight, (relabels_gist v).scanTokens_map, List.map_id]

theorem scanText_eq (expression : String) (depth : Nat) :
    v.scanText expression depth =
      v.scanTokens (v.depthLimit + 1 - depth) (tokens expression) :=
  v.scan_eq _ expression

end Vocabulary

end FormulaFields
