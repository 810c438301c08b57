import FormulaFields.Proofs.Cleaning
import FormulaFields.Proofs.Uncommenting

/-!
Block comments between tokens. A block comment leaves nothing behind, so what stands before it and
what stands after it meet. They are kept apart as a blank would keep them apart exactly where the
last token before the comment does not take the first character after it.
-/
namespace FormulaFields

open Formula
open Text (Transducer isBlank)

namespace Formula

/-! ### Taking a block comment out -/

/-- In a comment that holds no star with a slash behind it the reader waits for its end. -/
private theorem run_block (comment rest : List Char) :
    (¬ ['*', '/'] <:+: comment →
        uncommenter.run .block (comment ++ '*' :: '/' :: rest) = uncomment rest) ∧
      (¬ ['*', '/'] <:+: '*' :: comment →
        uncommenter.run .star (comment ++ '*' :: '/' :: rest) = uncomment rest) := by
  induction comment with
  | nil => exact ⟨fun _ => rfl, fun _ => rfl⟩
  | cons c more ih =>
    obtain ⟨block, star⟩ := ih
    have fewer {d : Char} {text : List Char} (unclosed : ¬ ['*', '/'] <:+: d :: text) :
        ¬ ['*', '/'] <:+: text :=
      fun closes => unclosed (List.infix_cons closes)
    by_cases starred : c = '*'
    · subst starred
      exact ⟨fun unclosed => star unclosed, fun unclosed => star (fewer unclosed)⟩
    · have fromBlock : uncommenter.step .block c = (.block, []) := by
        simp [uncommenter, CommentMode.step]
      refine ⟨fun unclosed => ?_, fun unclosed => ?_⟩
      · rw [List.cons_append, Transducer.run, fromBlock]
        exact block (fewer unclosed)
      · have other : c ≠ '/' := by
          rintro rfl
          exact unclosed ⟨[], more, rfl⟩
        have fromStar : uncommenter.step .star c = (.block, []) := by
          simp [uncommenter, CommentMode.step]
        rw [List.cons_append, Transducer.run, fromStar]
        exact block (fewer (fewer unclosed))

/-- A block comment is taken out with its signs. -/
theorem uncomment_block {comment : List Char} (unclosed : ¬ ['*', '/'] <:+: comment)
    (rest : List Char) :
    uncomment ('/' :: '*' :: (comment ++ '*' :: '/' :: rest)) = uncomment rest :=
  (run_block comment rest).1 unclosed

/-! ### Texts that meet -/

/-- The last token of the first text takes the first character of the second one. A quoted text that
is open would take it too, but a blank just as well. -/
def Fuses (first second : List Char) : Prop :=
  ∃ x ∈ (lexemes (String.ofList first)).getLast?, ¬ x.IsOpen ∧ ∃ c ∈ second.head?, ¬ x.EndsAt c

instance (first second : List Char) : Decidable (Fuses first second) :=
  -- Only the first character of the second text is tried, not every character there is.
  have := fun x : Lexeme => Option.decidableExistsMem (p := (¬ x.EndsAt ·)) second.head?
  inferInstanceAs (Decidable (∃ x ∈ (lexemes (String.ofList first)).getLast?, ¬ x.IsOpen ∧ _))

namespace Lexeme

/-- A growing token comes next, and it has lost none of its characters. -/
private theorem exists_of_run_some (g : Growing) (rest : List Char) :
    ∃ t more, reader.run (some g) rest = .token t :: more ∧
      g.seen.length ≤ t.text.toList.length := by
  induction rest generalizing g with
  | nil => exact ⟨g.token, [], rfl, by simp [Growing.token]⟩
  | cons c rest ih =>
    cases grown : g.munch.extend? c with
    | some longer =>
      obtain ⟨t, more, read, kept⟩ := ih ⟨longer, c :: g.seen⟩
      have stepped : reader.step (some g) c = (some ⟨longer, c :: g.seen⟩, []) := by
        simp [reader, step, Growing.extend?, grown]
      refine ⟨t, more, by rw [Transducer.run, stepped, List.nil_append, read], ?_⟩
      exact (Nat.le_succ _).trans kept
    | none =>
      have stop : ∀ d, (c :: rest).head? = some d → g.munch.extend? d = none := by
        rintro d ⟨⟩
        exact grown
      exact ⟨g.token, _, run_end g.seen stop, by simp [Growing.token]⟩

/-- The last token of a text grows by what follows, if it takes its first character. -/
private theorem exists_longer {front : List Lexeme} {t : Token}
    (settled : Settled (front ++ [.token t])) {c : Char} (taken : ¬ (Lexeme.token t).EndsAt c)
    (rest : List Char) :
    ∃ longer more,
      lexemes (String.ofList (render (front ++ [.token t]) ++ c :: rest)) =
        front ++ .token longer :: more ∧
      t.text.toList.length < longer.text.toList.length := by
  simp only [EndsAt, not_forall] at taken
  obtain ⟨m, single, takes⟩ := taken
  obtain ⟨next, grown⟩ := Option.ne_none_iff_exists'.mp takes
  obtain ⟨longer, more, read, kept⟩ := exists_of_run_some ⟨next, c :: t.text.toList.reverse⟩ rest
  have begun : lexemes (String.ofList (t.text.toList ++ c :: rest)) = .token longer :: more := by
    have stepped : reader.step (some ⟨m, t.text.toList.reverse⟩) c =
        (some ⟨next, c :: t.text.toList.reverse⟩, []) := by
      simp [reader, step, Growing.extend?, grown]
    rw [lexemes, String.toList_ofList, run_ofChars? single, Transducer.run, stepped,
      List.nil_append, read]
  rw [List.length_cons, List.length_reverse] at kept
  refine ⟨longer, more, ?_, kept⟩
  -- What stands in front of the token still ends there.
  obtain ⟨d, tail, inked⟩ := List.exists_cons_of_ne_nil
    (settled.sound _ (List.mem_append_right _ (List.mem_singleton_self _))).chars_ne_nil
  rw [chars] at inked
  have whole : render (.token longer :: more) = t.text.toList ++ c :: rest := by
    rw [← begun, render_lexemes, String.toList_ofList]
  have joined : Settled (front ++ .token longer :: more) := by
    refine settled.left.append (begun ▸ settled_lexemes _) fun x last e following => ?_
    refine settled.ends x last e ?_
    rw [whole, inked] at following
    rw [render_cons, chars, inked]
    exact following
  have spelled : render (front ++ [.token t]) ++ c :: rest =
      render (front ++ .token longer :: more) := by
    rw [render_append, render_append, whole, render_cons, chars, render_nil]
    simp
  rw [spelled, lexemes_of_settled joined]

end Lexeme

/-- Texts that do not fuse are seen one after the other, unless a quoted text is open. -/
private theorem sightOf_append_of_not_fuses {first second : List Char}
    (closed : Lexeme.Sealed (lexemes (String.ofList first))) (apart : ¬ Fuses first second) :
    sightOf (first ++ second) = sightOf first ++ sightOf second := by
  have settled : Lexeme.Settled
      (lexemes (String.ofList first) ++ lexemes (String.ofList second)) := by
    refine (Lexeme.settled_lexemes _).append (Lexeme.settled_lexemes _) fun x last c following => ?_
    rw [render_lexemes, String.toList_ofList] at following
    by_contra taken
    exact apart ⟨x, last, closed x (List.mem_of_getLast? last), c, following, taken⟩
  simp only [sightOf, sight, tokens, String.ofList_append, lexemes_append_of_settled settled,
    Lexeme.tokens_append, List.map_append]

/-- A closed token that grows is not quoted, and what it grows to is another token. -/
private theorem gist_ne_of_longer {t longer : Token} (closed : ¬ (Lexeme.token t).IsOpen) {c : Char}
    (taken : ¬ (Lexeme.token t).EndsAt c) (sound : (Lexeme.token t).Sound)
    (more : t.text.toList.length < longer.text.toList.length) : longer.gist ≠ t.gist := by
  have plain : t.kind ≠ .quoted := by
    intro quoted
    obtain ⟨m, single, kind⟩ := sound
    obtain ⟨quote, _, _, _, ⟨rfl, _⟩ | ⟨rfl, _⟩⟩ :=
      Munch.quoted_of_ofChars? single (kind.trans quoted)
    · exact closed ⟨_, single, quote, rfl⟩
    · refine taken fun m' again => ?_
      obtain rfl := Option.some.inj (single.symm.trans again)
      rfl
  intro same
  have kind : longer.kind ≠ .quoted := by
    rw [← Token.gist_kind, same, Token.gist_kind]
    exact plain
  simp only [Token.gist, plain, kind, if_false] at same
  exact absurd more (by simp [same])

/-- A blank stands for nothing exactly where the texts around it do not fuse. -/
theorem sightOf_append_eq_iff (first second : List Char) :
    sightOf (first ++ second) = sightOf (first ++ ' ' :: second) ↔ ¬ Fuses first second := by
  have space : isBlank ' ' = true := by decide
  by_cases closed : Lexeme.Sealed (lexemes (String.ofList first))
  · rw [sightOf_append_blank closed space]
    refine ⟨?_, fun apart => sightOf_append_of_not_fuses closed apart⟩
    rintro same ⟨x, last, unclosed, c, following, taken⟩
    cases x with
    | blank => exact taken trivial
    | token t =>
      obtain ⟨front, whole⟩ := List.getLast?_eq_some_iff.mp last
      obtain ⟨rest, rfl⟩ := List.head?_eq_some_iff.mp following
      have settled := whole ▸ Lexeme.settled_lexemes (String.ofList first)
      have spelled : Lexeme.render (front ++ [.token t]) = first := by
        rw [← whole, render_lexemes, String.toList_ofList]
      -- Both texts begin with the same tokens, and then one has `t` and the other a longer token.
      obtain ⟨longer, more, read, grown⟩ := Lexeme.exists_longer settled taken rest
      have sound := settled.sound _ (List.mem_append_right _ (List.mem_singleton_self _))
      apply gist_ne_of_longer unclosed taken sound grown
      rw [spelled] at read
      simp only [sightOf, sight, tokens, read, whole, Lexeme.tokens_append, Lexeme.tokens_token,
        Lexeme.tokens_nil, List.map_append, List.map_cons, List.map_nil, List.append_assoc,
        List.append_cancel_left_eq, List.cons_append] at same
      exact (List.cons.inj same).1
  · rw [sightOf_append_blank_of_open closed space]
    refine iff_of_true rfl ?_
    rintro ⟨x, last, sealed_, -⟩
    refine closed ((Lexeme.settled_lexemes _).sealed_of_getLast? fun y final => ?_)
    exact Option.some.inj (last.symm.trans final) ▸ sealed_

/-- A text with a block comment in it. -/
def commented (first comment rest : String) : String := first ++ "/*" ++ comment ++ "*/" ++ rest

/-- A block comment may stand here, and it is the text `comment`: the first text ends outside all
comments with no slash, and the comment does not end before its end. -/
@[mk_iff]
structure Commentable (first comment : String) : Prop where
  outside : (commentMode first.toList).IsOutside
  last : first.toList.getLast? ≠ some '/'
  unclosed : ¬ ['*', '/'] <:+: comment.toList

instance (first comment : String) : Decidable (Commentable first comment) :=
  decidable_of_iff _ (commentable_iff first comment).symm

private theorem uncomment_commented {first comment : String} (fits : Commentable first comment)
    (rest : String) :
    uncomment (commented first comment rest).toList =
        uncomment first.toList ++ uncomment rest.toList ∧
      uncomment (first ++ rest).toList = uncomment first.toList ++ uncomment rest.toList ∧
      uncomment (first ++ " " ++ rest).toList =
        uncomment first.toList ++ ' ' :: uncomment rest.toList := by
  have code := commentMode_eq_code fits.outside fits.last
  have spelled : (commented first comment rest).toList = first.toList ++
      '/' :: '*' :: (comment.toList ++ '*' :: '/' :: rest.toList) := by
    simp [commented]
  refine ⟨?_, ?_, ?_⟩
  · rw [spelled, uncomment_append code, uncomment_block fits.unclosed]
  · rw [String.toList_append, uncomment_append code]
  · have blank : (first ++ " " ++ rest).toList = first.toList ++ ' ' :: rest.toList := by simp
    rw [blank, uncomment_append code]
    rfl

end Formula

namespace Vocabulary

/-- Block comments would be as good as blanks. -/
def CommentsSeparate : Prop :=
  ∀ (v : Vocabulary) (first comment rest : String), Commentable first comment →
    v.fields (commented first comment rest) = v.fields (first ++ " " ++ rest)

/-- The names before and behind the comment of `close/**/open` become one. -/
theorem not_commentsSeparate : ¬ CommentsSeparate := by
  intro separate
  have same := separate ⟨∅, ∅, defaultDepthLimit⟩ "close" "" "open" (by decide)
  exact absurd (congrArg (·.contains "close") same) (by decide +kernel)

/-- A block comment is as good as nothing. It is as good as a blank exactly where the token before
it does not take the first character behind it. -/
theorem fields_commented {first comment : String} (fits : Commentable first comment)
    (rest : String) :
    (∀ v : Vocabulary, v.fields (commented first comment rest) = v.fields (first ++ rest)) ∧
      (sight (clean (commented first comment rest)) = sight (clean (first ++ " " ++ rest)) ↔
        ¬ Fuses (uncomment first.toList) (uncomment rest.toList)) ∧
      (¬ Fuses (uncomment first.toList) (uncomment rest.toList) → ∀ v : Vocabulary,
        v.fields (commented first comment rest) = v.fields (first ++ " " ++ rest)) := by
  obtain ⟨removed, glued, spaced⟩ := uncomment_commented fits rest
  have alike := sightOf_append_eq_iff (uncomment first.toList) (uncomment rest.toList)
  refine ⟨fun v => ?_, ?_, fun apart v => ?_⟩
  · rw [fields_eq_sightOf, fields_eq_sightOf, removed, glued]
  · rw [sight_clean, sight_clean, removed, spaced]
    exact alike
  · rw [fields_eq_sightOf, fields_eq_sightOf, removed, spaced, alike.mpr apart]

/-- Behind a number with its exponent and in front of a plus sign a comment does not matter. -/
theorem fields_commented_sum :
    Commentable "close * 1e5" " scale **" ∧
      ¬ Fuses (uncomment "close * 1e5".toList) (uncomment "+ open // sum".toList) ∧
      fields ⟨∅, ∅, 50⟩ (commented "close * 1e5" " scale **" "+ open // sum") =
        fields ⟨∅, ∅, 50⟩ ("close * 1e5" ++ " " ++ "+ open // sum") := by
  have fits : Commentable "close * 1e5" " scale **" := by decide
  have apart : ¬ Fuses (uncomment "close * 1e5".toList) (uncomment "+ open // sum".toList) := by
    decide +kernel
  exact ⟨fits, apart, (fields_commented fits "+ open // sum").2.2 apart _⟩

end Vocabulary

end FormulaFields
