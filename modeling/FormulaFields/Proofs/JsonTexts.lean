import FormulaFields.Proofs.PrintedJson
import Mathlib.Data.List.Forall2

/-!
Which texts are read as a value. A value has one list of tokens, so a text is read as the value
exactly if it has these tokens. Where a comma, a colon or a bracket stands in a text, the tokens
before it are those of the text before it, and the same holds behind it. Thus a text is read as an
object exactly if members stand in it between braces, with commas between them, and each of them is
read as the member it spells. Main statements: `read?_eq_some_iff` and `read?_eq_object_iff`.
-/
namespace FormulaFields.Json

open Text (Transducer)

/-! ### Steps of the token reader -/

/-- Between tokens a character is passed over, begins a longer token, is a mark, or breaks the
text. -/
theorem stepBetween_cases (c : Char) :
    (ReadState.stepBetween c).2 = [] ∨ (ReadState.stepBetween c).2 = [.broken] ∨
      ∃ t, Marks c t := by
  unfold ReadState.stepBetween
  split
  · exact .inl rfl
  · split
    · exact .inl rfl
    · split
      · exact .inl rfl
      · exact .inr (.inr ⟨_, .openArray⟩)
      · exact .inr (.inr ⟨_, .closeArray⟩)
      · exact .inr (.inr ⟨_, .openObject⟩)
      · exact .inr (.inr ⟨_, .closeObject⟩)
      · exact .inr (.inr ⟨_, .comma⟩)
      · exact .inr (.inr ⟨_, .colon⟩)
      · exact .inr (.inl rfl)

/-- What a step can write. -/
theorem step_cases (state : ReadState) (c : Char) :
    (tokenReader.step state c).2 = [] ∨ (tokenReader.step state c).2 = [.broken] ∨
      (∃ text, tokenReader.step state c = (.between, [.string text])) ∨
      (state = .between ∧ ∃ t, Marks c t) ∨
      ∃ seen, state = .word seen ∧ isWordPart c = false := by
  cases state with
  | between =>
    rcases stepBetween_cases c with quiet | broken | marked
    · exact .inl quiet
    · exact .inr (.inl broken)
    · exact .inr (.inr (.inr (.inl ⟨rfl, marked⟩)))
  | word seen =>
    cases part : isWordPart c with
    | true => exact .inl (by simp [tokenReader, ReadState.step, part])
    | false => exact .inr (.inr (.inr (.inr ⟨seen, rfl, rfl⟩)))
  | quoted codes =>
    simp only [tokenReader, ReadState.step]
    split
    · exact .inr (.inr (.inl ⟨_, rfl⟩))
    · split
      · exact .inl rfl
      · split
        · exact .inr (.inl rfl)
        · exact .inl rfl
  | escape codes =>
    simp only [tokenReader, ReadState.step]
    split
    · exact .inl rfl
    · split
      · exact .inl rfl
      · exact .inr (.inl rfl)
  | hex codes left value =>
    simp only [tokenReader, ReadState.step]
    split
    · exact .inr (.inl rfl)
    · split
      · exact .inl rfl
      · exact .inl rfl
  | broken => exact .inl rfl

/-- The characters that are marks, and their tokens. -/
theorem Marks.cases {c : Char} {t : Token} (mark : Marks c t) :
    (c = ',' ∧ t = .comma) ∨ (c = ':' ∧ t = .colon) ∨ (c = '[' ∧ t = .openArray) ∨
      (c = ']' ∧ t = .closeArray) ∨ (c = '\x7b' ∧ t = .openObject) ∨
        (c = '\x7d' ∧ t = .closeObject) := by
  have step : ReadState.stepBetween c = (.between, [t]) := mark.step
  unfold ReadState.stepBetween at step
  split at step
  · cases step
  · split at step
    · cases step
    · split at step <;> cases step <;> simp

theorem Marks.char_eq {c d : Char} {t : Token} (first : Marks c t) (second : Marks d t) :
    c = d := by
  rcases first.cases with ⟨rfl, rfl⟩ | ⟨rfl, rfl⟩ | ⟨rfl, rfl⟩ | ⟨rfl, rfl⟩ | ⟨rfl, rfl⟩ |
    ⟨rfl, rfl⟩ <;> simpa [eq_comm] using second.cases

/-! ### Proper tokens -/

/-- A literal word or a number; strings, arrays and objects are no words. -/
def Token.IsProper : Token → Prop
  | .scalar v => v.tokens = [.scalar v]
  | _ => True

theorem wordToken_cases (word : List Char) :
    wordToken word = .broken ∨
      ∃ v : Value, wordToken word = .scalar v ∧ v.tokens = [.scalar v] := by
  unfold wordToken
  split
  · exact .inr ⟨_, rfl, rfl⟩
  · split
    · exact .inr ⟨_, rfl, rfl⟩
    · split
      · exact .inr ⟨_, rfl, rfl⟩
      · split
        · exact .inr ⟨_, rfl, rfl⟩
        · exact .inl rfl

theorem isProper_wordToken (word : List Char) : (wordToken word).IsProper := by
  rcases wordToken_cases word with broken | ⟨v, scalar, alone⟩
  · rw [broken]
    trivial
  · rw [scalar]
    exact alone

theorem Marks.isProper {c : Char} {t : Token} (mark : Marks c t) : t.IsProper := by
  rcases mark.cases with ⟨_, rfl⟩ | ⟨_, rfl⟩ | ⟨_, rfl⟩ | ⟨_, rfl⟩ | ⟨_, rfl⟩ | ⟨_, rfl⟩ <;> trivial

theorem isProper_of_mem_stepBetween {c : Char} {t : Token}
    (member : t ∈ (ReadState.stepBetween c).2) : t.IsProper := by
  rcases stepBetween_cases c with quiet | broken | ⟨mark, marks⟩
  · simp [quiet] at member
  · rw [broken, List.mem_singleton] at member
    rw [member]
    trivial
  · have step : ReadState.stepBetween c = (.between, [mark]) := marks.step
    rw [step, List.mem_singleton] at member
    exact member ▸ marks.isProper

theorem isProper_of_mem_step {state : ReadState} {c : Char} {t : Token}
    (member : t ∈ (tokenReader.step state c).2) : t.IsProper := by
  rcases step_cases state c with quiet | broken | ⟨text, string⟩ | ⟨rfl, _⟩ | ⟨seen, rfl, ended⟩
  · simp [quiet] at member
  · rw [broken, List.mem_singleton] at member
    rw [member]
    trivial
  · rw [string, List.mem_singleton] at member
    rw [member]
    trivial
  · exact isProper_of_mem_stepBetween member
  · simp only [tokenReader, ReadState.step, ended, Bool.false_eq_true, if_false,
      List.mem_cons] at member
    rcases member with rfl | member
    · exact isProper_wordToken _
    · exact isProper_of_mem_stepBetween member

theorem isProper_of_mem_run {state : ReadState} {text : List Char} {t : Token}
    (member : t ∈ tokenReader.run state text) : t.IsProper := by
  induction text generalizing state with
  | nil =>
    -- A word is a token when the text ends, and anything else that is open is broken.
    cases state with
    | between => cases member
    | word seen =>
      rw [List.mem_singleton.mp member]
      exact isProper_wordToken _
    | _ =>
      rw [List.mem_singleton.mp member]
      trivial
  | cons c rest ih =>
    rw [Transducer.run, List.mem_append] at member
    exact member.elim isProper_of_mem_step ih

/-! ### One list of tokens for a value -/

namespace Value

theorem itemTokens_append_singleton (items : List Value) (v : Value) :
    itemTokens (items ++ [v]) =
      (items.flatMap fun item => item.tokens ++ [.comma]) ++ v.tokens := by
  induction items with
  | nil => rfl
  | cons item rest ih =>
    have behind : rest ++ [v] ≠ [] := by simp
    obtain ⟨next, more, shown⟩ := List.exists_cons_of_ne_nil behind
    rw [shown] at ih
    rw [List.cons_append, shown, itemTokens_cons_cons, ih]
    simp

theorem memberTokens_append_singleton (members : List (Option String × Value))
    (member : Option String × Value) :
    memberTokens (members ++ [member]) =
      (members.flatMap fun m => memberTokens [m] ++ [.comma]) ++ memberTokens [member] := by
  induction members with
  | nil => rfl
  | cons first rest ih =>
    have behind : rest ++ [member] ≠ [] := by simp
    obtain ⟨next, more, shown⟩ := List.exists_cons_of_ne_nil behind
    rw [shown] at ih
    rw [List.cons_append, shown, memberTokens_cons_cons, ih]
    simp [memberTokens]

end Value

namespace BuildState

/-- The tokens of the members before the one that comes next. -/
def tokensBefore (before : List (Option String × Value)) : List Token :=
  .openObject :: before.reverse.flatMap fun member => Value.memberTokens [member] ++ [.comma]

/-- The tokens of the arrays and objects that are open, up to where a value comes next. -/
def stackTokens : List Frame → List Token
  | [] => []
  | .items before :: stack =>
    stackTokens stack ++ .openArray :: before.reverse.flatMap fun v => v.tokens ++ [.comma]
  | .members before name :: stack =>
    stackTokens stack ++ tokensBefore before ++ [.string name, .colon]

/-- All tokens that lead to a state. -/
def tokens : BuildState → List Token
  | .value stack _ => stackTokens stack
  | .key stack before _ => stackTokens stack ++ tokensBefore before
  | .colon stack before name => stackTokens stack ++ tokensBefore before ++ [.string name]
  | .complete stack v => stackTokens stack ++ v.tokens
  | .failed => []

/-- A step that is not refused adds its token. -/
theorem tokens_step {s : BuildState} {t : Token} (proper : t.IsProper)
    (accepted : s.step t ≠ .failed) : (s.step t).tokens = s.tokens ++ [t] := by
  revert accepted
  fun_cases step s t
  case case1 stack first v =>
    -- Only a scalar that is no string, array or object is its own single token.
    have alone : v.tokens = [.scalar v] := proper
    simp [tokens, alone]
  case case13 => exact fun accepted => absurd rfl accepted
  all_goals
    simp [tokens, stackTokens, tokensBefore, Value.tokens, Value.itemTokens, Value.memberTokens,
      Value.itemTokens_append_singleton, Value.memberTokens_append_singleton]

theorem foldl_failed (ts : List Token) : ts.foldl step .failed = .failed := by
  induction ts with
  | nil => rfl
  | cons t rest ih => exact ih

theorem tokens_foldl {s : BuildState} {ts : List Token} (proper : ∀ t ∈ ts, t.IsProper)
    (accepted : ts.foldl step s ≠ .failed) : (ts.foldl step s).tokens = s.tokens ++ ts := by
  induction ts generalizing s with
  | nil => simp
  | cons t rest ih =>
    obtain ⟨first, others⟩ := List.forall_mem_cons.mp proper
    -- What is refused once is refused for good.
    have step : s.step t ≠ .failed := by
      intro refused
      rw [List.foldl_cons, refused, foldl_failed] at accepted
      exact accepted rfl
    rw [List.foldl_cons, ih others accepted, tokens_step first step, List.append_assoc]
    rfl

theorem eq_complete_of_result? {s : BuildState} {v : Value} (done : s.result? = some v) :
    s = .complete [] v := by
  unfold result? at done
  split at done
  · rw [Option.some.inj done]
  · cases done

theorem foldl_of_broken {s : BuildState} {ts : List Token} (broken : Token.broken ∈ ts) :
    ts.foldl step s = .failed := by
  induction ts generalizing s with
  | nil => cases broken
  | cons t rest ih =>
    rcases List.mem_cons.mp broken with rfl | later
    · have refused : s.step .broken = .failed := by cases s <;> simp [step]
      rw [List.foldl_cons, refused, foldl_failed]
    · exact ih later

end BuildState

theorem ofTokens?_eq_some_iff {ts : List Token} (proper : ∀ t ∈ ts, t.IsProper) {v : Value} :
    ofTokens? ts = some v ↔ ts = v.tokens := by
  constructor
  · intro read
    -- The tokens that lead to a complete value are its own.
    have done := BuildState.eq_complete_of_result? read
    have led := BuildState.tokens_foldl proper (by rw [done]; exact nofun)
    rw [done] at led
    simpa [BuildState.tokens, BuildState.stackTokens] using led.symm
  · rintro rfl
    rw [ofTokens?, BuildState.foldl_tokens]
    rfl

/-- A text is read as a value exactly if it has the tokens of the value. -/
theorem read?_eq_some_iff {text : String} {v : Value} :
    read? text = some v ↔ tokens text.toList = v.tokens :=
  ofTokens?_eq_some_iff fun _ => isProper_of_mem_run

theorem broken_not_mem_tokens (v : Value) : Token.broken ∉ v.tokens := by
  intro broken
  have built := BuildState.foldl_tokens v [] false
  rw [BuildState.foldl_of_broken broken] at built
  cases built

/-! ### Texts on both sides of a mark -/

theorem Marks.ne_broken {c : Char} {t : Token} (mark : Marks c t) : t ≠ .broken := by
  rintro rfl
  simpa using mark.cases

theorem Marks.ne_string {c : Char} {t : Token} (mark : Marks c t) (text : Option String) :
    t ≠ .string text := by
  rintro rfl
  simpa using mark.cases

theorem Marks.ne_wordToken {c : Char} {t : Token} (mark : Marks c t) (word : List Char) :
    t ≠ wordToken word := by
  rcases wordToken_cases word with broken | ⟨v, scalar, _⟩
  · rw [broken]
    exact mark.ne_broken
  · rw [scalar]
    rintro rfl
    simpa using mark.cases

/-- A text that is not broken is read as its tokens wherever it stands. -/
theorem spells_tokens {text : List Char} (unbroken : Token.broken ∉ tokens text) :
    Spells text (tokens text) := by
  intro rest ended
  rw [tokens, Transducer.run_eq] at unbroken
  rw [tokens, Transducer.run_append, tokenReader.run_eq .between text, List.append_assoc]
  congr 1
  cases state : tokenReader.after .between text with
  | between => rfl
  | word seen => rw [run_word_end ended]; rfl
  | _ =>
    -- A string that is open at the end of the text breaks it.
    rw [state] at unbroken
    exact absurd (List.mem_append_right _ (List.mem_singleton_self _)) unbroken

theorem tokens_cons_mark {c : Char} {t : Token} (mark : Marks c t) (text : List Char) :
    tokens (c :: text) = t :: tokens text := by
  rw [tokens, Transducer.run, mark.step]
  rfl

theorem tokens_append_mark {c : Char} {t : Token} (mark : Marks c t) {first : List Char}
    (unbroken : Token.broken ∉ tokens first) (second : List Char) :
    tokens (first ++ c :: second) = tokens first ++ t :: tokens second := by
  have ended : EndsWord (c :: second) := by simpa [EndsWord] using mark.apart
  rw [← tokens_cons_mark mark]
  exact spells_tokens unbroken _ ended

/-- The text can be cut at the character: before it stand the tokens `ts`, and behind it `us`. -/
def IsCut (c : Char) (state : ReadState) (text : List Char) (ts us : List Token) : Prop :=
  ∃ first second, text = first ++ c :: second ∧ tokenReader.run state first = ts ∧
    tokens second = us

section Cuts

variable {c x : Char} {t : Token} {state : ReadState} {rest : List Char} {ts us : List Token}

theorem IsCut.cons (cut : IsCut c (tokenReader.step state x).1 rest ts us) :
    IsCut c state (x :: rest) ((tokenReader.step state x).2 ++ ts) us := by
  obtain ⟨first, second, rfl, before, after⟩ := cut
  refine ⟨x :: first, second, rfl, ?_, after⟩
  rw [Transducer.run, before]

theorem exists_of_cons_eq_append {other : Token} {later : List Token} (apart : t ≠ other)
    (whole : other :: later = ts ++ t :: us) :
    ∃ behind, ts = other :: behind ∧ later = behind ++ t :: us := by
  rcases List.cons_eq_append_iff.mp whole with ⟨_, same⟩ | found
  · exact absurd (List.cons.inj same).1 apart
  · exact found

/-- No mark is written when the text ends. -/
theorem Marks.run_nil_ne (mark : Marks c t) : tokenReader.run state [] ≠ ts ++ t :: us := by
  intro read
  cases state with
  | between => simp [Transducer.run, tokenReader, ReadState.finish] at read
  | word seen =>
    obtain ⟨behind, _, none⟩ := exists_of_cons_eq_append (mark.ne_wordToken _) read
    simp at none
  | _ =>
    obtain ⟨behind, _, none⟩ := exists_of_cons_eq_append mark.ne_broken read
    simp at none

/-- A step that writes nothing leaves the cut to the rest. -/
theorem isCut_of_quiet (quiet : (tokenReader.step state x).2 = [])
    (ih : ∀ {ts}, tokenReader.run (tokenReader.step state x).1 rest = ts ++ t :: us →
      IsCut c (tokenReader.step state x).1 rest ts us)
    (read : tokenReader.run state (x :: rest) = ts ++ t :: us) :
    IsCut c state (x :: rest) ts us := by
  rw [Transducer.run, quiet, List.nil_append] at read
  have cut := (ih read).cons
  rwa [quiet, List.nil_append] at cut

/-- A step that writes another token than the one of the cut leaves it to the rest as well. -/
theorem isCut_of_other {other : Token} (writes : (tokenReader.step state x).2 = [other])
    (apart : t ≠ other)
    (ih : ∀ {ts}, tokenReader.run (tokenReader.step state x).1 rest = ts ++ t :: us →
      IsCut c (tokenReader.step state x).1 rest ts us)
    (read : tokenReader.run state (x :: rest) = ts ++ t :: us) :
    IsCut c state (x :: rest) ts us := by
  rw [Transducer.run, writes, List.singleton_append] at read
  obtain ⟨later, rfl, behind⟩ := exists_of_cons_eq_append apart read
  have cut := (ih behind).cons
  rwa [writes, List.singleton_append] at cut

theorem isCut_between (mark : Marks c t)
    (ih : ∀ {ts}, tokenReader.run (tokenReader.step .between x).1 rest = ts ++ t :: us →
      IsCut c (tokenReader.step .between x).1 rest ts us)
    (read : tokenReader.run .between (x :: rest) = ts ++ t :: us) :
    IsCut c .between (x :: rest) ts us := by
  rcases stepBetween_cases x with quiet | broken | ⟨m, marks⟩
  · exact isCut_of_quiet quiet ih read
  · exact isCut_of_other broken mark.ne_broken ih read
  · by_cases same : t = m
    · subst same
      -- The cut is here, unless tokens stand before it.
      rw [Transducer.run, marks.step] at read
      rcases List.cons_eq_append_iff.mp read with ⟨rfl, here⟩ | ⟨later, rfl, behind⟩
      · exact ⟨[], rest, by rw [marks.char_eq mark]; rfl, rfl, (List.cons.inj here).2.symm⟩
      · have cut := (ih (by rw [marks.step]; exact behind)).cons
        rwa [marks.step] at cut
    · exact isCut_of_other (congrArg Prod.snd marks.step) same ih read

/-- Where a word ends, it is a token at once, and the character is read as one between tokens. -/
theorem isCut_of_word_end (mark : Marks c t) {seen : List Char} (ended : isWordPart x = false)
    (ih : ∀ {state ts}, tokenReader.run state rest = ts ++ t :: us → IsCut c state rest ts us)
    (read : tokenReader.run (.word seen) (x :: rest) = ts ++ t :: us) :
    IsCut c (.word seen) (x :: rest) ts us := by
  have next : EndsWord (x :: rest) := by simpa [EndsWord] using ended
  rw [run_word_end next] at read
  obtain ⟨later, rfl, behind⟩ := exists_of_cons_eq_append (mark.ne_wordToken _) read
  obtain ⟨first, second, cut, before, after⟩ := isCut_between mark ih behind
  refine ⟨first, second, cut, ?_, after⟩
  have boundary : EndsWord first := by
    intro y head
    refine next y ?_
    rw [cut, List.head?_append, Option.mem_def.mp head]
    rfl
  rw [run_word_end boundary, before]

/-- At each token of a mark the text can be cut. -/
theorem isCut_of_run_eq (mark : Marks c t) {text : List Char}
    (read : tokenReader.run state text = ts ++ t :: us) : IsCut c state text ts us := by
  induction text generalizing state ts with
  | nil => exact absurd read mark.run_nil_ne
  | cons x rest ih =>
    rcases step_cases state x with quiet | broken | ⟨text, string⟩ | ⟨rfl, _⟩ | ⟨seen, rfl, ended⟩
    · exact isCut_of_quiet quiet ih read
    · exact isCut_of_other broken mark.ne_broken ih read
    · exact isCut_of_other (congrArg Prod.snd string) (mark.ne_string text) ih read
    · exact isCut_between mark ih read
    · exact isCut_of_word_end mark ended ih read

end Cuts

/-! ### Objects -/

theorem tokens_blanks_append {front : List Char} (blank : ∀ c ∈ front, isSpace c = true)
    (text : List Char) : tokens (front ++ text) = tokens text := by
  induction front with
  | nil => rfl
  | cons c rest ih =>
    obtain ⟨space, others⟩ := List.forall_mem_cons.mp blank
    rw [List.cons_append, tokens, Transducer.run, step_between_space space]
    exact ih others

theorem tokens_of_blank {text : List Char} (blank : ∀ c ∈ text, isSpace c = true) :
    tokens text = [] := by
  simpa [tokens, Transducer.run, tokenReader, ReadState.finish] using tokens_blanks_append blank []

private theorem between_of_step {state : ReadState} {c : Char}
    (quiet : tokenReader.step state c = (.between, [])) :
    state = .between ∧ isSpace c = true := by
  cases state with
  | between =>
    refine ⟨rfl, ?_⟩
    replace quiet : ReadState.stepBetween c = (.between, []) := quiet
    unfold ReadState.stepBetween at quiet
    split at quiet
    · assumption
    · split at quiet
      · cases quiet
      · split at quiet <;> cases quiet
  | _ =>
    simp only [tokenReader, ReadState.step] at quiet
    repeat' split at quiet
    all_goals simp at quiet

private theorem between_of_run {state : ReadState} {text : List Char}
    (empty : tokenReader.run state text = []) :
    state = .between ∧ ∀ c ∈ text, isSpace c = true := by
  induction text generalizing state with
  | nil => cases state <;> simp [Transducer.run, tokenReader, ReadState.finish] at empty ⊢
  | cons c rest ih =>
    rw [Transducer.run, List.append_eq_nil_iff] at empty
    obtain ⟨next, blank⟩ := ih empty.2
    obtain ⟨between, space⟩ := between_of_step (Prod.ext next empty.1)
    exact ⟨between, List.forall_mem_cons.mpr ⟨space, blank⟩⟩

theorem blank_of_tokens {text : List Char} (empty : tokens text = []) :
    ∀ c ∈ text, isSpace c = true :=
  (between_of_run empty).2

/-- The text is `core` with blanks around it. -/
def IsPadded (text core : List Char) : Prop :=
  ∃ front back, (∀ c ∈ front ++ back, isSpace c = true) ∧ text = front ++ core ++ back

theorem tokens_of_isPadded {text core : List Char} (padded : IsPadded text core)
    (unbroken : Token.broken ∉ tokens core) : tokens text = tokens core := by
  obtain ⟨front, back, blank, rfl⟩ := padded
  obtain ⟨ahead, behind⟩ := List.forall_mem_append.mp blank
  have ended : EndsWord back := by
    intro c head
    rw [← Bool.not_eq_true]
    intro part
    have space := behind c (List.mem_of_mem_head? head)
    rw [isSpace_eq_false part] at space
    cases space
  have spelled : tokens (core ++ back) = tokens core ++ tokens back :=
    spells_tokens unbroken back ended
  rw [List.append_assoc, tokens_blanks_append ahead, spelled, tokens_of_blank behind,
    List.append_nil]

theorem read?_of_isPadded {text core : String} {v : Value}
    (padded : IsPadded text.toList core.toList) (read : read? core = some v) :
    read? text = some v := by
  rw [read?_eq_some_iff] at read ⊢
  rw [tokens_of_isPadded padded (read ▸ broken_not_mem_tokens v), read]

/-- A member of an object as texts: its key and its value, each with the blanks around it. -/
structure MemberText where
  key : String
  value : String

namespace MemberText

def chars (part : MemberText) : List Char := part.key.toList ++ ':' :: part.value.toList

/-- The texts are read as the member. -/
structure Reads (part : MemberText) (member : Option String × Value) : Prop where
  key : read? part.key = some (.string member.1)
  value : read? part.value = some member.2

end MemberText

/-- The text is an object with these members: braces around them, and commas between them. -/
def IsObject (text : String) (parts : List MemberText) : Prop :=
  IsPadded text.toList ('\x7b' :: ([','].intercalate (parts.map (·.chars)) ++ ['\x7d']))

theorem broken_not_mem_members (members : List (Option String × Value)) :
    Token.broken ∉ Value.memberTokens members := by
  intro broken
  exact broken_not_mem_tokens (.object members) (by simp [Value.tokens, broken])

theorem tokens_eq_member_iff {text : List Char} {member : Option String × Value} :
    tokens text = Value.memberTokens [member] ↔
      ∃ part : MemberText, part.Reads member ∧ text = part.chars := by
  constructor
  · intro read
    have whole : tokens text = [.string member.1] ++ .colon :: member.2.tokens := read
    obtain ⟨key, value, rfl, named, shown⟩ := isCut_of_run_eq .colon whole
    refine ⟨⟨.ofList key, .ofList value⟩, ⟨?_, ?_⟩, by simp [MemberText.chars]⟩
    · rw [read?_eq_some_iff, String.toList_ofList]
      exact named
    · rw [read?_eq_some_iff, String.toList_ofList]
      exact shown
  · rintro ⟨⟨key, value⟩, ⟨named, shown⟩, rfl⟩
    rw [read?_eq_some_iff] at named shown
    have unbroken : Token.broken ∉ tokens key.toList := named ▸ broken_not_mem_tokens _
    rw [MemberText.chars, tokens_append_mark .colon unbroken, named, shown]
    rfl

theorem tokens_eq_members_iff {text : List Char} {member : Option String × Value}
    {members : List (Option String × Value)} :
    tokens text = Value.memberTokens (member :: members) ↔
      ∃ parts, List.Forall₂ MemberText.Reads parts (member :: members) ∧
        text = [','].intercalate (parts.map (·.chars)) := by
  induction members generalizing member text with
  | nil =>
    simp only [tokens_eq_member_iff, List.forall₂_cons_right_iff, List.forall₂_nil_right_iff]
    constructor
    · rintro ⟨part, reads, rfl⟩
      exact ⟨[part], ⟨part, [], reads, rfl, rfl⟩, by simp⟩
    · rintro ⟨_, ⟨part, _, reads, rfl, rfl⟩, rfl⟩
      exact ⟨part, reads, by simp⟩
  | cons next rest ih =>
    have whole : Value.memberTokens (member :: next :: rest) =
        Value.memberTokens [member] ++ .comma :: Value.memberTokens (next :: rest) := rfl
    constructor
    · intro read
      obtain ⟨first, second, rfl, alone, others⟩ := isCut_of_run_eq .comma (read.trans whole)
      obtain ⟨part, reads, rfl⟩ := tokens_eq_member_iff.mp alone
      obtain ⟨parts, behind, rfl⟩ := ih.mp others
      obtain ⟨head, tail, _, _, rfl⟩ := List.forall₂_cons_right_iff.mp behind
      exact ⟨part :: head :: tail, .cons reads behind, by simp [List.intercalate_cons_cons]⟩
    · rintro ⟨_, reads, rfl⟩
      obtain ⟨part, _, first, behind, rfl⟩ := List.forall₂_cons_right_iff.mp reads
      obtain ⟨head, tail, _, _, rfl⟩ := List.forall₂_cons_right_iff.mp behind
      have alone := tokens_eq_member_iff.mpr ⟨part, first, rfl⟩
      have others := ih.mpr ⟨head :: tail, behind, rfl⟩
      have unbroken : Token.broken ∉ tokens part.chars := alone ▸ broken_not_mem_members [member]
      have joined := tokens_append_mark .comma unbroken
        ([','].intercalate ((head :: tail).map (·.chars)))
      rw [alone, others, ← whole] at joined
      rw [← joined]
      simp [List.intercalate_cons_cons]

/-- A text is read as an object exactly if it is an object of members that are read as those. -/
theorem read?_eq_object_iff {text : String} {members : List (Option String × Value)}
    (filled : members ≠ []) :
    read? text = some (.object members) ↔
      ∃ parts, IsObject text parts ∧ List.Forall₂ MemberText.Reads parts members := by
  obtain ⟨member, rest, rfl⟩ := List.exists_cons_of_ne_nil filled
  rw [read?_eq_some_iff]
  constructor
  · intro read
    have led : tokens text.toList =
        [] ++ .openObject :: (Value.memberTokens (member :: rest) ++ [.closeObject]) := read
    -- The outer braces cut the text in three, and no token stands outside of them.
    obtain ⟨front, inner, whole, outside, inside⟩ := isCut_of_run_eq .openObject led
    obtain ⟨middle, back, rfl, shown, behind⟩ := isCut_of_run_eq .closeObject inside
    obtain ⟨parts, reads, rfl⟩ := tokens_eq_members_iff.mp shown
    refine ⟨parts, ⟨front, back, ?_, by simpa using whole⟩, reads⟩
    exact List.forall_mem_append.mpr ⟨blank_of_tokens outside, blank_of_tokens behind⟩
  · rintro ⟨parts, object, reads⟩
    have inside := tokens_eq_members_iff.mpr ⟨parts, reads, rfl⟩
    have unbroken := inside ▸ broken_not_mem_members (member :: rest)
    have core : tokens ('\x7b' :: ([','].intercalate (parts.map (·.chars)) ++ ['\x7d'])) =
        (Value.object (member :: rest)).tokens := by
      rw [tokens_cons_mark .openObject, tokens_append_mark .closeObject unbroken, inside]
      rfl
    rw [tokens_of_isPadded object (core ▸ broken_not_mem_tokens _), core]

end FormulaFields.Json
