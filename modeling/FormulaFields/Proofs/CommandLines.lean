import FormulaFields.CommandLine.Arguments
import Mathlib.Data.List.TakeWhile

/-!
What a command line says. Its arguments say paths, a wish for JSON and words, one part after the
other, and there is only one way to read them so. An invocation follows what is said last for each
option, and the environment where nothing is said. Main statement: `exists_says`.
-/
namespace FormulaFields.CommandLine

theorem bind_eq_ok {Fault Value Result : Type} {x : Except Fault Value}
    {next : Value → Except Fault Result} {result : Result} :
    x >>= next = .ok result ↔ ∃ value, x = .ok value ∧ next value = .ok result := by
  cases x <;> simp [bind, Except.bind]

/-! ### Parts -/

/-- What one argument says, or an option and the path behind it. -/
inductive Part where
  | path (option : PathOption) (path : String)
  | json
  | word (text : String)
  deriving DecidableEq, Repr

/-- A dash and at least one more character. -/
def LooksLikeOption (text : String) : Prop := ∃ c rest, text.toList = '-' :: c :: rest

/-- The arguments say the parts in order. Behind a double dash there are only words. -/
inductive Says : List String → List Part → Prop where
  | nil : Says [] []
  | verbatim (words : List String) : Says ("--" :: words) (words.map .word)
  | attached (option : PathOption) (path : String) {rest : List String} {parts : List Part}
      (behind : Says rest parts) :
      Says (("--" ++ option.name ++ "=" ++ path) :: rest) (.path option path :: parts)
  | apart (option : PathOption) {path : String} (plain : ¬ LooksLikeOption path)
      {rest : List String} {parts : List Part} (behind : Says rest parts) :
      Says (("--" ++ option.name) :: path :: rest) (.path option path :: parts)
  | json {rest : List String} {parts : List Part} (behind : Says rest parts) :
      Says ("--json" :: rest) (.json :: parts)
  | word {text : String} (plain : ¬ LooksLikeOption text) {rest : List String}
      {parts : List Part} (behind : Says rest parts) : Says (text :: rest) (.word text :: parts)

/-- The paths that are given for an option, in order. -/
def pathsGiven (option : PathOption) (parts : List Part) : List String :=
  parts.filterMap fun
    | .path other path => if other = option then some path else none
    | _ => none

def wordsGiven (parts : List Part) : List String :=
  parts.filterMap fun
    | .word text => some text
    | _ => none

/-! ### Forms of arguments -/

namespace Argument

theorem ofString_attached (option : PathOption) (path : String) :
    ofString ("--" ++ option.name ++ "=" ++ path) = .long option.name (some path) := by
  cases option <;>
    simp [ofString, PathOption.name, String.toList_append]

theorem ofString_apart (option : PathOption) :
    ofString ("--" ++ option.name) = .long option.name none := by
  cases option <;> rfl

theorem ofString_of_plain {text : String} (plain : ¬ LooksLikeOption text) :
    ofString text = .plain text := by
  rw [ofString]
  split
  next dashes => exact absurd ⟨'-', [], dashes⟩ plain
  next rest _ long => exact absurd ⟨'-', rest, long⟩ plain
  next rest _ first short => exact absurd ⟨_, _, short⟩ plain
  next => rfl

theorem plain_of_ofString {text word : String} (read : ofString text = .plain word) :
    text = word ∧ ¬ LooksLikeOption text := by
  rw [ofString] at read
  split at read
  case h_4 other =>
    cases read
    refine ⟨rfl, ?_⟩
    rintro ⟨c, rest, chars⟩
    exact other c rest chars
  all_goals cases read

theorem eq_of_ofString_long {text name : String} {attached : Option String}
    (read : ofString text = .long name attached) :
    text = "--" ++ name ++ (attached.map ("=" ++ ·)).getD "" := by
  rw [ofString] at read
  split at read
  case h_2 rest _ chars =>
    cases read
    apply String.toList_injective
    rw [chars]
    by_cases sign : '=' ∈ rest
    · -- The name ends before the first equals sign, and the path begins behind it.
      obtain ⟨before, path, rfl, absent⟩ := List.eq_append_cons_of_mem sign
      have part : ∀ c ∈ before, (c != '=') = true := by
        intro c member
        exact bne_iff_ne.mpr fun same => absent (same ▸ member)
      simp [String.toList_append, List.takeWhile_append_of_pos part,
        List.dropWhile_append_of_pos part]
    · have whole : rest.takeWhile (· != '=') = rest := by
        apply List.takeWhile_eq_self_iff.mpr
        intro c member
        exact bne_iff_ne.mpr fun same => sign (same ▸ member)
      simp [String.toList_append, sign, whole]
  all_goals cases read

theorem eq_of_ofString_doubleDash {text : String} (read : ofString text = .doubleDash) :
    text = "--" := by
  rw [ofString] at read
  split at read
  case h_1 chars => exact String.toList_injective chars
  all_goals cases read

end Argument

/-- What arguments say, read from their forms. -/
def partsOf : List String → List Part
  | [] => []
  | text :: rest =>
    match Argument.ofString text with
    | .doubleDash => rest.map .word
    | .plain word => .word word :: partsOf rest
    | .short _ => partsOf rest
    | .long name attached =>
      match PathOption.ofName? name, attached with
      | some option, some path => .path option path :: partsOf rest
      | some option, none =>
        match rest with
        | [] => []
        | path :: later => .path option path :: partsOf later
      | none, _ => .json :: partsOf rest

theorem PathOption.ofName?_name (option : PathOption) : ofName? option.name = some option := by
  cases option <;> rfl

theorem PathOption.name_of_ofName? {name : String} {option : PathOption}
    (named : ofName? name = some option) : option.name = name := by
  simpa using List.find?_some named

theorem Says.partsOf_eq {arguments : List String} {parts : List Part}
    (said : Says arguments parts) : partsOf arguments = parts := by
  induction said with
  | nil => rfl
  | verbatim words => rfl
  | attached option path _ ih =>
    simp [partsOf, Argument.ofString_attached, PathOption.ofName?_name, ih]
  | apart option _ _ ih =>
    simp [partsOf, Argument.ofString_apart, PathOption.ofName?_name, ih]
  | json _ ih =>
    have form : Argument.ofString "--json" = .long "json" none := rfl
    have other : PathOption.ofName? "json" = none := rfl
    simp [partsOf, form, other, ih]
  | word plain _ ih => simp [partsOf, Argument.ofString_of_plain plain, ih]

/-- Arguments can be read in one way only. -/
theorem Says.unique {arguments : List String} {parts other : List Part}
    (said : Says arguments parts) (again : Says arguments other) : parts = other :=
  said.partsOf_eq.symm.trans again.partsOf_eq

/-! ### Reading -/

def CommandName.word : CommandName → String
  | .check => "check"
  | .lookup => "lookup"
  | .help => "help"

theorem CommandName.word_of_ofWord? {word : String} {name : CommandName}
    (named : ofWord? word = some name) : name.word = word := by
  rw [ofWord?] at named
  split at named
  next same => cases named; exact same.symm
  · split at named
    next same => cases named; exact same.symm
    · split at named
      next same => cases named; exact same.symm
      · cases named

namespace Options

theorem path?_setPath {o o' : Options} {option : PathOption} {path : String}
    (set : o.setPath option path = .ok o') :
    o'.json = o.json ∧
      ∀ other, o'.path? other = if option = other then some path else o.path? other := by
  rw [setPath] at set
  split at set
  · cases set
  · cases set
    refine ⟨rfl, fun other => ?_⟩
    by_cases same : option = other
    · simp [path?, same]
    · have apart : (other == option) = false := beq_false_of_ne (Ne.symm same)
      simp [path?, List.lookup_cons, same, apart]

theorem json_setJson {o o' : Options} (set : o.setJson = .ok o') :
    o'.json = true ∧ o'.paths = o.paths := by
  rw [setJson] at set
  split at set
  · cases set
  · cases set
    exact ⟨rfl, rfl⟩

end Options

namespace Progress

variable {p q r : Progress}

/-- The path that counts for an option. -/
def given (p : Progress) (option : PathOption) : Option String :=
  (p.after.path? option).or (p.before.path? option)

def saidJson (p : Progress) : Bool := p.before.json || p.after.json

/-- The word of the command and those behind it. -/
def saidWords (p : Progress) : List String :=
  p.command.elim [] fun name => name.word :: p.words.reverse

/-- Before the command is read, nothing is known of what stands behind it. -/
structure Orderly (p : Progress) : Prop where
  after : p.command = none → p.after = {}
  words : p.command = none → p.words = []
  verbatim : p.verbatim = true → p.command ≠ none

/-- From one point of reading to another the parts were read. -/
structure Gains (p q : Progress) (parts : List Part) : Prop where
  path : ∀ option, q.given option = (pathsGiven option parts).getLast?.or (p.given option)
  json : q.saidJson = (p.saidJson || parts.contains .json)
  words : q.saidWords = p.saidWords ++ wordsGiven parts

theorem Gains.nil (paths : ∀ option, q.given option = p.given option)
    (json : q.saidJson = p.saidJson) (words : q.saidWords = p.saidWords) : p.Gains q [] where
  path := paths
  json := by simp [json]
  words := by simp [words, wordsGiven]

theorem Gains.append {first second : List Part} (one : p.Gains q first) (two : q.Gains r second) :
    p.Gains r (first ++ second) where
  path option := by
    rw [two.path, one.path, pathsGiven, pathsGiven, pathsGiven, List.filterMap_append,
      List.getLast?_append, Option.or_assoc]
  json := by simp [two.json, one.json, Bool.or_assoc]
  words := by
    rw [two.words, one.words, List.append_assoc, wordsGiven, wordsGiven, wordsGiven,
      List.filterMap_append]

/-- Options change on the side of the command where the reader stands. -/
theorem onSide_eq_ok {change : Options → Except Halt Options} (changed : p.onSide change = .ok q) :
    (p.command = none ∧ ∃ o, change p.before = .ok o ∧ q = { p with before := o }) ∨
      (p.command ≠ none ∧ ∃ o, change p.after = .ok o ∧ q = { p with after := o }) := by
  rw [onSide] at changed
  split at changed
  next before =>
    obtain ⟨o, done, same⟩ := bind_eq_ok.mp changed
    cases same
    exact Or.inl ⟨Option.isNone_iff_eq_none.mp before, o, done, rfl⟩
  next behind =>
    obtain ⟨o, done, same⟩ := bind_eq_ok.mp changed
    cases same
    exact Or.inr ⟨mt Option.isNone_iff_eq_none.mpr behind, o, done, rfl⟩

theorem onSide_frame {change : Options → Except Halt Options} (changed : p.onSide change = .ok q) :
    q.command = p.command ∧ q.words = p.words ∧ q.awaiting = p.awaiting ∧
      q.verbatim = p.verbatim := by
  rcases onSide_eq_ok changed with ⟨-, o, -, rfl⟩ | ⟨-, o, -, rfl⟩ <;> exact ⟨rfl, rfl, rfl, rfl⟩

theorem saidWords_onSide {change : Options → Except Halt Options}
    (changed : p.onSide change = .ok q) : q.saidWords = p.saidWords := by
  obtain ⟨command, words, -, -⟩ := onSide_frame changed
  rw [saidWords, saidWords, command, words]

/-- A path behind the command counts, and before the command there is none behind it yet. -/
theorem given_setPath (orderly : p.Orderly) {option : PathOption} {path : String}
    (set : p.onSide (·.setPath option path) = .ok q) :
    q.saidJson = p.saidJson ∧
      ∀ other, q.given other = if option = other then some path else p.given other := by
  rcases onSide_eq_ok set with ⟨before, o, done, rfl⟩ | ⟨-, o, done, rfl⟩
  · obtain ⟨json, paths⟩ := Options.path?_setPath done
    refine ⟨by simp [saidJson, json], fun other => ?_⟩
    have unread : p.after.path? other = none := by
      rw [orderly.after before]
      rfl
    simp only [given, unread, Option.none_or, paths]
  · obtain ⟨json, paths⟩ := Options.path?_setPath done
    refine ⟨by simp [saidJson, json], fun other => ?_⟩
    by_cases same : option = other <;> simp [given, paths, same]

theorem gains_path (orderly : p.Orderly) {option : PathOption} {path : String}
    (set : p.onSide (·.setPath option path) = .ok q) : p.Gains q [.path option path] := by
  obtain ⟨json, paths⟩ := given_setPath orderly set
  refine ⟨fun other => ?_, ?_, ?_⟩
  · by_cases same : option = other <;> simp [paths, pathsGiven, same]
  · simp [json]
  · simp [saidWords_onSide set, wordsGiven]

theorem gains_json (set : p.onSide (·.setJson) = .ok q) : p.Gains q [.json] := by
  have options : (∀ other, q.given other = p.given other) ∧ q.saidJson = true := by
    rcases onSide_eq_ok set with ⟨-, o, done, rfl⟩ | ⟨-, o, done, rfl⟩
    all_goals
      obtain ⟨json, paths⟩ := Options.json_setJson done
      simp [given, saidJson, Options.path?, paths, json]
  refine ⟨fun other => ?_, ?_, ?_⟩
  · simp [options.1, pathsGiven]
  · simp [options.2]
  · simp [saidWords_onSide set, wordsGiven]

/-- The first word is the command's own, and the others stand behind it. -/
theorem gains_word (orderly : p.Orderly) {word : String} (added : p.addWord word = .ok q) :
    p.Gains q [.word word] := by
  rw [addWord] at added
  split at added
  next unread =>
    split at added
    next name named =>
      cases added
      refine ⟨fun other => ?_, ?_, ?_⟩
      · simp [given, pathsGiven]
      · simp [saidJson]
      · simp [saidWords, wordsGiven, unread, orderly.words unread,
          CommandName.word_of_ofWord? named]
    · cases added
  next name read =>
    split at added
    · cases added
      refine ⟨fun other => ?_, ?_, ?_⟩
      · simp [given, pathsGiven]
      · simp [saidJson]
      · simp [saidWords, wordsGiven, read]
    · cases added

theorem Orderly.onSide (orderly : p.Orderly) {change : Options → Except Halt Options}
    (changed : p.onSide change = .ok q) : q.Orderly := by
  rcases onSide_eq_ok changed with ⟨before, o, -, rfl⟩ | ⟨behind, o, -, rfl⟩
  · exact ⟨orderly.after, orderly.words, orderly.verbatim⟩
  · exact ⟨fun unread => absurd unread behind, orderly.words, orderly.verbatim⟩

theorem Orderly.addWord (orderly : p.Orderly) {word : String} (added : p.addWord word = .ok q) :
    q.Orderly ∧ q.command ≠ none ∧ q.awaiting = p.awaiting ∧
      (q.verbatim = p.verbatim ∨ q.command = some .help) := by
  rw [Progress.addWord] at added
  split at added
  next unread =>
    have free : p.verbatim = false := by
      by_contra verbatim
      exact orderly.verbatim (by simpa using verbatim) unread
    split at added
    next name _ =>
      cases added
      refine ⟨⟨?_, ?_, ?_⟩, ?_, rfl, ?_⟩ <;> simp [free]
      cases name <;> simp
    · cases added
  next name read =>
    split at added
    · cases added
      refine ⟨⟨?_, ?_, orderly.verbatim⟩, ?_, rfl, Or.inl rfl⟩ <;> simp [read]
    · cases added

/-- How an argument that is not awaited is taken. -/
inductive Accepts (p : Progress) (text : String) (q : Progress) : Prop where
  | doubleDash (form : text = "--") (named : p.command ≠ none)
      (next : q = { p with verbatim := true })
  | attached (option : PathOption) (path : String)
      (form : text = "--" ++ option.name ++ "=" ++ path)
      (next : p.onSide (·.setPath option path) = .ok q)
  | apart (option : PathOption) (form : text = "--" ++ option.name)
      (next : q = { p with awaiting := some option })
  | json (form : text = "--json") (next : p.onSide (·.setJson) = .ok q)
  | word (plain : ¬ LooksLikeOption text) (next : p.addWord text = .ok q)

theorem accepts_of_addLong {text name : String} {attached : Option String}
    (form : text = "--" ++ name ++ (attached.map ("=" ++ ·)).getD "")
    (added : p.addLong name attached = .ok q) : p.Accepts text q := by
  unfold addLong at added
  split at added
  next option path named =>
    rw [← PathOption.name_of_ofName? named] at form
    exact .attached option path (by simpa [String.append_assoc] using form) added
  next option named =>
    rw [← PathOption.name_of_ofName? named] at form
    exact .apart option (by simpa using form) (by cases added; rfl)
  · cases added
  · -- No path: only `json` goes on, since help and the version end the reading.
    split at added
    next same => exact .json (by simpa [same] using form) added
    · split at added
      · cases added
      · split at added <;> cases added

theorem accepts_of_add {text : String} (free : p.verbatim = false) (settled : p.awaiting = none)
    (added : p.add text = .ok q) : p.Accepts text q := by
  simp only [add, free, settled, Bool.false_eq_true, if_false] at added
  split at added
  next form =>
    split at added
    · cases added
    next named =>
      exact .doubleDash (Argument.eq_of_ofString_doubleDash form)
        (mt Option.isNone_iff_eq_none.mpr named) (by cases added; rw [← settled])
  next name attached form =>
    exact accepts_of_addLong (Argument.eq_of_ofString_long form) added
  next first form =>
    rw [addShort] at added
    split at added
    · cases added
    · split at added <;> cases added
  next word form =>
    obtain ⟨rfl, plain⟩ := Argument.plain_of_ofString form
    exact .word plain added

/-- An awaited path is the next argument. -/
theorem addPath_eq_ok {option : PathOption} {text : String}
    (added : p.addPath option text = .ok q) :
    ¬ LooksLikeOption text ∧ ∃ r, p.onSide (·.setPath option text) = .ok r ∧
      q = { r with awaiting := none } := by
  rw [addPath] at added
  split at added
  next path form =>
    obtain ⟨rfl, plain⟩ := Argument.plain_of_ofString form
    obtain ⟨r, done, same⟩ := bind_eq_ok.mp added
    cases same
    exact ⟨plain, r, done, rfl⟩
  · cases added

/-- The ways in which one argument is taken. -/
theorem add_cases {text : String} (added : p.add text = .ok q) :
    (p.verbatim = true ∧ p.addWord text = .ok q) ∨
    (p.verbatim = false ∧ ∃ option, p.awaiting = some option ∧ p.addPath option text = .ok q) ∨
    (p.verbatim = false ∧ p.awaiting = none ∧ p.Accepts text q) := by
  cases verbatim : p.verbatim with
  | true => exact Or.inl ⟨rfl, by simpa [add, verbatim] using added⟩
  | false =>
    right
    cases awaiting : p.awaiting with
    | some option =>
      exact Or.inl ⟨rfl, option, rfl, by simpa [add, verbatim, awaiting] using added⟩
    | none => exact Or.inr ⟨rfl, rfl, accepts_of_add verbatim awaiting added⟩

theorem Orderly.add (orderly : p.Orderly) {text : String} (added : p.add text = .ok q) :
    q.Orderly := by
  rcases add_cases added with ⟨-, word⟩ | ⟨-, option, -, path⟩ | ⟨-, -, accepts⟩
  · exact (orderly.addWord word).1
  · obtain ⟨-, r, done, rfl⟩ := addPath_eq_ok path
    have := orderly.onSide done
    exact ⟨this.after, this.words, this.verbatim⟩
  · cases accepts with
    | doubleDash _ named next =>
      subst next
      exact ⟨orderly.after, orderly.words, fun _ => named⟩
    | attached option path _ next => exact orderly.onSide next
    | apart option _ next =>
      subst next
      exact ⟨orderly.after, orderly.words, orderly.verbatim⟩
    | json _ next => exact orderly.onSide next
    | word _ next => exact (orderly.addWord next).1

/-- What the arguments that are still to be read say. -/
def Pending (p : Progress) (arguments : List String) (parts : List Part) : Prop :=
  if p.verbatim then parts = arguments.map .word
  else match p.awaiting with
    | none => Says arguments parts
    | some option => ∃ path rest behind, arguments = path :: rest ∧ ¬ LooksLikeOption path ∧
        Says rest behind ∧ parts = .path option path :: behind

section

variable {arguments : List String} {parts : List Part}

theorem pending_verbatim (verbatim : p.verbatim = true) :
    p.Pending arguments parts ↔ parts = arguments.map .word := by
  rw [Pending, if_pos verbatim]

theorem pending_free (free : p.verbatim = false) (settled : p.awaiting = none) :
    p.Pending arguments parts ↔ Says arguments parts := by
  rw [Pending, free, settled]
  rfl

theorem pending_awaiting {option : PathOption} (free : p.verbatim = false)
    (awaiting : p.awaiting = some option) :
    p.Pending arguments parts ↔ ∃ path rest behind, arguments = path :: rest ∧
      ¬ LooksLikeOption path ∧ Says rest behind ∧ parts = .path option path :: behind := by
  rw [Pending, free, awaiting]
  rfl

end

theorem says_of_accepts {text : String} {rest : List String} {parts : List Part}
    (orderly : p.Orderly) (free : p.verbatim = false) (settled : p.awaiting = none)
    (accepts : p.Accepts text q) (runs : q.command ≠ some .help) (pending : q.Pending rest parts) :
    ∃ first, Says (text :: rest) (first ++ parts) ∧ p.Gains q first := by
  cases accepts with
  | doubleDash form named next =>
    subst next form
    obtain rfl := (pending_verbatim rfl).mp pending
    exact ⟨[], .verbatim rest, .nil (fun _ => rfl) rfl rfl⟩
  | attached option path form next =>
    obtain ⟨-, -, awaiting, verbatim⟩ := onSide_frame next
    have behind := (pending_free (verbatim.trans free) (awaiting.trans settled)).mp pending
    subst form
    exact ⟨[.path option path], .attached option path behind, gains_path orderly next⟩
  | apart option form next =>
    subst next form
    obtain ⟨path, later, behind, rfl, plain, said, rfl⟩ :=
      (pending_awaiting (p := { p with awaiting := some option }) free rfl).mp pending
    exact ⟨[], .apart option plain said, .nil (fun _ => rfl) rfl rfl⟩
  | json form next =>
    obtain ⟨-, -, awaiting, verbatim⟩ := onSide_frame next
    have behind := (pending_free (verbatim.trans free) (awaiting.trans settled)).mp pending
    subst form
    exact ⟨[.json], .json behind, gains_json next⟩
  | word plain next =>
    obtain ⟨-, -, awaiting, verbatim⟩ := orderly.addWord next
    have free := (verbatim.resolve_right runs).trans free
    have behind := (pending_free free (awaiting.trans settled)).mp pending
    exact ⟨[.word text], .word plain behind, gains_word orderly next⟩

/-- One argument says what it adds to the parts behind it. -/
theorem pending_add {text : String} {rest : List String} {parts : List Part}
    (orderly : p.Orderly) (added : p.add text = .ok q) (runs : q.command ≠ some .help)
    (pending : q.Pending rest parts) :
    ∃ first, p.Pending (text :: rest) (first ++ parts) ∧ p.Gains q first := by
  rcases add_cases added with ⟨verbatim, word⟩ | ⟨free, option, awaiting, path⟩ |
    ⟨free, settled, accepts⟩
  · -- Behind a double dash every argument is a word.
    obtain ⟨-, -, -, same⟩ := orderly.addWord word
    have still : q.verbatim = true := (same.resolve_right runs).trans verbatim
    obtain rfl := (pending_verbatim still).mp pending
    exact ⟨[.word text], (pending_verbatim verbatim).mpr rfl, gains_word orderly word⟩
  · -- The option was read before; only with this argument does it say a path.
    obtain ⟨plain, r, done, rfl⟩ := addPath_eq_ok path
    obtain ⟨-, -, -, verbatim⟩ := onSide_frame done
    have behind : Says rest parts :=
      (pending_free (p := { r with awaiting := none }) (verbatim.trans free) rfl).mp pending
    obtain ⟨given, json, words⟩ := gains_path orderly done
    exact ⟨[.path option text],
      (pending_awaiting free awaiting).mpr ⟨text, rest, parts, rfl, plain, behind, rfl⟩,
      given, json, words⟩
  · obtain ⟨first, said, gains⟩ := says_of_accepts orderly free settled accepts runs pending
    exact ⟨first, (pending_free free settled).mpr said, gains⟩

theorem command_add {text : String} {name : CommandName} (read : p.command = some name)
    (added : p.add text = .ok q) : q.command = some name := by
  have word_keeps : ∀ {text}, p.addWord text = .ok q → q.command = some name := by
    intro text added
    simp only [addWord, read] at added
    split at added
    · cases added
      rfl
    · cases added
  rcases add_cases added with ⟨-, word⟩ | ⟨-, option, -, path⟩ | ⟨-, -, accepts⟩
  · exact word_keeps word
  · obtain ⟨-, r, done, rfl⟩ := addPath_eq_ok path
    exact (onSide_frame done).1.trans read
  · cases accepts with
    | doubleDash _ _ next => subst next; exact read
    | attached _ _ _ next => exact (onSide_frame next).1.trans read
    | apart _ _ next => subst next; exact read
    | json _ next => exact (onSide_frame next).1.trans read
    | word _ next => exact word_keeps next

theorem command_foldlM {arguments : List String} {name : CommandName}
    (read : p.command = some name) (ended : arguments.foldlM add p = .ok q) :
    q.command = some name := by
  induction arguments generalizing p with
  | nil => cases ended; exact read
  | cons text rest ih =>
    obtain ⟨r, added, ended⟩ := bind_eq_ok.mp (List.foldlM_cons.symm.trans ended)
    exact ih (command_add read added) ended

/-- Reading all arguments gains what they say. -/
theorem pending_foldlM {arguments : List String} (orderly : p.Orderly)
    (ended : arguments.foldlM add p = .ok q) (settled : q.awaiting = none)
    (runs : q.command ≠ some .help) :
    ∃ parts, p.Pending arguments parts ∧ p.Gains q parts := by
  -- Each argument says its parts in front of what those behind it say, read from where it leaves.
  induction arguments generalizing p with
  | nil =>
    cases ended
    exact ⟨[], by simp [Pending, settled, Says.nil], .nil (fun _ => rfl) rfl rfl⟩
  | cons text rest ih =>
    obtain ⟨r, added, ended⟩ := bind_eq_ok.mp (List.foldlM_cons.symm.trans ended)
    obtain ⟨parts, pending, gains⟩ := ih (orderly.add added) ended
    have still : r.command ≠ some .help := fun help => runs (command_foldlM help ended)
    obtain ⟨first, said, more⟩ := pending_add orderly added still pending
    exact ⟨first ++ parts, said, more.append gains⟩

end Progress

/-! ### Invocations -/

/-- The words that ask for a command. -/
def Command.words : Command → List String
  | .check input => ["check", input]
  | .lookup fields => "lookup" :: fields

/-- An invocation does what the parts say. The last path for an option counts, and only where none
is given the one in the environment. -/
structure Invocation.Follows (env : Environment) (parts : List Part) (i : Invocation) : Prop where
  path : ∀ option, i.path? option = (pathsGiven option parts).getLast?.or (env.path? option)
  json : i.json = parts.contains .json
  words : wordsGiven parts = i.command.words

theorem Progress.finish_eq_ok {p : Progress} {command : Command} (done : p.finish = .ok command) :
    p.awaiting = none ∧ p.command ≠ some .help ∧ p.saidWords = command.words := by
  rw [finish] at done
  split at done
  next settled named words =>
    cases done
    refine ⟨settled, by simp [named], ?_⟩
    simp [saidWords, named, words, Command.words, CommandName.word]
  next settled named words =>
    cases done
    refine ⟨settled, by simp [named], ?_⟩
    simp [saidWords, named, words, Command.words, CommandName.word]
  · cases done
  · cases done

/-- Arguments that ask for a run say parts, in one way only, and the run follows them. -/
theorem exists_says {env : Environment} {arguments : List String} {i : Invocation}
    (asked : Invocation.ofArguments env arguments = .ok i) :
    ∃ parts, Says arguments parts ∧ i.Follows env parts := by
  obtain ⟨p, ended, asked⟩ := bind_eq_ok.mp asked
  obtain ⟨command, done, asked⟩ := bind_eq_ok.mp asked
  obtain ⟨settled, runs, words⟩ := Progress.finish_eq_ok done
  have orderly : Progress.Orderly {} := ⟨fun _ => rfl, fun _ => rfl, nofun⟩
  obtain ⟨parts, said, gains⟩ := Progress.pending_foldlM orderly ended settled runs
  refine ⟨parts, said, ?_⟩
  split at asked
  · rw [← Except.ok.inj asked]
    refine ⟨fun option => ?_, ?_, ?_⟩
    · have given : p.given option = (pathsGiven option parts).getLast? := by
        rw [gains.path]
        exact Option.or_none
      rw [← given, Progress.given, Option.or_assoc]
      simp
    · simpa [Progress.saidJson] using gains.json
    · rw [← words, gains.words]
      rfl
  · cases asked

end FormulaFields.CommandLine
