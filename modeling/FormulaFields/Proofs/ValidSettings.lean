import FormulaFields.Proofs.ByteOrder
import FormulaFields.Proofs.Refusals
import Mathlib.Data.Nat.Digits.Defs

/-!
Settings stay valid. A document is accepted when it allows a depth and all its overrides name
positions. Otherwise it is refused, for a depth of zero in the first place, and then for the first
name, in the order of bytes, whose override names none. The environment replaces the depth limit by
a positive number of one machine word and by nothing else, so what was accepted would be accepted
again. Main statement: `Settings.valid_withEnvironment`.
-/
namespace FormulaFields

namespace Text

/-- The number that decimal digits denote, of which the last counts ones. -/
def decimal (digits : List Char) : Nat :=
  Nat.ofDigits 10 (digits.reverse.map fun d => d.toNat - '0'.toNat)

theorem isDigit_iff_le {c : Char} : c.isDigit = true ↔ '0' ≤ c ∧ c ≤ '9' := by
  rw [Char.isDigit, Bool.and_eq_true, decide_eq_true_eq, decide_eq_true_eq]
  rfl

theorem numberOf_eq_decimal {digits : List Char} (decimals : ∀ d ∈ digits, d.isDigit = true) :
    numberOf 10 digits = decimal digits := by
  -- From the end: one more digit multiplies what is before it by ten.
  induction digits using List.reverseRecOn with
  | nil => rfl
  | append_singleton rest d ih =>
    have last : digitValue d = d.toNat - '0'.toNat := by
      simp [digitValue, digitValue?, decimals d (by simp)]
    have before := ih fun e member => decimals e (List.mem_append_left _ member)
    rw [numberOf] at before
    rw [numberOf, List.foldl_append, List.foldl_cons, List.foldl_nil, before, last, decimal,
      decimal, List.reverse_append, List.reverse_singleton, List.singleton_append, List.map_cons,
      Nat.ofDigits_cons, Nat.add_comm]

end Text

namespace Settings

/-! ### Documents -/

/-- A depth is allowed, and every override names a position. -/
structure Valid (document : SettingsDocument) : Prop where
  positive : 1 ≤ document.depthLimit
  filled : ∀ (name : String) (rule : Rule), document.overrides[name]? = some rule →
    rule.positions ≠ []

/-- The first thing wrong with a document: no depth is allowed, or else some overrides name no
position, and the one with the least name counts. -/
inductive FirstFault (document : SettingsDocument) : SettingsFault → Prop where
  | zeroDepthLimit (zero : document.depthLimit = 0) : FirstFault document .zeroDepthLimit
  | emptyOverride {name : String} {rule : Rule} (positive : 1 ≤ document.depthLimit)
      (stated : document.overrides[name]? = some rule) (empty : rule.positions = [])
      (least : ∀ (other : String) (rule : Rule), document.overrides[other]? = some rule →
        rule.positions = [] → other ≠ name → Text.bytes name < Text.bytes other) :
      FirstFault document (.emptyOverride name)

theorem refuses_iff_firstFault {document : SettingsDocument} {fault : SettingsFault} :
    Refuses document fault ↔ FirstFault document fault := by
  constructor
  · intro refused
    cases refused with
    | zeroDepthLimit zero => exact .zeroDepthLimit zero
    | emptyOverride positive stated empty first =>
      refine .emptyOverride (Nat.one_le_iff_ne_zero.mpr positive) stated empty ?_
      intro other rule found none different
      rw [← Text.lt_iff_bytes_lt]
      refine lt_of_le_of_ne (String.not_lt.mp fun earlier => ?_) different.symm
      exact first other earlier rule found none
  · intro fault
    cases fault with
    | zeroDepthLimit zero => exact .zeroDepthLimit zero
    | emptyOverride positive stated empty least =>
      refine .emptyOverride (Nat.one_le_iff_ne_zero.mp positive) stated empty ?_
      intro earlier before rule found none
      have behind := Text.lt_iff_bytes_lt.mpr (least earlier rule found none before.ne)
      exact String.lt_asymm before behind

theorem valid_toSettingsDocument (s : Settings) : Valid s.toSettingsDocument where
  positive := Nat.one_le_iff_ne_zero.mpr s.depthLimit_ne_zero
  filled := fun _ _ => positions_ne_nil s.overrides_nonempty

theorem exists_ofDocument_iff {document : SettingsDocument} :
    (∃ s, ofDocument document = .ok s) ↔ Valid document := by
  constructor
  · rintro ⟨s, accepted⟩
    rw [← (of_ofDocument accepted).1]
    exact s.valid_toSettingsDocument
  · intro valid
    cases accepted : ofDocument document with
    | ok s => exact ⟨s, rfl⟩
    | error fault =>
      cases ofDocument_eq_error_iff.mp accepted with
      | zeroDepthLimit zero => exact absurd zero (Nat.one_le_iff_ne_zero.mp valid.positive)
      | emptyOverride _ stated empty _ => exact absurd empty (valid.filled _ _ stated)

/-! ### The environment -/

/-- Without the blanks around it, the text is digits, perhaps with a plus before them, and they
denote a positive number of one machine word. -/
def StatesLimit (text : String) (limit : Nat) : Prop :=
  ∃ digits, (Text.trim text.toList = digits ∨ Text.trim text.toList = '+' :: digits) ∧
    digits ≠ [] ∧ (∀ d ∈ digits, '0' ≤ d ∧ d ≤ '9') ∧ Text.decimal digits = limit ∧
    1 ≤ limit ∧ limit ≤ 2 ^ 64 - 1

private theorem unsigned_eq_iff {signed digits : List Char} (unsigned : digits.head? ≠ some '+') :
    (if signed.head? = some '+' then signed.tail else signed) = digits ↔
      signed = digits ∨ signed = '+' :: digits := by
  cases signed with
  | nil => simp
  | cons c rest =>
    by_cases plus : c = '+'
    · subst plus
      have other : '+' :: rest ≠ digits := by
        rintro rfl
        exact unsigned rfl
      simp [other]
    · simp [plus]

private theorem head?_ne_plus {digits : List Char} (decimals : ∀ d ∈ digits, d.isDigit = true) :
    digits.head? ≠ some '+' := by
  intro plus
  have digit := decimals '+' (List.mem_of_head? plus)
  exact absurd digit (by decide)

theorem readDepthLimit?_eq_some_iff {text : String} {limit : Nat} :
    readDepthLimit? text = some limit ↔ StatesLimit text limit := by
  have word : wordLimit = 2 ^ 64 := rfl
  rw [readDepthLimit?, StatesLimit]
  dsimp only
  generalize Text.trim text.toList = signed
  generalize unsigned : (if signed.head? = some '+' then signed.tail else signed) = digits
  simp only [Option.ite_none_right_eq_some, Bool.and_eq_true, Bool.not_eq_true', decide_eq_true_eq,
    List.isEmpty_eq_false_iff, List.all_eq_true, ← Text.isDigit_iff_le, Option.some.injEq, word]
  constructor
  · rintro ⟨⟨shown, decimals⟩, ⟨positive, fits⟩, rfl⟩
    refine ⟨digits, (unsigned_eq_iff (head?_ne_plus decimals)).mp unsigned, shown, decimals,
      (Text.numberOf_eq_decimal decimals).symm, positive, by omega⟩
  · rintro ⟨digits', signs, shown, decimals, rfl, positive, fits⟩
    obtain rfl : digits = digits' :=
      unsigned.symm.trans ((unsigned_eq_iff (head?_ne_plus decimals)).mpr signs)
    rw [Text.numberOf_eq_decimal decimals]
    exact ⟨⟨shown, decimals⟩, ⟨positive, by omega⟩, rfl⟩

/-- What the environment makes of settings: a limit that it states counts, and only that. -/
structure Follows (s : Settings) (stated : Option String) (result : Settings) : Prop where
  limited : ∀ text ∈ stated, ∀ limit, StatesLimit text limit → result.depthLimit = limit
  unlimited : (∀ text ∈ stated, ∀ limit, ¬ StatesLimit text limit) → result = s
  changed : result.depthLimit ≠ s.depthLimit →
    ∃ text ∈ stated, StatesLimit text result.depthLimit
  platform : result.platform = s.platform
  overrides : result.overrides = s.overrides
  valid : Valid result.toSettingsDocument
  accepted : ofDocument result.toSettingsDocument = .ok result

theorem follows_withEnvironment (s : Settings) (stated : Option String) :
    Follows s stated (s.withEnvironment stated) := by
  have document := s.withEnvironment_eq stated
  have limit : (s.withEnvironment stated).depthLimit =
      (stated.bind readDepthLimit?).getD s.depthLimit := congrArg (·.depthLimit) document
  constructor
  case limited =>
    rintro text ⟨⟩ other states
    rw [limit, Option.bind_some, readDepthLimit?_eq_some_iff.mpr states, Option.getD_some]
  case unlimited =>
    intro none
    have unread : stated.bind readDepthLimit? = Option.none := by
      rw [Option.bind_eq_none_iff]
      intro text given
      rw [Option.eq_none_iff_forall_ne_some]
      exact fun other read => none text given other (readDepthLimit?_eq_some_iff.mp read)
    rw [withEnvironment, unread]
  case changed =>
    intro different
    rw [limit] at different ⊢
    cases read : stated.bind readDepthLimit? with
    | none => simp [read] at different
    | some other =>
      obtain ⟨text, given, states⟩ := Option.bind_eq_some_iff.mp read
      exact ⟨text, given, readDepthLimit?_eq_some_iff.mp states⟩
  case platform => exact congrArg (·.platform) document
  case overrides => exact congrArg (·.overrides) document
  case valid => exact valid_toSettingsDocument _
  case accepted => exact ofDocument_toSettingsDocument _

/-- A text that states a document is read as settings when the document is valid, and as these; else
it is refused for the first thing wrong with the document. No environment makes settings invalid:
of all that it may hold only a positive number of one machine word counts, and nothing but the
depth limit is changed. -/
theorem valid_withEnvironment :
    (∀ text document, SettingsDocument.ofText? text = some document →
      ((∃ s, ofText text = .ok s) ↔ Valid document) ∧
        (∀ s, ofText text = .ok s → s.toSettingsDocument = document) ∧
        ∀ fault, ofText text = .error fault ↔ FirstFault document fault) ∧
      ∀ (s : Settings) (stated : Option String), Follows s stated (s.withEnvironment stated) := by
  refine ⟨fun text document decoded => ?_, follows_withEnvironment⟩
  have read : ofText text = ofDocument document := by rw [ofText, decoded]
  rw [read]
  refine ⟨exists_ofDocument_iff, fun s accepted => (of_ofDocument accepted).1, fun fault => ?_⟩
  rw [ofDocument_eq_error_iff, refuses_iff_firstFault]

private theorem mem_keys_of_getElem? {overrides : RuleBook} {name : String} {rule : Rule}
    (stated : overrides[name]? = some rule) : name ∈ overrides.keys :=
  Std.ExtTreeMap.mem_keys.mpr (Std.ExtTreeMap.mem_iff_isSome_getElem?.mpr (by simp [stated]))

theorem valid_withEnvironment_add_rate :
    ofText "[overrides]\nrate = [[]]\nadd = [[]]" = .error (.emptyOverride "add") ∧
      ∃ s, ofText "max_depth = 12" = .ok s ∧
        (s.withEnvironment (some " +007\n")).depthLimit = 7 ∧
        s.withEnvironment (some "18446744073709551616") = s := by
  constructor
  · have one : (SettingsDocument.ofText? "[overrides]\nrate = [[]]\nadd = [[]]").map (fun d =>
        (decide (1 ≤ d.depthLimit), d.overrides.keys, d.overrides["add"]?.map (·.positions))) =
        some (true, ["add", "rate"], some []) := by
      decide +kernel
    obtain ⟨document, decoded, shape⟩ := Option.map_eq_some_iff.mp one
    simp only [Prod.mk.injEq, decide_eq_true_eq] at shape
    obtain ⟨positive, names, positions⟩ := shape
    obtain ⟨rule, stated, empty⟩ := Option.map_eq_some_iff.mp positions
    refine ((valid_withEnvironment.1 _ _ decoded).2.2 _).mpr
      (.emptyOverride positive stated empty fun other rule found _ different => ?_)
    obtain rfl : other = "rate" := by simpa [names, different] using mem_keys_of_getElem? found
    decide
  · have one : (SettingsDocument.ofText? "max_depth = 12").map
        (fun d => (decide (1 ≤ d.depthLimit), d.overrides.keys)) = some (true, []) := by
      decide +kernel
    obtain ⟨document, decoded, shape⟩ := Option.map_eq_some_iff.mp one
    simp only [Prod.mk.injEq, decide_eq_true_eq] at shape
    obtain ⟨positive, names⟩ := shape
    have valid : Valid document :=
      ⟨positive, fun name rule found => by simpa [names] using mem_keys_of_getElem? found⟩
    obtain ⟨s, accepted⟩ := (valid_withEnvironment.1 _ _ decoded).1.mpr valid
    refine ⟨s, accepted, ?_, ?_⟩
    · refine (valid_withEnvironment.2 s _).limited _ rfl 7 ?_
      exact readDepthLimit?_eq_some_iff.mp (by decide +kernel)
    · refine (valid_withEnvironment.2 s _).unlimited ?_
      rintro _ ⟨⟩ limit states
      have read := readDepthLimit?_eq_some_iff.mpr states
      rw [show readDepthLimit? "18446744073709551616" = none by decide +kernel] at read
      cases read

end Settings

end FormulaFields
