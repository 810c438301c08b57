import FormulaFields.File
import FormulaFields.Operator.Rule
import FormulaFields.Text.Blank
import FormulaFields.Text.Digits

/-!
Settings of a session. A document states them; what it states is refused when no depth is allowed
or when an override names no position, so settings never do either. The environment may set the
depth limit to any other positive number of one machine word.
-/
namespace FormulaFields

inductive SettingsFault where
  | unreadable (reason : ReadError)
  /-- The text does not describe settings. -/
  | malformed
  | zeroDepthLimit
  | emptyOverride (name : String)
  deriving DecidableEq, Repr

namespace SettingsFault

/-- What stands before the reason why a TOML text is refused. -/
def malformedTitle : String := "invalid config toml: "

/-- The wording of a fault in the settings that were read from `path`. What the reader says of a
malformed text is its `reason`. -/
def message (path : String) (fault : SettingsFault) (reason : String := "") : String :=
  match fault with
  | .unreadable reason => "failed to read config \x60" ++ path ++ "\x60: " ++ reason.message
  | .malformed => malformedTitle ++ reason
  | .zeroDepthLimit => "max_depth must be >= 1"
  | .emptyOverride name => "override rule for \x60" ++ name ++ "\x60 has no field positions"

end SettingsFault

/-- How deep expressions are followed unless told otherwise. -/
def defaultDepthLimit : Nat := 50

def defaultPlatform : String := "https://platform.worldquantbrain.com"

/-- Settings as a document states them. -/
structure SettingsDocument where
  depthLimit : Nat := defaultDepthLimit
  /-- The address that links to alphas begin with. -/
  platform : String := defaultPlatform
  overrides : RuleBook := ∅

structure Settings extends SettingsDocument where
  depthLimit_ne_zero : depthLimit ≠ 0
  overrides_nonempty : overrides.toList.all (fun entry => !entry.2.isEmpty) = true

namespace Settings

/-- The first override, in the order of names, that has no positions. -/
def emptyOverride? (overrides : RuleBook) : Option String :=
  (overrides.toList.find? fun entry => entry.2.isEmpty).map (·.1)

theorem all_nonempty_of_emptyOverride?_eq_none {overrides : RuleBook}
    (absent : emptyOverride? overrides = none) :
    overrides.toList.all (fun entry => !entry.2.isEmpty) = true := by
  simpa [emptyOverride?] using absent

def ofDocument (document : SettingsDocument) : Except SettingsFault Settings :=
  if positive : document.depthLimit = 0 then .error .zeroDepthLimit
  else
    match h : emptyOverride? document.overrides with
    | some name => .error (.emptyOverride name)
    | none => .ok ⟨document, positive, all_nonempty_of_emptyOverride?_eq_none h⟩

def default : Settings where
  toSettingsDocument := {}
  depthLimit_ne_zero := by decide
  overrides_nonempty := by decide +kernel

instance : Inhabited Settings := ⟨default⟩

/-- The least number that no machine word holds. -/
def wordLimit : Nat := Nat.pow 2 64

/-- A positive decimal number of one machine word, blanks around it and a plus before it allowed. -/
def readDepthLimit? (text : String) : Option Nat :=
  let signed := Text.trim text.toList
  let digits := if signed.head? = some '+' then signed.tail else signed
  if !digits.isEmpty && digits.all (·.isDigit) then
    let value := Text.numberOf 10 digits
    if 0 < value && value < wordLimit then some value else none
  else none

/-- The settings with the depth limit that the environment names; what is no depth limit counts as
not set. -/
def withEnvironment (s : Settings) (stated : Option String) : Settings :=
  match stated.bind readDepthLimit? with
  | some limit =>
    if positive : limit = 0 then s
    else ⟨{ s.toSettingsDocument with depthLimit := limit }, positive, s.overrides_nonempty⟩
  | none => s

/-- The configured overrides over the built-in ones. -/
def overrideRules (s : Settings) : RuleBook := RuleBook.layer s.overrides .builtin

end Settings

end FormulaFields
