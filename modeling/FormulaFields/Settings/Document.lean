import FormulaFields.Settings.Basic
import FormulaFields.Toml.Document

/-!
Settings as a TOML document. Everything in it is optional, and nothing else may stand in it.
-/
namespace FormulaFields

open Toml (Value)

namespace SettingsDocument

/-- An integer that is not negative. -/
def natural? (v : Value) : Option Nat := v.integer?.bind Int.toNat?

def positions? (v : Value) : Option (List Nat) := v.items?.bind (·.mapM natural?)

/-- An entry that may be missing, and then has the value `absent`. -/
def entry? {α : Type} (entries : List (String × Value)) (key : String) (absent : α)
    (decode : Value → Option α) : Option α :=
  match entries.lookup key with
  | some v => decode v
  | none => some absent

def onlyKeys (keys : List String) (entries : List (String × Value)) : Bool :=
  entries.all fun entry => keys.contains entry.1

/-- An override: a table, or an array of the positions and perhaps a flag. -/
def rule? : Value → Option Rule
  | .table entries => do
    guard (onlyKeys ["positions", "ignore_named"] entries)
    let positions ← (entries.lookup "positions").bind positions?
    let ignoreNamed ← entry? entries "ignore_named" true Value.boolean?
    some { positions, ignoreNamed }
  | .array (positions :: rest) => do
    let positions ← positions? positions
    let ignoreNamed ← (rest.head?.map Value.boolean?).getD (some true)
    some { positions, ignoreNamed }
  | _ => none

def overrides? (v : Value) : Option RuleBook := do
  let entries ← v.entries?
  let rules ← entries.mapM fun (name, rule) => do some (name, ← rule? rule)
  some (.ofList rules)

def ofEntries? (entries : List (String × Value)) : Option SettingsDocument := do
  guard (onlyKeys ["max_depth", "platform_addr", "overrides"] entries)
  let depthLimit ← entry? entries "max_depth" defaultDepthLimit natural?
  let platform ← entry? entries "platform_addr" defaultPlatform Value.string?
  let overrides ← entry? entries "overrides" ∅ overrides?
  some { depthLimit, platform, overrides }

def ofText? (text : String) : Option SettingsDocument := (Toml.read? text).bind ofEntries?

end SettingsDocument

namespace Settings

def ofText (text : String) : Except SettingsFault Settings :=
  match SettingsDocument.ofText? text with
  | some document => ofDocument document
  | none => .error .malformed

/-- The settings in a file. -/
def load (files : Files) (path : String) : Except SettingsFault Settings :=
  match files path with
  | .ok text => ofText text
  | .error reason => .error (.unreadable reason)

end Settings

end FormulaFields
