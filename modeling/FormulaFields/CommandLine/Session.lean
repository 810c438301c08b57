import FormulaFields.Alpha.Listing
import FormulaFields.CommandLine.Arguments
import FormulaFields.Operator.Listing
import FormulaFields.Report
import FormulaFields.Settings.Document

/-!
A run of the program, from its arguments to what it prints. The settings are read first, then the
operators, then the alphas; the first of these that fails ends the run, and nothing is printed but
its fault. How a reader words why it refuses a text is left to the reader.
-/
namespace FormulaFields.CommandLine

inductive Failure where
  | settings (path : String) (error : SettingsFault)
  | operatorsNotGiven
  | unreadable (path : String) (reason : ReadError)
  | operators (path : String) (error : CatalogFault)
  | alphas (path : String)
  | alphasNotGiven
  deriving DecidableEq, Repr

/-- What the readers of JSON and TOML say of a text that they refuse. -/
structure Reasons where
  settings : String → String
  operators : String → String
  alphas : String → String

/-- Readers that say no more than that they refuse a text. -/
def Reasons.plain : Reasons where
  settings _ := "the text does not describe settings"
  operators _ := "the text is no listing of operators"
  alphas _ := "the text is no listing of alphas"

/-- What a reader says of the text at a path. -/
def reasonAt (files : Files) (path : String) (reason : String → String) : String :=
  (files path).toOption.elim "" reason

/-- The wording of a failure. Where a text cannot be read or is malformed, the reason stands twice:
in the fault and as its cause. -/
def Failure.message (files : Files) (reasons : Reasons) : Failure → String
  | .settings path (.unreadable reason) =>
    (SettingsFault.unreadable reason).message path ++ ": " ++ reason.message
  | .settings path .malformed =>
    let reason := reasonAt files path reasons.settings
    SettingsFault.malformed.message path reason ++ ": " ++ reason
  | .settings path error => error.message path
  | .operatorsNotGiven =>
    "--operators is required (or set " ++ PathOption.operators.environmentName ++ ")"
  | .unreadable path reason => "reading " ++ path ++ ": " ++ reason.message
  | .operators path .malformed =>
    let reason := reasonAt files path reasons.operators
    "loading operators from " ++ path ++ ": " ++ CatalogFault.malformed.message reason ++ ": " ++
      reason
  | .operators path error => "loading operators from " ++ path ++ ": " ++ error.message
  | .alphas path =>
    let reason := reasonAt files path reasons.alphas
    "loading alphas from " ++ path ++ ": " ++ CatalogFault.malformed.message reason ++ ": " ++
      reason
  | .alphasNotGiven => "lookup needs --alphas"

/-- What a run works with. -/
structure Session where
  settings : Settings
  vocabulary : Vocabulary
  listing : Option (List Alpha)

namespace Session

variable (files : Files)

def readSettings (path? : Option String) : Except Failure Settings :=
  match path? with
  | none => .ok .default
  | some path => (Settings.load files path).mapError (.settings path)

def readText (path : String) : Except Failure String :=
  (files path).mapError (.unreadable path)

def readCatalog (path? : Option String) : Except Failure Catalog :=
  match path? with
  | none => .error .operatorsNotGiven
  | some path => do (Catalog.ofText (← readText files path)).mapError (.operators path)

def readListing (path? : Option String) : Except Failure (Option (List Alpha)) :=
  match path? with
  | none => .ok none
  | some path => do
    match AlphaListing.ofText? (← readText files path) with
    | some alphas => .ok (some alphas)
    | none => .error (.alphas path)

def start (env : Environment) (i : Invocation) : Except Failure Session := do
  let settings := (← readSettings files (i.path? .config)).withEnvironment env.depthLimit
  let catalog ← readCatalog files (i.path? .operators)
  let listing ← readListing files (i.path? .alphas)
  return { settings, vocabulary := .ofCatalog catalog settings, listing }

end Session

/-- A report as one JSON value or as lines. -/
def printed (json : Bool) (value : Json.Value) (lines : List String) : String :=
  if json then value.indented ++ "\n" else Report.ofLines lines

/-- What a command prints. -/
def Session.answer (s : Session) (json : Bool) : Command → Except Failure String
  | .check input =>
    let report := check s.vocabulary s.settings.platform s.listing input
    .ok (printed json report.toValue (report.lines s.settings.platform))
  | .lookup fields =>
    match s.listing with
    | none => .error .alphasNotGiven
    | some alphas =>
      let report := lookup s.vocabulary alphas fields
      .ok (printed json report.toValue (report.lines s.settings.platform))

/-- What a run may have noticed without failing. -/
inductive Warning where
  /-- A link leads to no listed alpha, so that the input is taken for a formula. -/
  | strayLink (id : String)
  deriving DecidableEq, Repr

def Warning.message : Warning → String
  | .strayLink id => "alpha not found in listing, checking input as an expression id=" ++ id

def Session.warnings (s : Session) : Command → List Warning
  | .check input =>
    (strayLink? s.settings.platform input (s.listing.getD [])).toList.map .strayLink
  | .lookup _ => []

/-- What a run leaves behind. -/
structure Outcome where
  code : UInt32
  stdout : String := ""
  /-- What stands there but for the log, whose lines carry times and pass a filter. -/
  stderr : String := ""
  /-- What is handed to the log. -/
  warnings : List Warning := []
  deriving DecidableEq, Repr

def Session.outcome (s : Session) (i : Invocation) : Except Failure Outcome := do
  return { code := 0, stdout := ← s.answer i.json i.command, warnings := s.warnings i.command }

def Failure.outcome (files : Files) (reasons : Reasons) (failure : Failure) : Outcome :=
  { code := 1, stderr := "Error: " ++ failure.message files reasons ++ "\n" }

/-- The run that an invocation asks for. -/
def Invocation.run (files : Files) (reasons : Reasons) (env : Environment) (i : Invocation) :
    Outcome :=
  match (Session.start files env i).bind (·.outcome i) with
  | .ok outcome => outcome
  | .error failure => failure.outcome files reasons

def versionText : String := "alpha-fields 0.1.0\n"

def usageText : String :=
  "Usage: alpha-fields [--operators FILE] [--alphas FILE] [--config FILE] [--json] COMMAND\n\n" ++
  "Commands:\n" ++
  "  check INPUT       the fields of a formula, or of the alpha that an id or link names\n" ++
  "  lookup FIELD...   the alphas that use any of the fields\n"

def Halt.outcome : Halt → Outcome
  | .version => { code := 0, stdout := versionText }
  | .help => { code := 0, stdout := usageText }
  | .misuse => { code := 2, stderr := usageText }

/-- All the program does, given its arguments, its environment, the files that it may read and the
wording of its readers. -/
def run (files : Files) (env : Environment) (arguments : List String)
    (reasons : Reasons := .plain) : Outcome :=
  match Invocation.ofArguments env arguments with
  | .ok invocation => invocation.run files reasons env
  | .error halt => halt.outcome

end FormulaFields.CommandLine
