/-!
The arguments of the program. Options may stand before the command or after it; each is given at
most once on either side, and the one after the command counts. An option that takes a path may have
it attached with an equals sign or as the next argument, which then must not look like an option.
After a double dash everything is taken as it is, and so it is after `help`, which may name one
command. What no option gives may come from the environment.
-/
namespace FormulaFields.CommandLine

/-- The options that take a path. -/
inductive PathOption where
  | operators
  | alphas
  | config
  deriving DecidableEq, Repr

namespace PathOption

def all : List PathOption := [.operators, .alphas, .config]

def name : PathOption → String
  | .operators => "operators"
  | .alphas => "alphas"
  | .config => "config"

def ofName? (name : String) : Option PathOption := all.find? (·.name == name)

/-- The variable that stands in for the option. -/
def environmentName : PathOption → String
  | .operators => "ALPHA_FIELDS_OPERATORS"
  | .alphas => "ALPHA_FIELDS_ALPHAS"
  | .config => "ALPHA_FIELDS_CONFIG"

end PathOption

/-- Why the arguments do not ask for a run. -/
inductive Halt where
  | version
  | help
  /-- The arguments break the rules. -/
  | misuse
  deriving DecidableEq, Repr

inductive CommandName where
  | check
  | lookup
  | help
  deriving DecidableEq, Repr

def CommandName.ofWord? (word : String) : Option CommandName :=
  if word = "check" then some .check
  else if word = "lookup" then some .lookup
  else if word = "help" then some .help
  else none

inductive Command where
  | check (input : String)
  | lookup (fields : List String)
  deriving DecidableEq, Repr

/-- The options on one side of the command. -/
structure Options where
  paths : List (PathOption × String) := []
  json : Bool := false
  deriving DecidableEq, Repr

namespace Options

def path? (o : Options) (option : PathOption) : Option String := o.paths.lookup option

/-- A path is given once and is not empty. -/
def setPath (o : Options) (option : PathOption) (path : String) : Except Halt Options :=
  if (o.path? option).isSome || path.isEmpty then .error .misuse
  else .ok { o with paths := (option, path) :: o.paths }

def setJson (o : Options) : Except Halt Options :=
  if o.json then .error .misuse else .ok { o with json := true }

end Options

/-- An argument by its form. -/
inductive Argument where
  | doubleDash
  | long (name : String) (attached : Option String)
  /-- A single dash and at least one character, of which the first is given. -/
  | short (first : Char)
  | plain (text : String)
  deriving DecidableEq, Repr

def Argument.ofString (text : String) : Argument :=
  match text.toList with
  | ['-', '-'] => .doubleDash
  | '-' :: '-' :: rest =>
    .long (String.ofList (rest.takeWhile (· != '=')))
      (if rest.contains '=' then some (String.ofList (rest.dropWhile (· != '=')).tail) else none)
  | '-' :: first :: _ => .short first
  | _ => .plain text

/-- What has been read of the arguments. -/
structure Progress where
  before : Options := {}
  command : Option CommandName := none
  after : Options := {}
  /-- The words after the command, the last first. -/
  words : List String := []
  /-- The option whose path comes next. -/
  awaiting : Option PathOption := none
  /-- No more options come: a double dash or the command `help` is behind. -/
  verbatim : Bool := false
  deriving DecidableEq, Repr

namespace Progress

/-- Change the options on the side of the command where the reader stands. -/
def onSide (p : Progress) (change : Options → Except Halt Options) : Except Halt Progress :=
  if p.command.isNone then do return { p with before := ← change p.before }
  else do return { p with after := ← change p.after }

/-- Whether a command takes a word after those it has: a check takes one, a lookup any number, and
help takes the name of one command. -/
def takesWord (p : Progress) (word : String) : CommandName → Bool
  | .check => p.words.isEmpty
  | .lookup => true
  | .help => p.words.isEmpty && (CommandName.ofWord? word).isSome

/-- The first word names the command, and the others belong to it. -/
def addWord (p : Progress) (word : String) : Except Halt Progress :=
  match p.command with
  | none =>
    match CommandName.ofWord? word with
    | some name => .ok { p with command := some name, verbatim := name == .help }
    | none => .error .misuse
  | some name =>
    if p.takesWord word name then .ok { p with words := word :: p.words } else .error .misuse

def addLong (p : Progress) (name : String) (attached : Option String) : Except Halt Progress :=
  match PathOption.ofName? name, attached with
  | some option, some path => p.onSide (·.setPath option path)
  | some option, none => .ok { p with awaiting := some option }
  | none, some _ => .error .misuse
  | none, none =>
    if name = "json" then p.onSide (·.setJson)
    else if name = "help" then .error .help
    else if name = "version" && p.command.isNone then .error .version
    else .error .misuse

/-- Only before the command is the version given. -/
def addShort (p : Progress) (first : Char) : Except Halt Progress :=
  if first = 'h' then .error .help
  else if first = 'V' && p.command.isNone then .error .version
  else .error .misuse

def addPath (p : Progress) (option : PathOption) (text : String) : Except Halt Progress :=
  match Argument.ofString text with
  | .plain path => do
    let p ← p.onSide (·.setPath option path)
    return { p with awaiting := none }
  | _ => .error .misuse

def add (p : Progress) (text : String) : Except Halt Progress :=
  if p.verbatim then p.addWord text
  else match p.awaiting with
    | some option => p.addPath option text
    | none =>
      match Argument.ofString text with
      | .doubleDash => if p.command.isNone then .error .misuse else .ok { p with verbatim := true }
      | .long name attached => p.addLong name attached
      | .short first => p.addShort first
      | .plain word => p.addWord word

/-- The command when all arguments are read. -/
def finish (p : Progress) : Except Halt Command :=
  match p.awaiting, p.command, p.words.reverse with
  | none, some .check, [input] => .ok (.check input)
  | none, some .lookup, field :: rest => .ok (.lookup (field :: rest))
  | none, some .help, _ => .error .help
  | _, _, _ => .error .misuse

end Progress

/-- The variables that the program looks at. -/
structure Environment where
  path? : PathOption → Option String
  depthLimit : Option String

/-- The variable that may hold a depth limit. -/
def depthLimitName : String := "ALPHA_FIELDS_MAX_DEPTH"

/-- What the program is to do. -/
structure Invocation where
  path? : PathOption → Option String
  json : Bool
  command : Command

/-- An empty variable is as wrong as an empty path, wherever an option leaves room for it. -/
def environmentFits (env : Environment) (p : Progress) : Bool :=
  PathOption.all.all fun option =>
    env.path? option != some "" ||
      ((p.before.path? option).isSome && (p.after.path? option).isSome)

/-- What the arguments and the environment ask for. -/
def Invocation.ofArguments (env : Environment) (arguments : List String) :
    Except Halt Invocation := do
  let p ← arguments.foldlM Progress.add {}
  let command ← p.finish
  if environmentFits env p then
    return {
      path? := fun option => p.after.path? option <|> p.before.path? option <|> env.path? option
      json := p.before.json || p.after.json
      command }
  else .error .misuse

end FormulaFields.CommandLine
