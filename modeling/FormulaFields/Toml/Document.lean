import FormulaFields.Toml.Moment
import FormulaFields.Toml.Number
import FormulaFields.Toml.Quoted
import FormulaFields.Toml.Table

/-!
TOML documents. The text is read into lines, which are headers or entries, and the lines are then
put together into one table. Arrays and inline tables lie one in another only so deep, which also
bounds the reading of values.
-/
namespace FormulaFields.Toml

open Text (Reader)
open Text.Reader

/-- Values with so many arrays and inline tables one in another are refused, and so are keys with so
many parts. -/
def nestingLimit : Nat := 80

def isBareKeyPart (c : Char) : Bool := c.isAlphanum || c == '_' || c == '-'

def bareKey : Reader String := do
  let chars ← takeWhile isBareKeyPart
  guardThat !chars.isEmpty
  return String.ofList chars

/-- The parts of a key, with points between them. -/
def key : Reader Key := do
  let parts ← pieces do
    spaces
    let part ← Quoted.line <|> bareKey
    spaces
    return ([part], ← took (char '.'))
  guardThat (parts.length < nestingLimit)
  match parts.reverse with
  | last :: before => return ⟨before.reverse, last⟩
  | [] => failure

/-- A key, an equals sign and what `value` reads. -/
def entry (value : Reader Value) : Reader (Key × Value) := do
  let k ← key
  char '='
  spaces
  return (k, ← value)

/-- An item of an array, up to the comma or bracket after it; a comma may be the last. -/
def arrayStep (item : Reader Value) : Reader (List Value × Bool) := do
  gap
  if ← took (char ']') then return ([], false)
  let v ← item
  gap
  if ← took (char ',') then return ([v], true)
  char ']'
  return ([v], false)

/-- An entry of an inline table, up to the comma or bracket after it. -/
def inlineStep (item : Reader Value) : Reader (List (Key × Value) × Bool) := do
  let e ← entry item
  spaces
  if ← took (char ',') then return ([e], true)
  char '\x7d'
  return ([e], false)

/-- The inline table with these entries. -/
def tableOf? (entries : List (Key × Value)) : Option Value :=
  (entries.foldlM (fun t e => Table.addEntry e.1 e.2 t) Table.empty).map
    fun t => .table t.toEntries

def inlineEntries (item : Reader Value) : Reader (List (Key × Value)) := do
  spaces
  if ← took (char '\x7d') then return []
  pieces (inlineStep item)

/-- What begins with a sign or a digit: a date or time, else a float, else an integer. -/
def numeric : Reader Value :=
  (do Moment.any; return .moment) <|> (do Number.float; return .float) <|>
    (do return .integer (← Number.integer))

/-- A value that is no array and no inline table. -/
def scalar : Reader Value := do
  match ← peek? with
  | some '\x22' => return .string (← Quoted.any)
  | some '\x27' => return .string (← Quoted.any)
  | some 't' => do word ['t', 'r', 'u', 'e']; return .boolean true
  | some 'f' => do word ['f', 'a', 'l', 's', 'e']; return .boolean false
  | some 'i' => do Number.float; return .float
  | some 'n' => do Number.float; return .float
  | _ => numeric

def array (item : Reader Value) : Reader Value := do
  char '['
  return .array (← pieces (arrayStep item))

def inlineTable (item : Reader Value) : Reader Value := do
  char '\x7b'
  match tableOf? (← inlineEntries item) with
  | some v => return v
  | none => failure

/-- A value, with so many arrays and inline tables one in another allowed. -/
def value : Nat → Reader Value
  | 0 => scalar
  | levels + 1 => do
    match ← peek? with
    | some '[' => array (value levels)
    | some '\x7b' => inlineTable (value levels)
    | _ => scalar

inductive Line where
  | table (key : Key)
  | element (key : Key)
  | entry (key : Key) (value : Value)
  deriving Repr

/-- The end of a line, or of the text. -/
def lineEnd : Reader Unit := newline <|> (do guardThat (← peek?).isNone)

/-- What may follow on the line of a header or an entry. -/
def lineRest : Reader Unit := do
  spaces
  let _ ← took comment
  lineEnd

def header : Reader Line := do
  char '['
  if ← took (char '[') then
    let k ← key
    char ']'
    char ']'
    return .element k
  else
    let k ← key
    char ']'
    return .table k

def lineStep : Reader (List Line × Bool) := do
  spaces
  match ← peek? with
  | none => return ([], false)
  | some '#' => do comment; lineEnd; return ([], true)
  | some '\n' => do newline; return ([], true)
  | some '\r' => do newline; return ([], true)
  | some '[' => do
    let line ← header
    lineRest
    return ([line], true)
  | _ => do
    let e ← entry (value (nestingLimit - 1))
    lineRest
    return ([.entry e.1 e.2], true)

/-- A document on the way, with the path from its top to the table that entries go into. -/
structure Draft where
  top : Table
  current : List String

/-- A draft with one more line. An entry goes into the table of the last header. -/
def Draft.add (d : Draft) : Line → Option Draft
  | .table key => (d.top.addTable key).map (⟨·, key.path ++ [key.last]⟩)
  | .element key => (d.top.addElement key).map (⟨·, key.path ++ [key.last]⟩)
  | .entry key value =>
    (Table.changeAt .implied (Table.addEntry key value) d.current d.top).map (⟨·, d.current⟩)

/-- A mark that may stand before the first character of a text. -/
def byteOrderMark : Char := '\uFEFF'

/-- The entries of the document that a TOML text denotes, if it is one. -/
def read? (text : String) : Option (List (String × Value)) := do
  let marked := text.toList
  let chars := if marked.head? = some byteOrderMark then marked.tail else marked
  let lines ← whole? (pieces lineStep) chars
  let draft ← lines.foldlM Draft.add ⟨Table.empty, []⟩
  some draft.top.toEntries

end FormulaFields.Toml
