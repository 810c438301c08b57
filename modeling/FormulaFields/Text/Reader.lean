/-!
Readers: functions that take a value off the front of a text, or fail. Alternatives start again
where the failed one started.
-/
namespace FormulaFields.Text

abbrev Reader := StateT (List Char) Option

namespace Reader

variable {Value : Type}

def peek? : Reader (Option Char) := fun text => some (text.head?, text)

def next : Reader Char
  | [] => none
  | c :: rest => some (c, rest)

def satisfy (test : Char → Bool) : Reader Char := do
  let c ← next
  if test c then return c else failure

def char (c : Char) : Reader Unit := do
  let _ ← satisfy (· == c)

/-- All characters of `word`, in order. -/
def word (word : List Char) : Reader Unit := word.forM char

def takeWhile (test : Char → Bool) : Reader (List Char) := fun text =>
  some (text.takeWhile test, text.dropWhile test)

/-- What `reader` reads, or nothing where it fails. -/
def optional? (reader : Reader Value) : Reader (Option Value) :=
  (some <$> reader) <|> pure none

/-- Read with `reader` if it succeeds here, and tell whether it did. -/
def took (reader : Reader Value) : Reader Bool := (do let _ ← reader; return true) <|> pure false

/-- The reader would succeed here; nothing is taken off the text. -/
def sees (reader : Reader Value) : Reader Bool := fun text => some ((reader text).isSome, text)

def guardThat (condition : Bool) : Reader Unit := if condition then pure () else failure

/-- The pieces of at most `steps` steps, of which each says whether another one follows. -/
def piecesUpTo (step : Reader (List Value × Bool)) : Nat → Reader (List Value)
  | 0 => failure
  | steps + 1 => do
    let (piece, more) ← step
    if more then return piece ++ (← piecesUpTo step steps) else return piece

/-- The pieces of all steps up to the one that says it is the last. A step that another one follows
takes at least one character, so the length of the text bounds their number. -/
def pieces (step : Reader (List Value × Bool)) : Reader (List Value) := fun text =>
  piecesUpTo step (text.length + 1) text

/-- The value of a reader that takes the whole text. -/
def whole? (reader : Reader Value) (text : List Char) : Option Value :=
  match reader text with
  | some (value, []) => some value
  | _ => none

end Reader

end FormulaFields.Text
