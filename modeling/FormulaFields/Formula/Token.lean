/-!
Tokens of a formula. A token keeps the characters it was read from, so a list of tokens holds all
that later stages look at.
-/
namespace FormulaFields.Formula

inductive Bracket where
  | round
  | square
  | curly
  deriving DecidableEq, Repr

/-- The comparisons, and the two logical connectives written with symbols. -/
inductive Connective where
  | less
  | atMost
  | greater
  | atLeast
  | same
  | differs
  | both
  | either
  deriving DecidableEq, Repr

inductive Kind where
  | name
  | number
  | quoted
  | opening (bracket : Bracket)
  | closing (bracket : Bracket)
  | comma
  | semicolon
  /-- A single equals sign: an assignment or a named argument. -/
  | equals
  | connective (op : Connective)
  /-- Any other character. -/
  | mark
  deriving DecidableEq, Repr

namespace Kind

def isConnective : Kind → Bool
  | .connective _ => true
  | _ => false

def isOpening : Kind → Bool
  | .opening _ => true
  | _ => false

def isClosing : Kind → Bool
  | .closing _ => true
  | _ => false

/-- How a token changes the depth of nesting; the three kinds of bracket count alike. -/
def shift : Kind → Int
  | .opening _ => 1
  | .closing _ => -1
  | _ => 0

end Kind

/-- A name starts with an ASCII letter or an underscore. -/
def isNameStart (c : Char) : Bool := c.isAlpha || c == '_'

/-- A name goes on with ASCII letters, digits and underscores. -/
def isNamePart (c : Char) : Bool := c.isAlphanum || c == '_'

structure Token where
  kind : Kind
  text : String
  deriving DecidableEq, Repr

namespace Token

def isName (t : Token) : Bool := t.kind == .name

/-- The token is the name `word`; a quoted `word` is not. -/
def isWord (t : Token) (word : String) : Bool := t.kind == .name && t.text == word

/-- The words that stand for the connectives `&&` and `||`. -/
def logicalWords : List String := ["and", "or"]

def isLogicalWord (t : Token) : Bool := t.kind == .name && logicalWords.contains t.text

/-- The token joins two operands when it stands outside brackets. -/
def isJoint (t : Token) : Bool := t.kind.isConnective || t.isLogicalWord

end Token

/-- The names among the tokens, in order. -/
def names (tokens : List Token) : List String :=
  (tokens.filter (·.isName)).map (·.text)

end FormulaFields.Formula
