import FormulaFields.Json.Value

/-!
Values as text, in two layouts: compact, without a blank between tokens, and indented by two spaces
for each level, where an empty array or object stays on its line. In strings a quote, a backslash
and the control characters are escaped; all else stands for itself.
-/
namespace FormulaFields.Json

def hexDigit (n : Nat) : Char :=
  if n < 10 then Char.ofNat ('0'.toNat + n) else Char.ofNat ('a'.toNat + (n - 10))

def escape (c : Char) : List Char :=
  if c == '\x22' then ['\x5c', '\x22']
  else if c == '\x5c' then ['\x5c', '\x5c']
  else if c == '\x08' then ['\x5c', 'b']
  else if c == '\x0c' then ['\x5c', 'f']
  else if c == '\n' then ['\x5c', 'n']
  else if c == '\r' then ['\x5c', 'r']
  else if c == '\t' then ['\x5c', 't']
  else if c.toNat < 0x20 then
    ['\x5c', 'u', '0', '0', hexDigit (c.toNat / 16), hexDigit (c.toNat % 16)]
  else [c]

def quote (s : String) : List Char := '\x22' :: s.toList.flatMap escape ++ ['\x22']

/-- A string without a text is written as the empty one. -/
def quoteKey (key : Option String) : List Char := quote (key.getD "")

namespace Value

def scalarChars : Value → List Char
  | .boolean true => "true".toList
  | .boolean false => "false".toList
  | .number n => n.chars
  | .string s => quoteKey s
  | _ => "null".toList

mutual

def compactChars : Value → List Char
  | .array items => '[' :: compactItems items ++ [']']
  | .object members => '\x7b' :: compactMembers members ++ ['\x7d']
  | v => scalarChars v

def compactItems : List Value → List Char
  | [] => []
  | [v] => compactChars v
  | v :: rest => compactChars v ++ ',' :: compactItems rest

def compactMembers : List (Option String × Value) → List Char
  | [] => []
  | [(key, v)] => quoteKey key ++ ':' :: compactChars v
  | (key, v) :: rest => quoteKey key ++ ':' :: compactChars v ++ ',' :: compactMembers rest

end

/-- The start of a line `level` levels deep. -/
def newline (level : Nat) : List Char := '\n' :: List.replicate (2 * level) ' '

mutual

def indentedChars (level : Nat) : Value → List Char
  | .array [] => "[]".toList
  | .array items => '[' :: indentedItems (level + 1) items ++ newline level ++ [']']
  | .object [] => ['\x7b', '\x7d']
  | .object members => '\x7b' :: indentedMembers (level + 1) members ++ newline level ++ ['\x7d']
  | v => scalarChars v

def indentedItems (level : Nat) : List Value → List Char
  | [] => []
  | [v] => newline level ++ indentedChars level v
  | v :: rest => newline level ++ indentedChars level v ++ ',' :: indentedItems level rest

def indentedMembers (level : Nat) : List (Option String × Value) → List Char
  | [] => []
  | [(key, v)] => newline level ++ quoteKey key ++ ':' :: ' ' :: indentedChars level v
  | (key, v) :: rest =>
    newline level ++ quoteKey key ++ ':' :: ' ' :: indentedChars level v ++
      ',' :: indentedMembers level rest

end

def compact (v : Value) : String := String.ofList (compactChars v)

def indented (v : Value) : String := String.ofList (indentedChars 0 v)

end Value

end FormulaFields.Json
