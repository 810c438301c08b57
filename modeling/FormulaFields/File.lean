/-!
Files as the program sees them: a path leads to a text or to a reason why there is none.
-/
namespace FormulaFields

inductive ReadError where
  | missing
  | directory
  /-- Something on the way to the file is no directory. -/
  | notDirectory
  /-- The path, or a part of it, is longer than the system allows. -/
  | nameTooLong
  | notUnicode
  | other (reason : String)
  deriving DecidableEq, Repr

namespace ReadError

def message : ReadError → String
  | .missing => "No such file or directory (os error 2)"
  | .directory => "Is a directory (os error 21)"
  | .notDirectory => "Not a directory (os error 20)"
  | .nameTooLong => "File name too long (os error 36)"
  | .notUnicode => "stream did not contain valid UTF-8"
  | .other reason => reason

end ReadError

/-- What reading a path gives. -/
abbrev Files := String → Except ReadError String

/-- The text that the bytes of a file encode. -/
def textOfBytes (bytes : ByteArray) : Except ReadError String :=
  match String.fromUTF8? bytes with
  | some text => .ok text
  | none => .error .notUnicode

end FormulaFields
