import FormulaFields.Text.Search

/-!
Blank characters and what follows from them: trimming, words, and the normal form of a text in
which words stand one space apart. Blank means the Unicode property `White_Space`, which is wider
than the four characters that `Char.isWhitespace` knows.
-/
namespace FormulaFields.Text

/-- The ranges of code points that carry the property `White_Space`, ends included. -/
def blankRanges : List (Nat × Nat) :=
  [(0x09, 0x0D), (0x20, 0x20), (0x85, 0x85), (0xA0, 0xA0), (0x1680, 0x1680), (0x2000, 0x200A),
   (0x2028, 0x2029), (0x202F, 0x202F), (0x205F, 0x205F), (0x3000, 0x3000)]

def isBlank (c : Char) : Bool :=
  blankRanges.any fun range => range.1 ≤ c.toNat && c.toNat ≤ range.2

def trimStart (text : List Char) : List Char := text.dropWhile isBlank

def trimEnd (text : List Char) : List Char := dropEndWhile isBlank text

def trim (text : List Char) : List Char := trimEnd (trimStart text)

/-- The maximal runs of characters that are not blank. -/
def words (text : List Char) : List (List Char) :=
  (text.splitOnP isBlank).filter (!·.isEmpty)

/-- The words of a text, one space apart. -/
def collapse (text : List Char) : List Char := [' '].intercalate (words text)

/-- `trim` on strings. -/
def trimmed (text : String) : String := String.ofList (trim text.toList)

def isAllBlank (text : String) : Bool := text.toList.all isBlank

end FormulaFields.Text
