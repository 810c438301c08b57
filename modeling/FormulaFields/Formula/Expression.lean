import FormulaFields.Formula.Nesting

/-!
Expressions: whether one is compound, its operands, and the names it binds.
-/
namespace FormulaFields.Formula

/-- The names that an equals sign follows. -/
def boundNames (ts : List Token) : List String :=
  (ts.zip ts.tail).filterMap fun (t, next) =>
    if t.isName && next.kind == .equals then some t.text else none

/-- Some equals sign occurs in a text, be it part of a comparison or quoted. -/
def mentionsEquals (text : String) : Bool := text.toList.contains '='

/-- A comparison or symbolic connective stands anywhere, or a logical word outside brackets. -/
def isCompound (ts : List Token) : Bool :=
  ts.any (·.kind.isConnective) ||
    (Nesting.cutFirst? (·.kind.shift) Token.isLogicalWord 0 ts).isSome

/-- The operands between the comparisons and connectives that stand outside brackets. -/
def operands (expression : String) : List String := splitText Token.isJoint expression

end FormulaFields.Formula
