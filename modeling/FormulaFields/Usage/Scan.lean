import FormulaFields.Formula.Call
import FormulaFields.Formula.Comment
import FormulaFields.Formula.Expression
import FormulaFields.Formula.Statement
import FormulaFields.Usage.Vocabulary

/-!
Finding the data fields of a formula. An expression is cut at its comparisons, then its calls are
searched as the rules say, and where neither finds a field, all names count that can be fields. The
levels that are left bound the search: with none left, names are all that is looked for.
-/
namespace FormulaFields

open Formula

namespace Vocabulary

variable (v : Vocabulary)

/-- The names among the tokens that can be fields: no operators, no logical words, and no names
that an equals sign follows anywhere in the expression. -/
def plainNames (ts : List Token) : List String :=
  (names ts).filter fun name =>
    !v.isOperator name && !(boundNames ts).contains name && !Token.logicalWords.contains name

/-- The arguments of a call that may hold fields: those at the positions of a rule, unless the rule
leaves out what `isNamed` accepts, else the first argument of an operator. A rule without positions
is no rule. -/
def fieldArguments {Argument : Type} (isNamed : Argument → Bool) (call : Call Argument) :
    List Argument :=
  let byName := if v.isOperator call.name then call.arguments.take 1 else []
  match v.rules[call.name]? with
  | none => byName
  | some rule =>
    if rule.isEmpty then byName
    else (rule.positions.filterMap (call.arguments[·]?)).filter fun argument =>
      !(rule.ignoreNamed && isNamed argument)

/-- The fields of an expression, as often as they are found, looking so many levels deep. -/
def scan : Nat → String → List String
  | 0, text => v.plainNames (tokens (Text.trimmed text))
  | levels + 1, text =>
    let expression := Text.trimmed text
    if isCompound (tokens expression) then (operands expression).flatMap (scan levels)
    else
      let found :=
        ((calls expression).flatMap (v.fieldArguments mentionsEquals)).flatMap (scan levels)
      if found.isEmpty then v.plainNames (tokens expression) else found

/-- The fields of an expression that is itself nested `depth` deep. -/
def scanText (expression : String) (depth : Nat) : List String :=
  v.scan (v.depthLimit + 1 - depth) expression

/-- The formula as statements, comments taken out. -/
def script (formula : String) : Script := .ofText v.operators (clean formula)

/-- What the whole sequence of statements yields, and then what each one yields alone. -/
def candidates (s : Script) : List String :=
  v.scanText s.joined 0 ++ s.fragments.flatMap (v.scanText · 0)

/-- The candidates that are neither variables of the script nor operators. -/
def fieldsOfScript (s : Script) : NameSet :=
  .ofList ((v.candidates s).filter fun name => !s.assigned.contains name && !v.isOperator name)

/-- The data fields that a formula uses. -/
def fields (formula : String) : NameSet := v.fieldsOfScript (v.script formula)

end Vocabulary

end FormulaFields
