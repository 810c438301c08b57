import FormulaFields.Formula.Nesting

/-!
Calls in an expression: a name, a parenthesis right after it, and all up to the parenthesis that
matches. Only parentheses count here. Calls inside the arguments of a call are no calls of the
expression; a call that is never closed ends the search.
-/
namespace FormulaFields.Formula

/-- The tokens before the parenthesis that closes the one just opened, `inner` more being open. -/
def enclosed? : Nat → List Token → Option (List Token)
  | _, [] => none
  | inner, t :: rest =>
    match t.kind, inner with
    | .closing .round, 0 => some []
    | .closing .round, inner + 1 => (enclosed? inner rest).map (t :: ·)
    | .opening .round, _ => (enclosed? (inner + 1) rest).map (t :: ·)
    | _, _ => (enclosed? inner rest).map (t :: ·)

structure Call (Argument : Type) where
  name : String
  arguments : List Argument
  deriving DecidableEq, Repr

/-- The text of the `count` tokens that follow the first one. -/
def Lexeme.inside (count : Nat) (lexemes : List Lexeme) : String :=
  String.ofList (render (before count (after 1 lexemes)))

/-- The calls of an expression whose first `skip` tokens belong to a call that was found before. -/
def callsAfter : Nat → List Lexeme → List (Call String)
  | _, [] => []
  | skip, .blank _ :: rest => callsAfter skip rest
  | skip + 1, .token _ :: rest => callsAfter skip rest
  | 0, .token t :: rest =>
    if t.isName && (rest.findSome? Lexeme.token?).any (·.kind == .opening .round) then
      match enclosed? 0 (Lexeme.tokens rest).tail with
      | some inside =>
        ⟨t.text, splitArguments (Lexeme.inside inside.length rest)⟩
          :: callsAfter (inside.length + 2) rest
      | none => []
    else callsAfter 0 rest

/-- The outermost calls of an expression, in order. -/
def calls (expression : String) : List (Call String) := callsAfter 0 (lexemes expression)

end FormulaFields.Formula
