import FormulaFields.Proofs.Pieces
import FormulaFields.Usage.Scan

/-!
The search for fields as a search of tokens, with no text in between: what a formula reads as is cut
into stretches of its tokens, and these are cut further. This is the form in which the search is
reasoned about; `TokenView` proves it equal to the search of texts.
-/
namespace FormulaFields

open Formula

namespace Formula

def splitTokens (cuts : Token → Bool) (ts : List Token) : List (List Token) :=
  (Nesting.pieces (·.kind.shift) cuts 0 ts).filter (!·.isEmpty)

/-- Some token holds an equals sign. -/
def holdEquals (ts : List Token) : Bool := ts.any ('=' ∈ ·.text.toList)

/-- The calls among tokens of which the first `skip` belong to a call that was found before. -/
def tokenCallsAfter : Nat → List Token → List (Call (List Token))
  | _, [] => []
  | skip + 1, _ :: rest => tokenCallsAfter skip rest
  | 0, t :: rest =>
    if t.isName && rest.head?.any (·.kind == .opening .round) then
      match enclosed? 0 rest.tail with
      | some inside =>
        ⟨t.text, splitTokens (·.kind == .comma) inside⟩
          :: tokenCallsAfter (inside.length + 2) rest
      | none => []
    else tokenCallsAfter 0 rest

def tokenCalls (ts : List Token) : List (Call (List Token)) := tokenCallsAfter 0 ts

/-- The tokens on both sides of the equals sign of an assignment. -/
def assignment? (statement : List Token) : Option (List Token × List Token) :=
  Nesting.cutFirst? (·.kind.shift) (·.kind == .equals) 0 statement

def targetTokens (statement : List Token) : List Token :=
  ((assignment? statement).map (·.1)).getD []

def valueTokens (statement : List Token) : List Token :=
  ((assignment? statement).map (·.2)).getD statement

/-- The statements that tokens make, empty ones included. -/
def statementTokens (ts : List Token) : List (List Token) :=
  Nesting.pieces (·.kind.shift) (·.kind == .semicolon) 0 ts

def fragmentTokens (ts : List Token) : List (List Token) :=
  ((statementTokens ts).map valueTokens).filter (!·.isEmpty)

/-- The fragments as one sequence of statements. -/
def joinTokens (fragments : List (List Token)) : List Token :=
  [⟨.semicolon, ";"⟩].intercalate fragments

def assignedNames (operators : NameSet) (ts : List Token) : List String :=
  (statementTokens ts).flatMap fun statement =>
    (names (targetTokens statement)).filter (!operators.contains ·)

end Formula

namespace Vocabulary

variable (v : Vocabulary)

def scanTokens : Nat → List Token → List String
  | 0, ts => v.plainNames ts
  | levels + 1, ts =>
    if isCompound ts then (splitTokens Token.isJoint ts).flatMap (scanTokens levels)
    else
      let found :=
        ((tokenCalls ts).flatMap (v.fieldArguments holdEquals)).flatMap (scanTokens levels)
      if found.isEmpty then v.plainNames ts else found

def candidatesOfTokens (ts : List Token) : List String :=
  v.scanTokens (v.depthLimit + 1) (joinTokens (fragmentTokens ts)) ++
    (fragmentTokens ts).flatMap (v.scanTokens (v.depthLimit + 1))

def fieldsOfTokens (ts : List Token) : NameSet :=
  let assigned : NameSet := .ofList (assignedNames v.operators ts)
  .ofList ((v.candidatesOfTokens ts).filter fun name =>
    !assigned.contains name && !v.isOperator name)

theorem mem_fieldsOfTokens_iff {ts : List Token} {name : String} :
    name ∈ v.fieldsOfTokens ts ↔
      name ∈ v.candidatesOfTokens ts ∧ name ∉ assignedNames v.operators ts ∧
        v.isOperator name = false := by
  rw [fieldsOfTokens, Std.ExtTreeSet.mem_ofList, List.contains_iff_mem, List.mem_filter]
  simp [Std.ExtTreeSet.contains_ofList]

end Vocabulary

end FormulaFields
