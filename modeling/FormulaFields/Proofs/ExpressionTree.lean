import FormulaFields.Proofs.Slices
import Mathlib.Logic.Basic

/-!
Expressions as trees, how they are written, and that what is written reads as the tokens of the
tree. Every name and number ends where its text ends, for only a space, a parenthesis or a comma
follows it.
-/
namespace FormulaFields.Formula

/-- A name that is no logical word. -/
abbrev PlainName := { text : String // isIdentifier text = true ∧ text ∉ Token.logicalWords }

/-- An unsigned decimal integer. -/
abbrev Numeral := { text : String // text.toList ≠ [] ∧ ∀ c ∈ text.toList, c.isDigit = true }

inductive Arithmetic where
  | plus
  | minus
  | times
  | over
  deriving DecidableEq, Repr

def Arithmetic.symbol : Arithmetic → String
  | .plus => "+"
  | .minus => "-"
  | .times => "*"
  | .over => "/"

inductive Tree where
  | name (n : PlainName)
  | number (digits : Numeral)
  | call (f : PlainName) (arguments : List Tree)
  | group (inner : Tree)
  | operation (op : Arithmetic) (left right : Tree)

namespace Tree

@[elab_as_elim, induction_eliminator]
theorem induct {motive : Tree → Prop} (name : ∀ n, motive (.name n))
    (number : ∀ digits, motive (.number digits))
    (call : ∀ f arguments, (∀ t ∈ arguments, motive t) → motive (.call f arguments))
    (group : ∀ inner, motive inner → motive (.group inner))
    (operation : ∀ op left right, motive left → motive right → motive (.operation op left right))
    (t : Tree) : motive t := by
  refine @Tree.rec motive (fun ts => ∀ t ∈ ts, motive t) name number call group operation nofun ?_ t
  intro first rest head tail t member
  rcases List.mem_cons.mp member with rfl | later
  · exact head
  · exact tail t later

/-- The expression as it is written. -/
def print : Tree → String
  | .name n => n.val
  | .number digits => digits.val
  | .call f arguments => f.val ++ "(" ++ ", ".intercalate (arguments.map print) ++ ")"
  | .group inner => "(" ++ inner.print ++ ")"
  | .operation op left right => left.print ++ " " ++ op.symbol ++ " " ++ right.print

/-- The tokens of the expression. -/
def tokens : Tree → List Token
  | .name n => [⟨.name, n.val⟩]
  | .number digits => [⟨.number, digits.val⟩]
  | .call f arguments =>
    ⟨.name, f.val⟩ :: ⟨.opening .round, "("⟩ ::
      ([⟨.comma, ","⟩].intercalate (arguments.map tokens) ++ [⟨.closing .round, ")"⟩])
  | .group inner => ⟨.opening .round, "("⟩ :: (inner.tokens ++ [⟨.closing .round, ")"⟩])
  | .operation op left right => left.tokens ++ ⟨.mark, op.symbol⟩ :: right.tokens

end Tree

/-! ### Reading characters -/

/-- Characters that read as tokens, none of which is an open quoted text. -/
def Reads (chars : List Char) (ts : List Token) : Prop :=
  ∃ ls, Lexeme.Settled ls ∧ Lexeme.Sealed ls ∧ Lexeme.render ls = chars ∧ Lexeme.tokens ls = ts

namespace Reads

theorem tokens {text : String} {ts : List Token} (reads : Reads text.toList ts) :
    Formula.tokens text = ts := by
  obtain ⟨ls, settled, _, rendered, rfl⟩ := reads
  rw [Formula.tokens, ← String.ofList_toList (s := text), ← rendered,
    Lexeme.lexemes_of_settled settled]

theorem nil : Reads [] [] := ⟨[], trivial, nofun, rfl, rfl⟩

theorem token {t : Token} {m : Munch} (single : Munch.ofChars? t.text.toList = some m)
    (kind : m.kind = t.kind) (closed : ¬ m.IsOpen) : Reads t.text.toList [t] := by
  refine ⟨[.token t], ⟨⟨m, single, kind⟩, nofun, trivial⟩, ?_, by simp [Lexeme.chars], rfl⟩
  intro x member
  rw [List.mem_singleton.mp member]
  rintro ⟨other, same, unclosed⟩
  rw [single] at same
  cases same
  exact closed unclosed

/-- Texts are read apart when the second one begins with a character that no token takes. -/
theorem append {first second : List Char} {ts us : List Token} (left : Reads first ts)
    (right : Reads second us) (delimited : ∀ c ∈ second.head?, delimits c = true) :
    Reads (first ++ second) (ts ++ us) := by
  obtain ⟨ls, settled, closed, rfl, rfl⟩ := left
  obtain ⟨ms, settled', closed', rfl, rfl⟩ := right
  exact ⟨ls ++ ms, settled.append_delimited closed settled' delimited, closed.append closed',
    by simp, by simp⟩

theorem blank {c : Char} {rest : List Char} {ts : List Token} (inked : Text.isBlank c = true)
    (reads : Reads rest ts) : Reads (c :: rest) ts := by
  obtain ⟨ls, settled, closed, rfl, rfl⟩ := reads
  exact ⟨.blank c :: ls, ⟨inked, fun _ _ => trivial, settled⟩, closed.cons_blank c, rfl, rfl⟩

/-- A token that is one character and does not grow can stand before anything. -/
theorem mark {t : Token} {c : Char} {rest : List Char} {ts : List Token}
    (text : t.text = String.singleton c) (start : Munch.start c = .whole t.kind)
    (inked : Text.isBlank c = false) (reads : Reads rest ts) : Reads (c :: rest) (t :: ts) := by
  have single : Munch.ofChars? t.text.toList = some (.whole t.kind) := by
    simp [text, Munch.ofChars?, inked, start, Munch.read?]
  have only {m : Munch} (other : Munch.ofChars? t.text.toList = some m) : m = .whole t.kind :=
    Option.some.inj (other.symm.trans single)
  obtain ⟨ls, settled, closed, rfl, rfl⟩ := reads
  refine ⟨.token t :: ls, ⟨⟨_, single, rfl⟩, ?_, settled⟩, ?_, by simp [Lexeme.chars, text], rfl⟩
  · intro d _ m other
    rw [only other]
    rfl
  · intro x member
    rcases List.mem_cons.mp member with rfl | later
    · rintro ⟨m, other, quote, rfl⟩
      cases only other
    · exact closed x later

theorem name {text : String} (identifier : isIdentifier text = true) :
    Reads text.toList [⟨.name, text⟩] :=
  token (t := ⟨.name, text⟩) (Munch.ofChars?_identifier identifier) rfl (by rintro ⟨_, ⟨⟩⟩)

theorem number (digits : Numeral) : Reads digits.val.toList [⟨.number, digits.val⟩] :=
  token (t := ⟨.number, digits.val⟩) (Munch.ofChars?_digits digits.property.1 digits.property.2)
    rfl (by rintro ⟨_, ⟨⟩⟩)

end Reads

namespace Tree

private theorem closing_reads : Reads [')'] [⟨.closing .round, ")"⟩] :=
  .mark rfl rfl (by decide) .nil

private theorem arguments_read {arguments : List Tree}
    (reads : ∀ t ∈ arguments, Reads t.print.toList t.tokens) :
    Reads (", ".intercalate (arguments.map print)).toList
      ([⟨.comma, ","⟩].intercalate (arguments.map tokens)) := by
  induction arguments with
  | nil => exact .nil
  | cons first rest ih =>
    simp only [List.mem_cons, forall_eq_or_imp] at reads
    cases rest with
    | nil => simpa using reads.1
    | cons second more =>
      have later := ih reads.2
      rw [List.map_cons] at later
      rw [List.map_cons, List.map_cons, List.map_cons, List.map_cons, String.intercalate_cons_cons,
        List.intercalate_cons_cons, String.toList_append, String.toList_append, List.append_assoc,
        List.append_assoc]
      refine reads.1.append ?_ ?_
      -- A comma takes no character, so the space behind it and the rest are read on their own.
      · exact .mark rfl rfl (by decide) (.blank (by decide) later)
      · rintro c ⟨⟩
        decide

theorem print_reads (t : Tree) : Reads t.print.toList t.tokens := by
  induction t with
  | name n =>
    rw [print, tokens]
    exact .name n.property.1
  | number digits =>
    rw [print, tokens]
    exact .number digits
  | call f arguments ih =>
    rw [print, tokens]
    simp only [String.toList_append, List.append_assoc]
    refine (Reads.name f.property.1).append ?_ ?_
    · refine .mark rfl rfl (by decide) ((arguments_read ih).append closing_reads ?_)
      rintro c ⟨⟩
      decide
    · rintro c ⟨⟩
      decide
  | group inner ih =>
    rw [print, tokens]
    simp only [String.toList_append, List.append_assoc]
    refine .mark rfl rfl (by decide) (ih.append closing_reads ?_)
    rintro c ⟨⟩
    decide
  | operation op left right first second =>
    rw [print, tokens]
    simp only [String.toList_append, List.append_assoc]
    -- The space ends the left operand, and the symbol is a token of one character.
    refine first.append ?_ ?_
    · refine .blank (by decide) ?_
      have spaced := second.blank (c := ' ') (by decide)
      cases op <;> exact .mark rfl rfl (by decide) spaced
    · rintro c ⟨⟩
      decide

end Tree

end FormulaFields.Formula
