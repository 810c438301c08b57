import FormulaFields.Proofs.Spans
import FormulaFields.Settings.Basic

/-!
Steps that can fail. A reader of bytes keeps of a token its kind and the bytes that it stands on,
looks its characters up in the text, and cuts texts at the bytes where tokens begin and end. Each
such step makes sure here that it can be taken: a slice, that its ends are in order and between two
characters of the text, an index, that something stands there, and a number, that it fits in one
machine word and is not counted below zero.
-/
namespace FormulaFields

open Formula
open String (utf8Len)

/-- What stops a run. -/
inductive Trap where
  /-- A slice that ends before it starts, or has an end behind the text or within a character. -/
  | slice (start stop : Nat)
  /-- Nothing has this index. -/
  | index (index : Nat)
  /-- The number takes more than one machine word. -/
  | overflow (number : Nat)
  /-- One less than zero. -/
  | underflow
  deriving DecidableEq, Repr

abbrev Checked := Except Trap

namespace Checked

variable {Item Value Result : Type}

@[simp] theorem pure_eq_ok (value : Value) : (pure value : Checked Value) = .ok value := rfl

@[simp] theorem ok_bind (value : Value) (next : Value → Checked Result) :
    ((.ok value : Checked Value) >>= next) = next value := rfl

@[simp] theorem ok_map (value : Value) (next : Value → Result) :
    next <$> (.ok value : Checked Value) = .ok (next value) := rfl

theorem mapM_eq_ok {items : List Item} {step : Item → Checked Value} {result : Item → Value}
    (taken : ∀ x ∈ items, step x = .ok (result x)) : items.mapM step = .ok (items.map result) := by
  induction items with
  | nil => rfl
  | cons x rest ih =>
    simp only [List.mem_cons, forall_eq_or_imp] at taken
    rw [List.mapM_cons, taken.1, ih taken.2]
    rfl

/-! ### Steps -/

/-- What stands from the byte `start` up to the byte `stop`. -/
def slice (text : String) (start stop : Nat) : Checked String :=
  if start ≤ stop ∧ stop ≤ text.utf8ByteSize ∧ String.Pos.Raw.IsValid text ⟨start⟩ ∧
      String.Pos.Raw.IsValid text ⟨stop⟩ then
    .ok (String.Pos.Raw.extract text ⟨start⟩ ⟨stop⟩)
  else .error (.slice start stop)

def at? (items : List Item) (index : Nat) : Checked Item :=
  match items[index]? with
  | some x => .ok x
  | none => .error (.index index)

/-- The number fits in one machine word. -/
def fits (number : Nat) : Checked Unit :=
  if number < Settings.wordLimit then .ok () else .error (.overflow number)

private theorem isValid_append (before after : List Char) :
    String.Pos.Raw.IsValid (String.ofList (before ++ after)) ⟨utf8Len before⟩ := by
  rw [String.Pos.Raw.isValid_iff_exists_append]
  exact ⟨String.ofList before, String.ofList after, String.ofList_append,
    (String.rawEndPos_ofList before).symm⟩

theorem slice_ofList (front middle back : List Char) :
    slice (String.ofList (front ++ middle ++ back)) (utf8Len front)
      (utf8Len front + utf8Len middle) = .ok (String.ofList middle) := by
  have first := isValid_append front (middle ++ back)
  have last := isValid_append (front ++ middle) back
  rw [← List.append_assoc] at first
  rw [String.utf8Len_append] at last
  have bounded := last.le_rawEndPos
  rw [slice, if_pos ⟨Nat.le_add_right _ _, bounded, first, last⟩, String.extract_of_valid]

example : slice "é," 1 3 = .error (.slice 1 3) := by decide +kernel

/-- Between lexemes a text can be cut. -/
theorem slice_of_lexemes {text : String} {front middle back : List Lexeme}
    (whole : lexemes text = front ++ middle ++ back) :
    slice text (Lexeme.size front) (Lexeme.size front + Lexeme.size middle) =
      .ok (String.ofList (Lexeme.render middle)) := by
  rw [eq_ofList_of_lexemes whole, Lexeme.size, Lexeme.size, slice_ofList]

theorem slice_front {text : String} {front back : List Lexeme}
    (whole : lexemes text = front ++ back) :
    slice text 0 (Lexeme.size front) = .ok (String.ofList (Lexeme.render front)) := by
  have cut : lexemes text = [] ++ front ++ back := whole
  have taken := slice_of_lexemes cut
  rwa [Lexeme.size_nil, Nat.zero_add] at taken

theorem slice_back {text : String} {front back : List Lexeme}
    (whole : lexemes text = front ++ back) :
    slice text (Lexeme.size front) text.utf8ByteSize =
      .ok (String.ofList (Lexeme.render back)) := by
  have taken := slice_of_lexemes (whole.trans (List.append_nil _).symm)
  rwa [← Lexeme.size_append, ← whole, size_lexemes] at taken

end Checked

/-! ### Tokens without their characters -/

/-- The kind of a token, and the bytes that it stands on. -/
structure Span where
  kind : Kind
  start : Nat
  stop : Nat
  deriving DecidableEq, Repr

namespace Span

/-- The characters of the token, looked up in the text. -/
def text (s : Span) (source : String) : Checked String := Checked.slice source s.start s.stop

end Span

namespace Formula

def Placed.span (p : Placed) : Span := ⟨p.token.kind, p.start, p.stop⟩

@[simp] theorem Placed.kind_span (p : Placed) : p.span.kind = p.token.kind := rfl

@[simp] theorem Placed.start_span (p : Placed) : p.span.start = p.start := rfl

@[simp] theorem Placed.stop_span (p : Placed) : p.span.stop = p.stop := rfl

/-- The tokens of a text as their kinds and places. -/
def spans (text : String) : List Span := (placedTokens text).map (·.span)

/-- The characters of a token stand where its place says. -/
theorem text_span {text : String} {p : Placed} (member : p ∈ placedTokens text) :
    p.span.text text = .ok p.token.text := by
  obtain ⟨index, found⟩ := List.mem_iff_getElem?.mp member
  obtain ⟨front, back, whole, _, first, last⟩ := exists_of_getElem?_place found
  have cut : lexemes text = front ++ [.token p.token] ++ back := by simpa using whole
  have taken := Checked.slice_of_lexemes cut
  rw [Span.text, Placed.start_span, Placed.stop_span, last, first, Nat.zero_add]
  simpa [Lexeme.chars] using taken

end Formula

end FormulaFields
