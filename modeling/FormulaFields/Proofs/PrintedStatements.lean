import FormulaFields.Proofs.StatementView

/-!
Statements that are written down and read again. A text that stands in a statement is contained: its
brackets cancel out, no quoted text is left open in it, and no semicolon stands outside brackets.
Then the semicolons and the equals signs that the printer sets are the ones at which the reader
cuts, and what is read are the statements that were written, with the blanks around their sides
trimmed off. So each right side is searched on its own, and no statement hides what another one yields.
-/
namespace FormulaFields

open Formula

namespace Formula

/-! ### Written statements -/

namespace Statement

/-- How a statement is written. -/
def print (s : Statement) : String :=
  match s.target with
  | some target => target ++ " = " ++ s.value
  | none => s.value

/-- The statement without the blanks around its sides. -/
def trimmed (s : Statement) : Statement := ⟨s.target.map Text.trimmed, Text.trimmed s.value⟩

/-- A sequence of statements, with semicolons between them. -/
def printAll (list : List Statement) : String := ";".intercalate (list.map print)

end Statement

/-- A quoted text without the quote at its end. -/
def Token.IsUnterminated (t : Token) : Prop :=
  t.kind = .quoted ∧ ∃ quote ∈ t.text.toList.head?, quote ∉ t.text.toList.tail

instance : DecidablePred Token.IsUnterminated := fun t =>
  -- Only the first character is tried as the quote, not every character there is.
  have := Option.decidableExistsMem (p := (· ∉ t.text.toList.tail)) t.text.toList.head?
  inferInstanceAs (Decidable (_ ∧ _))

/-- No token of the text that passes stands outside brackets. -/
def NoneOutside (test : Token → Bool) (text : String) : Prop :=
  Nesting.Uncut (·.kind.shift) test 0 (tokens text)

instance (test : Token → Bool) (text : String) : Decidable (NoneOutside test text) :=
  inferInstanceAs (Decidable (Nesting.Uncut _ _ _ _))

/-- A text whose brackets cancel out, with no quoted text left open and no semicolon outside
brackets. -/
structure Contained (text : String) : Prop where
  level : Nesting.level (·.kind.shift) 0 (tokens text) = 0
  closed : ∀ t ∈ tokens text, ¬ t.IsUnterminated
  undivided : NoneOutside (·.kind == .semicolon) text

instance : DecidablePred Contained := fun text =>
  decidable_of_iff (Nesting.level (·.kind.shift) 0 (tokens text) = 0 ∧
      (∀ t ∈ tokens text, ¬ t.IsUnterminated) ∧ NoneOutside (·.kind == .semicolon) text)
    ⟨fun ⟨level, closed, undivided⟩ => ⟨level, closed, undivided⟩,
      fun contained => ⟨contained.level, contained.closed, contained.undivided⟩⟩

/-- A statement that is read as it was written: the equals sign of an assignment is the first one
outside brackets, and a bare value has none. -/
structure Statement.WellFormed (s : Statement) : Prop where
  target : ∀ text ∈ s.target, Contained text ∧ NoneOutside (·.kind == .equals) text
  value : Contained s.value
  inked : Text.isAllBlank s.value = false
  bare : s.target = none → NoneOutside (·.kind == .equals) s.value

instance : DecidablePred Statement.WellFormed := fun s =>
  decidable_of_iff ((∀ text ∈ s.target, Contained text ∧ NoneOutside (·.kind == .equals) text) ∧
      Contained s.value ∧ Text.isAllBlank s.value = false ∧
      (s.target = none → NoneOutside (·.kind == .equals) s.value))
    ⟨fun ⟨target, value, inked, bare⟩ => ⟨target, value, inked, bare⟩,
      fun fine => ⟨fine.target, fine.value, fine.inked, fine.bare⟩⟩

/-! ### Lexemes of contained texts -/

theorem Lexeme.level_tokens (depth : Int) (ls : List Lexeme) :
    Nesting.level (·.kind.shift) depth (Lexeme.tokens ls) =
      Nesting.level Lexeme.shift depth ls :=
  Nesting.level_filterMap (views_tokens fun _ => false) depth ls

/-- Blanks neither nest nor separate. -/
theorem Lexeme.uncut_of_tokens {test : Token → Bool} {depth : Int} {ls : List Lexeme}
    (uncut : Nesting.Uncut (·.kind.shift) test depth (Lexeme.tokens ls)) :
    Nesting.Uncut Lexeme.shift (Lexeme.passes test) depth ls := by
  rintro before x after rfl separator
  cases x with
  | blank c => cases separator
  | token t =>
    rw [← level_tokens]
    exact uncut (Lexeme.tokens before) t (Lexeme.tokens after) (by simp) separator

/-- What is open is a quoted token that the reader left without its second quote. -/
theorem Lexeme.unterminated_of_isOpen {t : Token} (sound : Sound (.token t))
    (unclosed : IsOpen (.token t)) : t.IsUnterminated := by
  obtain ⟨m, single, quote, rfl⟩ := unclosed
  obtain ⟨m', same, kind⟩ := sound
  rw [single] at same
  cases same
  obtain ⟨quote, rest, chars, _, ⟨_, absent⟩ | ⟨⟨⟩, _⟩⟩ := Munch.quoted_of_ofChars? single rfl
  refine ⟨kind.symm, quote, ?_⟩
  rw [chars]
  exact ⟨rfl, absent⟩

theorem sealed_of_terminated {text : String} (closed : ∀ t ∈ tokens text, ¬ t.IsUnterminated) :
    Lexeme.Sealed (lexemes text) := by
  intro x member unclosed
  cases x with
  | blank c => exact unclosed
  | token t =>
    have sound := (Lexeme.settled_lexemes text).sound _ member
    exact closed t (Lexeme.mem_tokens.mpr member) (Lexeme.unterminated_of_isOpen sound unclosed)

/-- What a contained text is read as can stand between semicolons. -/
structure Lexeme.Standing (ls : List Lexeme) : Prop where
  closed : Lexeme.Sealed ls
  level : Nesting.level Lexeme.shift 0 ls = 0
  uncut : Nesting.Uncut Lexeme.shift (Lexeme.passes (·.kind == .semicolon)) 0 ls

theorem Contained.standing {text : String} (contained : Contained text) :
    Lexeme.Standing (lexemes text) where
  closed := sealed_of_terminated contained.closed
  level := by
    rw [← Lexeme.level_tokens]
    exact contained.level
  uncut := Lexeme.uncut_of_tokens contained.undivided

theorem Lexeme.Standing.append {first second : List Lexeme} (left : Standing first)
    (right : Standing second) : Standing (first ++ second) where
  closed := left.closed.append right.closed
  level := by rw [Nesting.level_append, left.level, right.level]
  uncut := left.uncut.append (left.level.symm ▸ right.uncut)

/-- The equals sign of an assignment with the spaces around it. -/
def assignmentSign : List Lexeme := [.blank ' ', .token ⟨.equals, "="⟩, .blank ' ']

theorem standing_assignmentSign : Lexeme.Standing assignmentSign where
  closed := by
    intro x member
    simp only [assignmentSign, List.mem_cons, List.not_mem_nil, or_false] at member
    rcases member with rfl | rfl | rfl
    · exact id
    · rintro ⟨m, single, quote, rfl⟩
      cases single
    · exact id
  level := rfl
  uncut := by decide

theorem lexemes_assignment {target : String} (closed : Lexeme.Sealed (lexemes target))
    (value : String) :
    lexemes (target ++ " = " ++ value) = lexemes target ++ (assignmentSign ++ lexemes value) := by
  have text : (" = " ++ value).toList = ' ' :: '=' :: ' ' :: value.toList := String.toList_append
  -- The spaces end the target and the sign, so the three are read apart.
  have behind : lexemes (" = " ++ value) = assignmentSign ++ lexemes value := by
    rw [lexemes, text]
    rfl
  rw [String.append_assoc, lexemes_append closed (by rw [text]; rintro c ⟨⟩; rfl), behind]

namespace Statement

variable {s : Statement}

theorem WellFormed.standing (fine : s.WellFormed) : Lexeme.Standing (lexemes s.print) := by
  obtain ⟨target, value⟩ := s
  cases target with
  | none => exact fine.value.standing
  | some target =>
    -- Neither side leaves a bracket open, so the equals sign and what follows stand outside all.
    have left := (fine.target target rfl).1.standing
    rw [print, lexemes_assignment left.closed]
    exact left.append (standing_assignmentSign.append fine.value.standing)

theorem WellFormed.print_inked (fine : s.WellFormed) : Text.isAllBlank s.print = false := by
  -- The value alone shows something, whatever stands before it.
  obtain ⟨target, value⟩ := s
  have inked := fine.inked
  cases target with
  | none => exact inked
  | some target =>
    rw [Text.isAllBlank, print, String.toList_append, List.all_append]
    exact Bool.and_eq_false_iff.mpr (Or.inr inked)

/-! ### Reading a statement -/

private theorem passes_of_blank {ls : List Lexeme} (none : Lexeme.tokens ls = [])
    (test : Token → Bool) : ∀ x ∈ ls, x.passes test = false := by
  intro x member
  cases x with
  | blank c => rfl
  | token t =>
    have inside : t ∈ Lexeme.tokens ls := Lexeme.mem_tokens.mpr member
    rw [none] at inside
    cases inside

private theorem trimmedText_blanks {first last : List Lexeme}
    (front : ∀ c ∈ Lexeme.render first, Text.isBlank c = true)
    (back : ∀ c ∈ Lexeme.render last, Text.isBlank c = true) (ls : List Lexeme) :
    Lexeme.trimmedText (first ++ ls ++ last) = Lexeme.trimmedText ls := by
  rw [Lexeme.trimmedText, Lexeme.render_append, Lexeme.render_append, trim_blanks front back]
  rfl

/-- The sides at the equals sign do not show whether the statement was trimmed first. -/
private theorem ofText_trimmedText {ls : List Lexeme} (settled : Lexeme.Settled ls)
    (closed : Lexeme.Sealed ls) :
    ofText (Lexeme.trimmedText ls) =
      match Nesting.cutFirst? Lexeme.shift (Lexeme.passes (·.kind == .equals)) 0 ls with
      | some (left, right) => ⟨some (Lexeme.trimmedText left), Lexeme.trimmedText right⟩
      | none => ⟨none, Lexeme.trimmedText ls⟩ := by
  obtain ⟨first, last, whole, front, back⟩ := Lexeme.exists_lexemes_trimmedText settled closed
  rw [whole] at settled
  have blank := Lexeme.render_blank settled.left.left front
  have blank' := Lexeme.render_blank settled.right back
  have flat : Nesting.level Lexeme.shift 0 first = 0 := by
    rw [← Lexeme.level_tokens, front]
    rfl
  -- The blanks in front go with the left side, the blanks behind with the right one.
  have cut : Nesting.cutFirst? Lexeme.shift (Lexeme.passes (·.kind == .equals)) 0 ls =
      (Nesting.cutFirst? Lexeme.shift (Lexeme.passes (·.kind == .equals)) 0
        (lexemes (Lexeme.trimmedText ls))).map fun cut => (first ++ cut.1, cut.2 ++ last) := by
    conv_lhs => rw [whole, List.append_assoc]
    rw [(Nesting.uncut_of_forall (passes_of_blank front _)).cutFirst?_append, flat,
      Nesting.cutFirst?_append_of_forall (passes_of_blank back _), Option.map_map]
    rfl
  have nothing : ∀ c ∈ Lexeme.render [], Text.isBlank c = true := by simp
  rw [cut, ofText]
  cases Nesting.cutFirst? Lexeme.shift (Lexeme.passes (·.kind == .equals)) 0
      (lexemes (Lexeme.trimmedText ls)) with
  | none => rfl
  | some sides =>
    obtain ⟨left, right⟩ := sides
    have target : Lexeme.trimmedText (first ++ left) = Lexeme.trimmedText left := by
      rw [← List.append_nil (first ++ left)]
      exact trimmedText_blanks blank nothing left
    have value : Lexeme.trimmedText (right ++ last) = Lexeme.trimmedText right :=
      trimmedText_blanks nothing blank' right
    simp only [Option.map_some, target, value]

/-- What is written for a statement reads as the statement. -/
theorem ofText_print (fine : s.WellFormed) : ofText (Text.trimmed s.print) = s.trimmed := by
  have standing := fine.standing
  rw [trimmed_eq, ofText_trimmedText (Lexeme.settled_lexemes _) standing.closed]
  obtain ⟨target, value⟩ := s
  cases target with
  | none =>
    -- A bare value has no equals sign outside brackets.
    rw [print, (Lexeme.uncut_of_tokens (fine.bare rfl)).cutFirst?_eq_none]
    dsimp only
    rw [← trimmed_eq]
    rfl
  | some target =>
    obtain ⟨contained, unbound⟩ := fine.target target rfl
    have sign : Nesting.cutFirst? Lexeme.shift (Lexeme.passes (·.kind == .equals)) 0
        (assignmentSign ++ lexemes value) = some ([.blank ' '], .blank ' ' :: lexemes value) := rfl
    have space : ∀ c ∈ Lexeme.render [.blank ' '], Text.isBlank c = true := by
      intro c member
      obtain rfl : c = ' ' := List.mem_singleton.mp member
      rfl
    have nothing : ∀ c ∈ Lexeme.render [], Text.isBlank c = true := by simp
    have left := trimmedText_blanks nothing space (lexemes target)
    have right := trimmedText_blanks space nothing (lexemes value)
    rw [List.nil_append] at left
    rw [List.append_nil, List.singleton_append] at right
    -- The printed sign is the first one, for the target has none and leaves no bracket open.
    rw [print, lexemes_assignment contained.standing.closed,
      (Lexeme.uncut_of_tokens unbound).cutFirst?_append, contained.standing.level, sign]
    simp only [Option.map_some, left, right, ← trimmed_eq]
    rfl

end Statement

/-! ### Reading a sequence -/

theorem lexemes_intercalate {texts : List String}
    (closed : ∀ text ∈ texts, Lexeme.Sealed (lexemes text)) :
    lexemes (";".intercalate texts) =
      [Lexeme.token ⟨.semicolon, ";"⟩].intercalate (texts.map lexemes) := by
  induction texts with
  | nil => rfl
  | cons first rest ih =>
    cases rest with
    | nil => simp
    | cons second more =>
      -- The first text is closed, so the semicolon behind it is a token of its own.
      have later := ih fun text member => closed text (List.mem_cons_of_mem first member)
      rw [String.intercalate_cons_cons, lexemes_semicolon (closed first List.mem_cons_self), later]
      simp only [List.map_cons, List.intercalate_cons_cons, List.append_assoc,
        List.singleton_append]

/-- Texts with semicolons between them are split into these texts. -/
theorem splitText_intercalate {texts : List String}
    (standing : ∀ text ∈ texts, Lexeme.Standing (lexemes text))
    (inked : ∀ text ∈ texts, Text.isAllBlank text = false) :
    splitText (·.kind == .semicolon) (";".intercalate texts) = texts.map Text.trimmed := by
  cases texts with
  | nil => rfl
  | cons first rest =>
    have groups : Nesting.pieces Lexeme.shift (Lexeme.passes (·.kind == .semicolon)) 0
        (lexemes (";".intercalate (first :: rest))) = (first :: rest).map lexemes := by
      rw [lexemes_intercalate fun text member => (standing text member).closed]
      refine Nesting.pieces_intercalate Lexeme.shift _ rfl rfl fun part member more => ?_
      -- A text leaves no bracket open, so the semicolon behind it is the first that cuts.
      have read : part ∈ (first :: rest).map lexemes := member
      obtain ⟨text, inside, rfl⟩ := List.mem_map.mp read
      obtain ⟨_, level, uncut⟩ := standing text inside
      rw [uncut.pieces_append, level]
    -- No text is blank, so all pieces stay.
    have trimmed : Lexeme.trimmedText ∘ lexemes = Text.trimmed :=
      funext fun text => (trimmed_eq text).symm
    rw [splitText, groups, List.map_map, trimmed]
    refine List.filter_eq_self.mpr fun piece member => ?_
    obtain ⟨text, inside, rfl⟩ := List.mem_map.mp member
    rw [trimmed_isEmpty_of_inked (inked text inside)]
    rfl

/-- The statements of a printed sequence are the ones that were printed. -/
theorem statements_printAll {list : List Statement} (fine : ∀ s ∈ list, s.WellFormed) :
    statements (Statement.printAll list) = list.map Statement.trimmed := by
  have standing : ∀ text ∈ list.map Statement.print, Lexeme.Standing (lexemes text) :=
    List.forall_mem_map.mpr fun s inside => (fine s inside).standing
  have inked : ∀ text ∈ list.map Statement.print, Text.isAllBlank text = false :=
    List.forall_mem_map.mpr fun s inside => (fine s inside).print_inked
  rw [statements, Statement.printAll, splitText_intercalate standing inked, List.map_map,
    List.map_map]
  apply List.map_congr_left
  intro s inside
  rw [Function.comp_apply, Function.comp_apply, Statement.ofText_print (fine s inside)]

theorem Statement.assigned_trimmed (operators : NameSet) (s : Statement) :
    s.trimmed.assigned operators = s.assigned operators := by
  obtain ⟨target, value⟩ := s
  cases target with
  | none => rfl
  | some target =>
    simp only [trimmed, assigned, Option.map_some, names_trimmed]

theorem Statement.mem_assigned_iff {operators : NameSet} {s : Statement} {name : String} :
    name ∈ s.assigned operators ↔ operators.contains name = false ∧
      ∃ target ∈ s.target, name ∈ names (tokens target) := by
  obtain ⟨target, value⟩ := s
  cases target with
  | none => simp [assigned]
  | some target => simp [assigned, and_comm]

/-- What a printed sequence assigns, and what it evaluates. -/
theorem script_printAll (operators : NameSet) {list : List Statement}
    (fine : ∀ s ∈ list, s.WellFormed) :
    Script.ofText operators (Statement.printAll list) =
      ⟨.ofList (list.flatMap (·.assigned operators)),
        list.map fun s => Text.trimmed s.value⟩ := by
  -- Every right side shows something, so none is left out.
  have kept : ∀ value ∈ list.map fun s => Text.trimmed s.value, (!value.isEmpty) = true := by
    intro value member
    obtain ⟨s, inside, rfl⟩ := List.mem_map.mp member
    rw [trimmed_isEmpty_of_inked (fine s inside).inked]
    rfl
  rw [Script.ofText, statements_printAll fine, Script.ofStatements, List.flatMap_map,
    List.map_map]
  simp only [Statement.assigned_trimmed]
  exact congrArg _ (List.filter_eq_self.mpr kept)

end Formula

namespace Vocabulary

theorem scanText_trimmed (v : Vocabulary) (text : String) (depth : Nat) :
    v.scanText (Text.trimmed text) depth = v.scanText text depth := by
  rw [scanText, scanText, scan_sight, scan_sight, sight_trimmed]

/-- Printed statements are read back in order: the names of the targets that are no operators are
assigned, and the right sides are searched one by one. What is found in one of them is a field of
the whole, unless some statement assigns it. -/
theorem fields_of_printAll (v : Vocabulary) (list : List Statement)
    (fine : ∀ s ∈ list, s.WellFormed) :
    (∀ name, name ∈ (Script.ofText v.operators (Statement.printAll list)).assigned ↔
      v.isOperator name = false ∧
        ∃ s ∈ list, ∃ target ∈ s.target, name ∈ names (tokens target)) ∧
    (Script.ofText v.operators (Statement.printAll list)).fragments =
      list.map (fun s => Text.trimmed s.value) ∧
    (clean (Statement.printAll list) = Statement.printAll list →
      ∀ s ∈ list, ∀ name ∈ v.scanText s.value 0, v.isOperator name = false →
        name ∉ (Script.ofText v.operators (Statement.printAll list)).assigned →
        name ∈ v.fields (Statement.printAll list)) := by
  have read := script_printAll v.operators fine
  refine ⟨fun name => ?_, by rw [read], fun uncommented s member name found operator free => ?_⟩
  · rw [read, Std.ExtTreeSet.mem_ofList, List.contains_iff_mem, List.mem_flatMap, isOperator]
    constructor
    · rintro ⟨s, member, assigned⟩
      obtain ⟨operator, target, side, named⟩ := Statement.mem_assigned_iff.mp assigned
      exact ⟨operator, s, member, target, side, named⟩
    · rintro ⟨operator, s, member, target, side, named⟩
      exact ⟨s, member, Statement.mem_assigned_iff.mpr ⟨operator, target, side, named⟩⟩
  · rw [← uncommented] at free
    rw [← scanText_trimmed] at found
    refine v.mem_fields_of_mem_scanText ?_ found operator free
    -- The right side is searched as it stands, whatever the other statements are.
    apply List.mem_cons_of_mem
    rw [script, uncommented, read]
    exact List.mem_map.mpr ⟨s, member, rfl⟩

/-- Commas, comparisons, an argument's name and a quoted text leave the statements apart. -/
theorem fields_of_printAll_bounds :
    let v : Vocabulary := ⟨.ofList ["bounds", "group"], ∅, 8⟩
    let list : List Statement := [⟨some "lo, hi", "bounds(close, k = 2)"⟩,
      ⟨none, " group(lo, \"a;b=c\") "⟩, ⟨some "up", "volume == hi"⟩]
    (∀ s ∈ list, s.WellFormed) ∧
      Statement.printAll list =
        "lo, hi = bounds(close, k = 2); group(lo, \"a;b=c\") ;up = volume == hi" ∧
      "lo" ∈ (Script.ofText v.operators (Statement.printAll list)).assigned ∧
      "volume" ∈ v.fields (Statement.printAll list) := by
  intro v list
  have fine : ∀ s ∈ list, s.WellFormed := by decide +kernel
  have text : Statement.printAll list =
      "lo, hi = bounds(close, k = 2); group(lo, \"a;b=c\") ;up = volume == hi" := by
    decide +kernel
  obtain ⟨assigned, _, fields⟩ := fields_of_printAll v list fine
  refine ⟨fine, text, (assigned "lo").mpr (by decide +kernel), ?_⟩
  apply fields (by decide +kernel) ⟨some "up", "volume == hi"⟩ (by decide +kernel) "volume"
    (by decide +kernel) (by decide +kernel)
  rw [assigned "volume"]
  decide +kernel

end Vocabulary

end FormulaFields
