import FormulaFields.Operator.Rule
import FormulaFields.Proofs.Commas
import FormulaFields.Usage.Scan
import Mathlib.Data.List.Sort

/-!
Positions that are read off a signature, and the arguments of a call that is written like it. A
signature is cut at every comma, a call only at commas outside brackets and quoted texts. So an
argument with such a comma counts more than once in a signature, and the positions behind it lie
too far to the right.
-/
namespace FormulaFields.Operator.Signature

open Formula (Lexeme splitArguments shields mem_trim)
open Text (isBlank trim)

/-! ### Places in a list -/

section Places

variable {Item Part : Type}

/-- The places, counted from zero, of the items that pass a test. -/
def places (test : Item → Bool) (list : List Item) : List Nat :=
  (list.zipIdx.filter fun entry => test entry.1).map (·.2)

theorem mem_places_iff {test : Item → Bool} {list : List Item} {place : Nat} :
    place ∈ places test list ↔ list[place]?.any test = true := by
  simp [places, List.mk_mem_zipIdx_iff_getElem?, Option.any_eq_true]

theorem pairwise_places (test : Item → Bool) (list : List Item) :
    (places test list).Pairwise (· < ·) := by
  have within : (places test list).Sublist (list.zipIdx.map (·.2)) := List.filter_sublist.map _
  rw [List.zipIdx_map_snd] at within
  exact (List.pairwise_lt_range').sublist within

theorem filterMap_places (test : Item → Bool) (list : List Item) :
    (places test list).filterMap (list[·]?) = list.filter test := by
  have located : ∀ entry ∈ list.zipIdx.filter fun entry => test entry.1,
      list[entry.2]? = some entry.1 := fun entry member =>
    List.mk_mem_zipIdx_iff_getElem?.mp (List.mem_of_mem_filter member)
  rw [places, List.filterMap_map]
  calc (list.zipIdx.filter fun entry => test entry.1).filterMap ((list[·]?) ∘ (·.2))
    _ = (list.zipIdx.filter fun entry => test entry.1).filterMap (some ∘ Prod.fst) :=
        List.filterMap_congr located
    _ = (list.zipIdx.map Prod.fst).filter test := by
        rw [List.filterMap_eq_map, List.filter_map]
        rfl
    _ = list.filter test := by rw [List.zipIdx_map_fst]

private theorem any_eq_false_iff {test : Item → Bool} {list : List Item} :
    (∀ place : Nat, list[place]?.any test = false) ↔ ∀ x ∈ list, test x = false := by
  constructor
  · intro none x member
    obtain ⟨place, here⟩ := List.mem_iff_getElem?.mp member
    simpa [here] using none place
  · intro none place
    cases here : list[place]? with
    | none => rfl
    | some x => exact none x (List.mem_of_getElem? here)

variable {parts : Item → List Part} {test : Item → Bool} {pick : Part → Bool} {list : List Item}

/-- The first part of an item lies where the item does or behind. -/
private theorem exists_le_of_any
    (heads : ∀ x ∈ list, ∃ first more, parts x = first :: more ∧ pick first = test x)
    {place : Nat} (here : list[place]?.any test = true) :
    ∃ later : Nat, place ≤ later ∧ (list.flatMap parts)[later]?.any pick = true := by
  induction list generalizing place with
  | nil => simp at here
  | cons x rest ih =>
    simp only [List.mem_cons, forall_eq_or_imp] at heads
    obtain ⟨⟨first, more, split, same⟩, heads⟩ := heads
    cases place with
    | zero => exact ⟨0, Nat.le_refl 0, by simpa [split, same] using here⟩
    | succ place =>
      obtain ⟨later, behind, found⟩ := ih heads (by simpa using here)
      refine ⟨(parts x).length + later, by simp only [split, List.length_cons]; omega, ?_⟩
      rw [List.flatMap_cons, List.getElem?_append_right (Nat.le_add_right _ _)]
      simpa using found

/-- A test that passes further right wherever it passes never does, for the list ends. -/
private theorem any_eq_false_of_climb
    (climb : ∀ place : Nat, list[place]?.any test = true →
      ∃ later : Nat, place < later ∧ list[later]?.any test = true) (place : Nat) :
    list[place]?.any test = false := by
  have bounded (room : Nat) : ∀ place, list.length ≤ place + room →
      list[place]?.any test = false := by
    induction room with
    | zero =>
      intro place outside
      rw [List.getElem?_eq_none (by simpa using outside), Option.any_none]
    | succ room ih =>
      intro place inside
      apply Bool.eq_false_iff.mpr
      intro here
      obtain ⟨later, behind, there⟩ := climb place here
      rw [ih later (by omega)] at there
      cases there
  exact bounded list.length place (by omega)

/-- When items fall into parts, of which the first is picked where the item passes the test, then
parts are picked in the places of the items that pass if and only if no other part is picked and no
item passes behind one with several parts. -/
theorem any_flatMap_iff
    (heads : ∀ x ∈ list, ∃ first more, parts x = first :: more ∧ pick first = test x) :
    (∀ place : Nat, (list.flatMap parts)[place]?.any pick = list[place]?.any test) ↔
      (∀ x ∈ list, ∀ part ∈ (parts x).tail, pick part = false) ∧
        list.Pairwise fun x y => 1 < (parts x).length → test y = false := by
  induction list with
  | nil => simp
  | cons x rest ih =>
    simp only [List.mem_cons, forall_eq_or_imp] at heads
    obtain ⟨⟨first, more, split, same⟩, heads⟩ := heads
    -- The first places agree, so the places behind them decide.
    have step : (∀ place : Nat,
        ((x :: rest).flatMap parts)[place]?.any pick = (x :: rest)[place]?.any test) ↔
        ∀ place : Nat, (more ++ rest.flatMap parts)[place]?.any pick = rest[place]?.any test := by
      constructor
      · intro agree place
        have next := agree (place + 1)
        simpa only [List.flatMap_cons, split, List.cons_append, List.getElem?_cons_succ] using next
      · intro agree place
        cases place with
        | zero => simp [split, same]
        | succ place => simpa [split] using agree place
    rw [step, List.forall_mem_cons, List.pairwise_cons, split, List.tail_cons]
    cases more with
    | nil => simp [ih heads]
    | cons second others =>
      have several : 1 < (first :: second :: others).length := by simp
      constructor
      · intro agree
        -- Each item that passes has a part further right, so another item passes there.
        have none (place : Nat) : rest[place]?.any test = false := by
          refine any_eq_false_of_climb (fun place here => ?_) place
          obtain ⟨later, behind, found⟩ := exists_le_of_any heads here
          refine ⟨(second :: others).length + later, by simp only [List.length_cons]; omega, ?_⟩
          rw [← agree, List.getElem?_append_right (Nat.le_add_right _ _)]
          simpa using found
        have unpicked := any_eq_false_iff.mp fun place => (agree place).trans (none place)
        have failing := any_eq_false_iff.mp none
        refine ⟨⟨fun part member => unpicked part (List.mem_append_left _ member),
          fun y member part inside => unpicked part (List.mem_append_right _ ?_)⟩,
          fun y member _ => failing y member,
          List.pairwise_of_forall_mem_list fun _ _ y member _ => failing y member⟩
        exact List.mem_flatMap.mpr ⟨y, member, List.mem_of_mem_tail inside⟩
      · -- Nothing passes behind the item, and then nothing is picked there either.
        rintro ⟨⟨front, later⟩, behind, pairs⟩
        have none := any_eq_false_iff.mpr fun y member => behind y member several
        have agree := (ih heads).mpr ⟨later, pairs⟩
        have back := any_eq_false_iff.mp fun place => (agree place).trans (none place)
        intro place
        rw [none place]
        refine any_eq_false_iff.mpr (fun part member => ?_) place
        rcases List.mem_append.mp member with inside | further
        · exact front part inside
        · exact back part further

end Places

/-! ### Parameters and arguments -/

/-- The parameter stands for a data field. -/
def standsForField (parameter : List Char) : Bool := isFieldParameter (parameterName parameter)

/-- The parameters as they are written, the ellipsis left out: the arguments of a call that is
written like the signature. -/
def writtenArguments (inside : List Char) : List String :=
  (splitArguments (String.ofList inside)).filter (· != "...")

/-- A comma parts parameters. All that is known of them follows from this equation. -/
theorem parameters_append_comma (head tail : List Char) :
    parameters (head ++ ',' :: tail) = parameters head ++ parameters tail := by
  simp [parameters, List.splitOn_append_cons_self]

private theorem parameters_of_plain {text : List Char} (plain : ',' ∉ text) :
    parameters text = [trim text].filter fun p => !p.isEmpty && p != ['.', '.', '.'] := by
  rw [parameters, List.splitOn_eq_singleton plain]
  rfl

/-- Blanks around parameters make no difference. -/
private theorem parameters_blanks {before after : List Char}
    (front : ∀ c ∈ before, isBlank c = true) (back : ∀ c ∈ after, isBlank c = true)
    (text : List Char) : parameters (before ++ text ++ after) = parameters text := by
  have no_comma {blanks : List Char} (blank : ∀ c ∈ blanks, isBlank c = true) : ',' ∉ blanks :=
    fun member => absurd (blank _ member) (by decide)
  by_cases comma : ',' ∈ text
  -- The blanks in front belong to the first parameter, those behind to what follows it.
  · obtain ⟨head, tail, rfl, plain⟩ := List.eq_append_cons_of_mem comma
    have later : parameters ([] ++ tail ++ after) = parameters tail :=
      parameters_blanks (List.forall_mem_nil _) back tail
    have first : parameters (before ++ head ++ []) = parameters head := by
      rw [parameters_of_plain (by simp [no_comma front, plain]), parameters_of_plain plain,
        Formula.trim_blanks front (List.forall_mem_nil _)]
    calc parameters (before ++ (head ++ ',' :: tail) ++ after)
      _ = parameters ((before ++ head ++ []) ++ ',' :: ([] ++ tail ++ after)) := by simp
      _ = parameters head ++ parameters tail := by rw [parameters_append_comma, first, later]
      _ = parameters (head ++ ',' :: tail) := (parameters_append_comma head tail).symm
  · rw [parameters_of_plain (by simp [no_comma front, no_comma back, comma]),
      parameters_of_plain comma, Formula.trim_blanks front back]
termination_by text.length

theorem parameters_trim (text : List Char) : parameters (trim text) = parameters text := by
  obtain ⟨before, after, whole, front, back⟩ := Formula.exists_trim text
  have same := parameters_blanks front back (trim text)
  rw [← whole] at same
  exact same.symm

theorem parameters_intercalate (texts : List (List Char)) :
    parameters ([','].intercalate texts) = texts.flatMap parameters := by
  induction texts with
  | nil => rfl
  | cons first rest ih =>
    cases rest with
    | nil => simp
    | cons second more =>
      rw [List.intercalate_cons_cons, List.append_assoc, List.singleton_append,
        parameters_append_comma, ih]
      rfl

private theorem flatMap_filter {kept : String → Bool}
    (gone : ∀ argument, kept argument = false → parameters argument.toList = [])
    (arguments : List String) :
    (arguments.filter kept).flatMap (parameters ·.toList) =
      arguments.flatMap (parameters ·.toList) := by
  induction arguments with
  | nil => rfl
  | cons first rest ih =>
    rw [List.filter_cons, List.flatMap_cons]
    split
    · rw [List.flatMap_cons, ih]
    next left =>
      rw [gone first (by simpa using left), ih, List.nil_append]

/-- The parameters of a signature are those of its arguments. -/
theorem parameters_eq_flatMap (inside : List Char) :
    parameters inside = (writtenArguments inside).flatMap (parameters ·.toList) := by
  have whole := Lexeme.render_eq_intercalate
    (Lexeme.settled_lexemes (String.ofList inside)).sound 0
  rw [Formula.render_lexemes, String.toList_ofList] at whole
  have trimmed (group : List Lexeme) :
      parameters (Lexeme.trimmedText group).toList = parameters (Lexeme.render group) := by
    rw [Lexeme.trimmedText, String.toList_ofList, parameters_trim]
  have blank (argument : String) (empty : (!argument.isEmpty) = false) :
      parameters argument.toList = [] := by
    obtain rfl : argument = "" := by simpa using empty
    rfl
  have ellipsis (argument : String) (dots : (argument != "...") = false) :
      parameters argument.toList = [] := by
    obtain rfl : argument = "..." := by simpa using dots
    decide +kernel
  rw [writtenArguments, splitArguments, Formula.splitText, flatMap_filter ellipsis,
    flatMap_filter blank, List.flatMap_map]
  simp only [trimmed]
  conv_lhs => rw [whole, parameters_intercalate, List.flatMap_map]

/-! ### The first parameter of an argument -/

/-- No bracket and no quote stands in the name of a data field. -/
private theorem not_mem_shields_of_field {name : List Char} (field : isFieldParameter name = true)
    {c : Char} (member : c ∈ name) : c ∉ shields := by
  intro shield
  have plain : (("input".toList :: fieldNames).all fun known => known.all (!shields.contains ·)) =
      true := by decide
  have letters (known : List Char) (listed : known ∈ "input".toList :: fieldNames)
      (inside : c ∈ known) : c ∉ shields := by
    simpa using List.all_eq_true.mp (List.all_eq_true.mp plain known listed) c inside
  rw [isFieldParameter, Bool.or_eq_true] at field
  rcases field with known | numbered
  · exact letters name (List.mem_cons_of_mem _ (by simpa using known)) member shield
  · simp only [isNumberedInput, Bool.and_eq_true, List.isPrefixOf_iff_prefix,
      List.all_eq_true] at numbered
    obtain ⟨⟨number, rfl⟩, _, digits⟩ := numbered
    rcases List.mem_append.mp member with inside | behind
    · exact letters _ List.mem_cons_self inside shield
    · have inked := Formula.not_blank_of_mem_shields shield
      have digit : c.isDigit = true := digits c (mem_trim inked behind)
      have none : shields.all (!·.isDigit) = true := by decide
      have other : (!c.isDigit) = true := List.all_eq_true.mp none c shield
      simp [digit] at other

private theorem not_standsForField {parameter : List Char} {c : Char}
    (member : c ∈ parameter.takeWhile (· != '=')) (shield : c ∈ shields) :
    standsForField parameter = false := by
  apply Bool.eq_false_iff.mpr
  intro field
  have kept := mem_trim (Formula.not_blank_of_mem_shields shield) member
  exact not_mem_shields_of_field field kept shield

private theorem takeWhile_append_of_mem {first : List Char} (equals : '=' ∈ first)
    (second : List Char) :
    (first ++ second).takeWhile (· != '=') = first.takeWhile (· != '=') := by
  obtain ⟨head, tail, rfl, before⟩ := List.eq_append_cons_of_mem equals
  have passed : ∀ c ∈ head, (c != '=') = true := fun c member => by
    simpa using fun same : c = '=' => before (same ▸ member)
  simp [List.takeWhile_append_of_pos passed]

/-- An argument without a comma is one parameter. -/
theorem parameters_of_plain_argument {inside : List Char} {argument : String}
    (member : argument ∈ writtenArguments inside) (plain : ',' ∉ argument.toList) :
    parameters argument.toList = [argument.toList] := by
  obtain ⟨written, dots⟩ := List.mem_filter.mp member
  obtain ⟨shown, trimmed⟩ := Formula.trimmed_of_mem_splitArguments written
  have other : argument.toList ≠ ['.', '.', '.'] := by
    intro same
    obtain rfl : argument = "..." := String.toList_inj.mp same
    simp at dots
  rw [parameters_of_plain plain, trimmed]
  simp [shown, other]

/-- Up to the first comma an argument stands for a field if the whole argument does. -/
private theorem standsForField_trim {head tail : List Char} {c : Char} (member : c ∈ head)
    (shield : c ∈ shields) :
    standsForField (trim head) = standsForField (head ++ ',' :: tail) := by
  have inked := Formula.not_blank_of_mem_shields shield
  by_cases equals : '=' ∈ head
  -- The name ends before the comma.
  · obtain ⟨before, after, whole, front, _⟩ := Formula.exists_trim head
    have blank : ∀ d ∈ before, (d != '=') = true := fun d inside => by
      simpa using fun same : d = '=' => absurd (front d inside) (by rw [same]; decide)
    have name : head.takeWhile (· != '=') = before ++ (trim head).takeWhile (· != '=') ++ [] := by
      conv_lhs => rw [whole, List.append_assoc, List.takeWhile_append_of_pos blank,
        takeWhile_append_of_mem (mem_trim (by decide) equals)]
      simp
    rw [standsForField, standsForField, parameterName, parameterName,
      takeWhile_append_of_mem equals, name, Formula.trim_blanks front (List.forall_mem_nil _)]
  -- The name runs over the bracket or quote, so it is none of a field.
  · have passed : ∀ d ∈ head, (d != '=') = true := fun d inside => by
      simpa using fun same : d = '=' => equals (same ▸ inside)
    have passed' : ∀ d ∈ trim head, (d != '=') = true := fun d inside =>
      passed d ((Formula.isInfix_trim head).subset inside)
    rw [not_standsForField _ shield, not_standsForField _ shield]
    · rw [List.takeWhile_append_of_pos passed]
      exact List.mem_append_left _ member
    · rw [List.takeWhile_eq_self_iff.mpr passed']
      exact mem_trim inked member

/-- An argument has a first parameter, which stands for a field if the argument does. -/
theorem parameters_of_mem_writtenArguments {inside : List Char} {argument : String}
    (member : argument ∈ writtenArguments inside) :
    ∃ first more, parameters argument.toList = first :: more ∧
      standsForField first = standsForField argument.toList := by
  by_cases comma : ',' ∈ argument.toList
  -- What stands before the comma holds a bracket or a quote, so it is a parameter.
  · obtain ⟨head, tail, whole, plain⟩ := List.eq_append_cons_of_mem comma
    obtain ⟨c, inside, shield⟩ := Formula.exists_shield_of_mem_splitArguments
      (List.mem_of_mem_filter member) whole
    have kept : c ∈ trim head := mem_trim (Formula.not_blank_of_mem_shields shield) inside
    have counts : (!(trim head).isEmpty && trim head != ['.', '.', '.']) = true := by
      have other : trim head ≠ ['.', '.', '.'] := by
        intro same
        obtain rfl : c = '.' := by simpa [same] using kept
        exact absurd shield (by decide)
      simp [List.ne_nil_of_mem kept, other]
    refine ⟨trim head, parameters tail, ?_, ?_⟩
    · rw [whole, parameters_append_comma, parameters_of_plain plain, List.filter_cons,
        if_pos counts]
      rfl
    · rw [whole, standsForField_trim inside shield]
  · exact ⟨argument.toList, [], parameters_of_plain_argument member comma, rfl⟩

/-! ### Positions -/

variable {signature : String} {inside : List Char}

/-- The first parenthesis of the signature opens, and `inside` stands between it and the first one
that closes. -/
def Encloses (signature : String) (inside : List Char) : Prop :=
  ∃ before after, signature.toList = before ++ '(' :: (inside ++ ')' :: after) ∧
    '(' ∉ before ∧ ')' ∉ before ∧ ')' ∉ inside

theorem parameterText?_of_encloses (encloses : Encloses signature inside) :
    parameterText? signature.toList = some inside := by
  obtain ⟨before, after, whole, opening, closing, unclosed⟩ := encloses
  have passed : ∀ c ∈ before, (c != '(' && c != ')') = true := fun c member => by
    have first : c ≠ '(' := fun same => opening (same ▸ member)
    have second : c ≠ ')' := fun same => closing (same ▸ member)
    simp [first, second]
  have within : ∀ c ∈ inside, (c != ')') = true := fun c member => by
    simpa using fun same : c = ')' => unclosed (same ▸ member)
  rw [parameterText?, whole, List.dropWhile_append_of_pos passed]
  simp [List.takeWhile_append_of_pos within]

/-- The positions are the places of the field parameters among those of all written arguments. -/
theorem fieldPositions_eq (encloses : Encloses signature inside) :
    fieldPositions signature =
      places standsForField ((writtenArguments inside).flatMap (parameters ·.toList)) := by
  rw [fieldPositions, parameterText?_of_encloses encloses, ← parameters_eq_flatMap]
  rfl

/-- The positions read off the signature are, in increasing order, those of the arguments that
stand for a field in a call that is written like it. -/
def CountsArguments (signature : String) (inside : List Char) : Prop :=
  (fieldPositions signature).Pairwise (· < ·) ∧
    ∀ position, position ∈ fieldPositions signature ↔
      (writtenArguments inside)[position]?.any (standsForField ·.toList) = true

/-- In that case the rule of the signature picks the arguments of such a call that stand for a
field, but for named ones. -/
theorem fieldArguments_of_countsArguments (counts : CountsArguments signature inside)
    {v : Vocabulary} {name : String} (rule : v.rules[name]? = some (Rule.ofSignature signature))
    (found : fieldPositions signature ≠ []) :
    v.fieldArguments Formula.mentionsEquals ⟨name, writtenArguments inside⟩ =
      (writtenArguments inside).filter fun argument =>
        standsForField argument.toList && !Formula.mentionsEquals argument := by
  -- Both lists increase and have the same members.
  have same : fieldPositions signature =
      places (standsForField ·.toList) (writtenArguments inside) := by
    refine counts.1.eq_of_mem_iff (pairwise_places _ _) fun position => ?_
    rw [counts.2 position, mem_places_iff]
  have kept : (Rule.ofSignature signature).isEmpty = false := by
    simpa [Rule.isEmpty, Rule.ofSignature] using found
  simp only [Vocabulary.fieldArguments, rule, kept]
  simp only [Rule.ofSignature, same, filterMap_places, List.filter_filter]
  simp [Bool.and_comm]

/-- Every signature counts arguments. -/
def SignaturesCountArguments : Prop :=
  ∀ signature inside, Encloses signature inside → CountsArguments signature inside

/-- In `f([a, b], x)` the field comes second in a call and third in the signature. -/
theorem not_signaturesCountArguments : ¬ SignaturesCountArguments := by
  intro counted
  have encloses : Encloses "f([a, b], x)" "[a, b], x".toList :=
    ⟨['f'], [], by decide +kernel⟩
  have second := ((counted _ _ encloses).2 1).mpr (by decide +kernel)
  exact absurd second (by decide +kernel)

/-- No argument holds a field parameter behind a comma, and none that counts as several comes before
an argument that stands for a field. -/
def InStep (inside : List Char) : Prop :=
  (∀ argument ∈ writtenArguments inside, ∀ other ∈ (parameters argument.toList).tail,
      standsForField other = false) ∧
    (writtenArguments inside).Pairwise fun argument later =>
      1 < (parameters argument.toList).length → standsForField later.toList = false

instance (inside : List Char) : Decidable (InStep inside) := inferInstanceAs (Decidable (_ ∧ _))

theorem countsArguments_iff (encloses : Encloses signature inside) :
    CountsArguments signature inside ↔ InStep inside := by
  rw [InStep, ← any_flatMap_iff fun argument => parameters_of_mem_writtenArguments,
    CountsArguments, fieldPositions_eq encloses, and_iff_right (pairwise_places _ _)]
  exact forall_congr' fun position => by rw [mem_places_iff]; exact Bool.eq_iff_iff.symm

theorem inStep_of_plain (plain : ∀ argument ∈ writtenArguments inside, ',' ∉ argument.toList) :
    InStep inside := by
  have single (argument : String) (member : argument ∈ writtenArguments inside) :
      parameters argument.toList = [argument.toList] :=
    parameters_of_plain_argument member (plain argument member)
  constructor
  · intro argument member other behind
    rw [single argument member] at behind
    cases behind
  · refine List.pairwise_of_forall_mem_list fun argument member later _ several => ?_
    simp [single argument member] at several

/-- Every comma counts in a signature, so its positions are those of the arguments if and only if
the two keep in step: in particular where no argument holds a comma. A rule then picks the arguments
that stand for a field, but for named ones. -/
theorem fieldPositions_of_encloses (encloses : Encloses signature inside) :
    fieldPositions signature =
        places standsForField ((writtenArguments inside).flatMap (parameters ·.toList)) ∧
      (CountsArguments signature inside ↔ InStep inside) ∧
      ((∀ argument ∈ writtenArguments inside, ',' ∉ argument.toList) →
        CountsArguments signature inside) ∧
      (CountsArguments signature inside → ∀ (v : Vocabulary) (name : String),
        v.rules[name]? = some (Rule.ofSignature signature) → fieldPositions signature ≠ [] →
          v.fieldArguments Formula.mentionsEquals ⟨name, writtenArguments inside⟩ =
            (writtenArguments inside).filter fun argument =>
              standsForField argument.toList && !Formula.mentionsEquals argument) := by
  have exactly := countsArguments_iff encloses
  refine ⟨fieldPositions_eq encloses, exactly, fun plain => ?_, fun counts v name rule found => ?_⟩
  · exact exactly.mpr (inStep_of_plain plain)
  · exact fieldArguments_of_countsArguments counts rule found

/-- A signature with a comma in a default. -/
def regression : String := "ts_regression(y, x, d = 1, rettype = [0, 1], ...) of two series"

/-- The comma comes behind the fields, so the positions are right and pick the fields of a call. -/
theorem fieldPositions_of_encloses_regression :
    Encloses regression "y, x, d = 1, rettype = [0, 1], ...".toList ∧
      CountsArguments regression "y, x, d = 1, rettype = [0, 1], ...".toList ∧
      Vocabulary.fieldArguments ⟨∅, .ofList [("ts_regression", Rule.ofSignature regression)], 50⟩
        Formula.mentionsEquals ⟨"ts_regression", ["y", "x", "d = 1", "rettype = [0, 1]"]⟩ =
          ["y", "x"] := by
  have encloses : Encloses regression "y, x, d = 1, rettype = [0, 1], ...".toList :=
    ⟨"ts_regression".toList, " of two series".toList, by decide +kernel⟩
  obtain ⟨_, exactly, _, picks⟩ := fieldPositions_of_encloses encloses
  have counts := exactly.mpr (by decide +kernel)
  have picked := picks counts
    ⟨∅, .ofList [("ts_regression", Rule.ofSignature regression)], 50⟩ "ts_regression"
    (by decide +kernel) (by decide +kernel)
  have written : writtenArguments "y, x, d = 1, rettype = [0, 1], ...".toList =
      ["y", "x", "d = 1", "rettype = [0, 1]"] := by decide +kernel
  rw [written] at picked
  exact ⟨encloses, counts, picked.trans (by decide +kernel)⟩

end FormulaFields.Operator.Signature
