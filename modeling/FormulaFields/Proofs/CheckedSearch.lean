import FormulaFields.Proofs.ByteSlices
import FormulaFields.Proofs.Ceiling

/-!
The search for fields as a run on bytes. Each stage reads a text as kinds and places of tokens, cuts
it at these places and hands the parts to the next stage, which reads them anew from byte zero; all
slices, indexes and numbers are checked. The run takes all its steps, whatever the formula, and ends
with what the search finds. Only brackets are counted unchecked, and no count of them exceeds the
number of bytes. Main statement: `Checked.never_trapped`.
-/
namespace FormulaFields.Checked

open Formula

/-! ### Splitting -/

/-- The token stands outside brackets, is no bracket, and `cuts` accepts it. -/
def separates (cuts : Span → Checked Bool) (depth : Int) (t : Span) : Checked Bool :=
  if t.kind.shift == 0 && depth == 0 then cuts t else return false

/-- The pieces of a text from the one that begins at `start`. Of its tokens some may be read, and
those behind them are left, the first one `depth` deep in brackets. -/
def pieces (text : String) (cuts : Span → Checked Bool) (depth : Int) (start : Nat) :
    List Span → Checked (List String)
  | [] => return [← slice text start text.utf8ByteSize]
  | t :: rest => do
    if ← separates cuts depth t then
      let piece ← slice text start t.start
      return piece :: (← pieces text cuts depth t.stop rest)
    else pieces text cuts (depth + t.kind.shift) start rest

def splitText (cuts : Span → Checked Bool) (text : String) : Checked (List String) := do
  let found ← pieces text cuts 0 0 (spans text)
  return (found.map Text.trimmed).filter (!·.isEmpty)

/-- On the tokens of a text, the checked test says what the test says. -/
def Decides (text : String) (cuts : Span → Checked Bool) (test : Token → Bool) : Prop :=
  ∀ p ∈ placedTokens text, cuts p.span = .ok (test p.token)

theorem decides_kind (text : String) (test : Kind → Bool) :
    Decides text (fun t => return test t.kind) (test ·.kind) :=
  fun _ _ => rfl

theorem Decides.separates {text : String} {cuts : Span → Checked Bool} {test : Token → Bool}
    (decides : Decides text cuts test) {p : Placed} (member : p ∈ placedTokens text)
    (depth : Int) :
    separates cuts depth p.span =
      .ok (Nesting.separates (·.kind.shift) test depth p.token) := by
  rw [Checked.separates, Nesting.separates, decides p member, Placed.kind_span]
  cases p.token.kind.shift == 0 && depth == 0 <;> rfl

private theorem mem_placedTokens {text : String} {front back : List Lexeme} {t : Token}
    (whole : lexemes text = front ++ .token t :: back) :
    ⟨t, Lexeme.size front, Lexeme.size front + t.text.utf8ByteSize⟩ ∈ placedTokens text :=
  List.mem_of_getElem? (getElem?_placedTokens whole)

private theorem separates_blank (test : Token → Bool) (depth : Int) (c : Char) :
    Nesting.separates Lexeme.shift (Lexeme.passes test) depth (.blank c) = false := by
  simp [Nesting.separates, Lexeme.passes, Lexeme.token?]

private theorem modifyHead_nil_append (groups : List (List Lexeme)) :
    groups.modifyHead ([] ++ ·) = groups := by
  cases groups <;> rfl

private theorem pieces_eq {text : String} {cuts : Span → Checked Bool} {test : Token → Bool}
    (decides : Decides text cuts test) {front piece rest : List Lexeme}
    (whole : lexemes text = front ++ piece ++ rest) (depth : Int) :
    pieces text cuts depth (Lexeme.size front)
        ((place (Lexeme.size (front ++ piece)) rest).map (·.span)) =
      .ok (((Nesting.pieces Lexeme.shift (Lexeme.passes test) depth rest).modifyHead
        (piece ++ ·)).map fun group => String.ofList (Lexeme.render group)) := by
  induction rest generalizing front piece depth with
  | nil =>
    rw [List.append_nil] at whole
    simp [place, pieces, slice_back whole, Nesting.pieces]
  | cons x rest ih =>
    -- Unless `x` separates, it goes with the piece that is being read.
    have beyond : lexemes text = front ++ (piece ++ [x]) ++ rest := by simp [whole]
    have grown := ih beyond
    have joined (groups : List (List Lexeme)) :
        (groups.modifyHead (x :: ·)).modifyHead (piece ++ ·) =
          groups.modifyHead ((piece ++ [x]) ++ ·) := by
      cases groups <;> simp
    rw [Nesting.pieces]
    cases x with
    | blank c =>
      rw [separates_blank, if_neg Bool.false_ne_true, joined, ← grown]
      simp [place, Lexeme.shift, Nat.add_assoc]
    | token t =>
      have decided := decides.separates (mem_placedTokens whole) depth
      have same : Nesting.separates (·.kind.shift) test depth t =
          Nesting.separates Lexeme.shift (Lexeme.passes test) depth (.token t) := rfl
      rw [same] at decided
      simp only [place, List.map_cons, pieces, decided, ok_bind]
      split
      -- The piece ends before the token, and the next one, empty so far, begins behind it.
      · have taken := slice_of_lexemes whole
        rw [← Lexeme.size_append] at taken
        have cut : lexemes text = (front ++ piece ++ [.token t]) ++ [] ++ rest := by simp [whole]
        have later := ih cut depth
        rw [List.append_nil, Lexeme.size_append (front ++ piece), Lexeme.size_token,
          Lexeme.size_nil, Nat.add_zero, modifyHead_nil_append] at later
        simp only [Placed.start_span, Placed.stop_span, taken, later, ok_bind, pure_eq_ok]
        simp
      · rw [joined, ← grown (depth + Lexeme.shift (.token t))]
        simp [Lexeme.shift, Nat.add_assoc]

private theorem trimmed_ofList (ls : List Lexeme) :
    Text.trimmed (String.ofList (Lexeme.render ls)) = Lexeme.trimmedText ls := by
  rw [Text.trimmed, String.toList_ofList, Lexeme.trimmedText]

theorem splitText_eq {text : String} {cuts : Span → Checked Bool} {test : Token → Bool}
    (decides : Decides text cuts test) :
    splitText cuts text = .ok (Formula.splitText test text) := by
  have whole : lexemes text = [] ++ [] ++ lexemes text := rfl
  have found := pieces_eq decides whole 0
  rw [List.append_nil, Lexeme.size_nil, modifyHead_nil_append] at found
  rw [splitText, spans, placedTokens, found, Formula.splitText]
  simp [Function.comp_def, trimmed_ofList]

/-! ### Names -/

def names (text : String) : Checked (List String) :=
  ((spans text).filter (·.kind == .name)).mapM (·.text text)

/-- The names that an equals sign follows. -/
def boundNames (text : String) : Checked (List String) :=
  (((spans text).zip (spans text).tail).filter fun (t, next) =>
    t.kind == .name && next.kind == .equals).mapM fun (t, _) => t.text text

def plainNames (v : Vocabulary) (text : String) : Checked (List String) := do
  let bound ← boundNames text
  return (← names text).filter fun name =>
    !v.isOperator name && !bound.contains name && !Token.logicalWords.contains name

theorem names_eq (text : String) : names text = .ok (Formula.names (tokens text)) := by
  have taken : ∀ p ∈ (placedTokens text).filter (·.token.isName),
      p.span.text text = .ok p.token.text :=
    fun p member => text_span (List.mem_filter.mp member).1
  rw [names, spans, List.filter_map, List.mapM_map]
  rw [Formula.names, ← map_token_placedTokens, List.filter_map, List.map_map]
  exact mapM_eq_ok taken

theorem boundNames_eq (text : String) :
    boundNames text = .ok (Formula.boundNames (tokens text)) := by
  have taken : ∀ pair ∈ ((placedTokens text).zip (placedTokens text).tail).filter
        (fun pair => pair.1.token.isName && pair.2.token.kind == .equals),
      pair.1.span.text text = .ok pair.1.token.text :=
    fun pair member => text_span (List.of_mem_zip (List.mem_filter.mp member).1).1
  rw [boundNames, spans, ← List.map_tail, List.zip_map, List.filter_map, List.mapM_map]
  rw [Formula.boundNames, ← map_token_placedTokens, ← List.map_tail, List.zip_map,
    List.filterMap_map]
  refine (mapM_eq_ok taken).trans (congrArg Except.ok ?_)
  rw [← List.filterMap_eq_map, List.filterMap_filter]
  rfl

theorem plainNames_eq (v : Vocabulary) (text : String) :
    plainNames v text = .ok (v.plainNames (tokens text)) := by
  rw [plainNames, boundNames_eq, names_eq]
  rfl

/-! ### Statements -/

/-- Both sides of the first equals sign that stands outside brackets among the last tokens of a
text, at whose first token the brackets are `depth` deep. -/
def assignment? (text : String) (depth : Int) : List Span → Checked (Option (String × String))
  | [] => return none
  | t :: rest =>
    if t.kind.shift == 0 && depth == 0 && t.kind == .equals then do
      let target ← slice text 0 t.start
      let value ← slice text t.stop text.utf8ByteSize
      return some (Text.trimmed target, Text.trimmed value)
    else assignment? text (depth + t.kind.shift) rest

def statement (text : String) : Checked Statement := do
  match ← assignment? text 0 (spans text) with
  | some (target, value) => return ⟨some target, value⟩
  | none => return ⟨none, text⟩

/-- The names that a statement assigns. -/
def assigned (operators : NameSet) (s : Statement) : Checked (List String) :=
  match s.target with
  | some target => return (← names target).filter (!operators.contains ·)
  | none => return []

def script (operators : NameSet) (text : String) : Checked Script := do
  let statements ← (← splitText (fun t => return t.kind == .semicolon) text).mapM statement
  let assigned ← statements.mapM (assigned operators)
  return ⟨.ofList assigned.flatten, (statements.map (·.value)).filter (!·.isEmpty)⟩

private theorem assignment?_eq {text : String} {front rest : List Lexeme}
    (whole : lexemes text = front ++ rest) (depth : Int) :
    assignment? text depth ((place (Lexeme.size front) rest).map (·.span)) =
      .ok ((Nesting.cutFirst? Lexeme.shift (Lexeme.passes (·.kind == .equals)) depth rest).map
        fun cut => (Lexeme.trimmedText (front ++ cut.1), Lexeme.trimmedText cut.2)) := by
  induction rest generalizing front depth with
  | nil => rfl
  | cons x rest ih =>
    have beyond : lexemes text = (front ++ [x]) ++ rest := by simp [whole]
    have later := ih beyond
    rw [Nesting.cutFirst?]
    cases x with
    | blank c =>
      rw [separates_blank, if_neg Bool.false_ne_true, Option.map_map]
      have behind := later (depth + Lexeme.shift (.blank c))
      simpa [place, Lexeme.shift, Function.comp_def] using behind
    | token t =>
      have same : Nesting.separates Lexeme.shift (Lexeme.passes (·.kind == .equals)) depth
          (.token t) = (t.kind.shift == 0 && depth == 0 && t.kind == .equals) := rfl
      rw [place, List.map_cons, assignment?, same, Placed.kind_span]
      by_cases separator : (t.kind.shift == 0 && depth == 0 && t.kind == .equals) = true
      · have behind := slice_back beyond
        rw [Lexeme.size_append, Lexeme.size_token, Lexeme.size_nil, Nat.add_zero] at behind
        simp [separator, slice_front whole, behind, trimmed_ofList]
      · have behind := later (depth + Lexeme.shift (.token t))
        rw [if_neg separator, if_neg separator, Option.map_map]
        simpa [Lexeme.shift, Function.comp_def] using behind

theorem statement_eq (text : String) : statement text = .ok (Statement.ofText text) := by
  have whole : lexemes text = [] ++ lexemes text := rfl
  have cut := assignment?_eq whole 0
  rw [Lexeme.size_nil] at cut
  rw [statement, spans, placedTokens, cut, Statement.ofText]
  cases Nesting.cutFirst? Lexeme.shift (Lexeme.passes (·.kind == .equals)) 0 (lexemes text) <;> rfl

theorem assigned_eq (operators : NameSet) (s : Statement) :
    assigned operators s = .ok (s.assigned operators) := by
  rw [assigned, Statement.assigned]
  cases s.target with
  | none => rfl
  | some target => simp [names_eq]

theorem script_eq (operators : NameSet) (text : String) :
    script operators text = .ok (Script.ofText operators text) := by
  rw [script, splitText_eq (decides_kind text (· == .semicolon)), ok_bind,
    mapM_eq_ok fun part _ => statement_eq part, ok_bind,
    mapM_eq_ok fun s _ => assigned_eq operators s, ok_bind, Script.ofText, Script.ofStatements,
    List.flatMap_def]
  rfl

/-! ### Expressions -/

/-- Only the characters of a name are looked up. -/
def isLogicalWord (text : String) (t : Span) : Checked Bool :=
  if t.kind == .name then return Token.logicalWords.contains (← t.text text) else return false

def isJoint (text : String) (t : Span) : Checked Bool :=
  if t.kind.isConnective then return true else isLogicalWord text t

def isCompound (text : String) (depth : Int) : List Span → Checked Bool
  | [] => return false
  | t :: rest => do
    if t.kind.isConnective then return true
    else if ← separates (isLogicalWord text) depth t then return true
    else isCompound text (depth + t.kind.shift) rest

theorem decides_isLogicalWord (text : String) :
    Decides text (isLogicalWord text) Token.isLogicalWord := by
  intro p member
  rw [isLogicalWord, text_span member, Token.isLogicalWord, Placed.kind_span]
  cases p.token.kind == .name <;> rfl

theorem decides_isJoint (text : String) : Decides text (isJoint text) Token.isJoint := by
  intro p member
  rw [isJoint, decides_isLogicalWord text p member, Token.isJoint, Placed.kind_span]
  cases p.token.kind.isConnective <;> rfl

private theorem isCompound_eq_of_subset {text : String} {placed : List Placed}
    (subset : placed ⊆ placedTokens text) (depth : Int) :
    isCompound text depth (placed.map (·.span)) =
      .ok ((placed.map (·.token)).any (·.kind.isConnective) ||
        (Nesting.cutFirst? (·.kind.shift) Token.isLogicalWord depth
          (placed.map (·.token))).isSome) := by
  -- On any tokens of the text, since what is left of its list is no longer the whole of it.
  induction placed generalizing depth with
  | nil => rfl
  | cons p rest ih =>
    obtain ⟨member, later⟩ := List.cons_subset.mp subset
    have decided := (decides_isLogicalWord text).separates member depth
    simp only [List.map_cons, List.any_cons, isCompound, Nesting.cutFirst?, Placed.kind_span,
      decided, ok_bind, ih later]
    cases p.token.kind.isConnective
    · cases Nesting.separates (·.kind.shift) Token.isLogicalWord depth p.token <;> simp
    · rfl

theorem isCompound_eq (text : String) :
    isCompound text 0 (spans text) = .ok (Formula.isCompound (tokens text)) := by
  rw [spans, isCompound_eq_of_subset (List.Subset.refl _), map_token_placedTokens]
  rfl

/-! ### Calls -/

/-- How many tokens stand before the one at which as many parentheses are closed as opened, `count`
more being open before the first. -/
def countdown : Nat → List Span → Checked (Option Nat)
  | _, [] => return none
  | count, t :: rest =>
    match t.kind, count with
    | .opening .round, count => (·.map (· + 1)) <$> countdown (count + 1) rest
    | .closing .round, 0 => .error .underflow
    | .closing .round, 1 => return some 0
    | .closing .round, count + 2 => (·.map (· + 1)) <$> countdown (count + 1) rest
    | _, count => (·.map (· + 1)) <$> countdown count rest

/-- The calls of an expression from the token `cursor` on. -/
def calls (text : String) (ts : List Span) (cursor : Nat) : Checked (List (Call String)) :=
  if inside : cursor + 1 < ts.length then do
    let name ← at? ts cursor
    let opening ← at? ts (cursor + 1)
    if name.kind == .name && opening.kind == .opening .round then
      match ← countdown 0 (ts.drop (cursor + 1)) with
      | none => return []
      | some behind =>
        -- Nothing inside the call is looked at here, so the next one begins behind it.
        let closing ← at? ts (cursor + 1 + behind)
        let inner ← slice text opening.stop closing.start
        let arguments ← splitText (fun t => return t.kind == .comma) inner
        return ⟨← name.text text, arguments⟩ :: (← calls text ts (cursor + 1 + behind + 1))
    else calls text ts (cursor + 1)
  else return []
termination_by ts.length - cursor

theorem countdown_eq (inner : Nat) (placed : List Placed) :
    countdown (inner + 1) (placed.map (·.span)) =
      .ok ((enclosed? inner (placed.map (·.token))).map (·.length)) := by
  induction placed generalizing inner with
  | nil => cases inner <;> rfl
  | cons p rest ih =>
    obtain ⟨⟨kind, word⟩, start, stop⟩ := p
    have head : Placed.span ⟨⟨kind, word⟩, start, stop⟩ = ⟨kind, start, stop⟩ := rfl
    rw [List.map_cons, List.map_cons, head]
    cases kind with
    | opening bracket => cases bracket <;> simp [countdown, enclosed?, ih, Function.comp_def]
    | closing bracket =>
      cases bracket
      case round => cases inner <;> simp [countdown, enclosed?, ih, Function.comp_def]
      all_goals simp [countdown, enclosed?, ih, Function.comp_def]
    | _ => simp [countdown, enclosed?, ih, Function.comp_def]

theorem countdown_drop {placed : List Placed} {index : Nat} {opening : Token}
    {more : List Token} (behind : (placed.map (·.token)).drop index = opening :: more)
    (opens : opening.kind = .opening .round) :
    countdown 0 ((placed.map (·.span)).drop index) =
      .ok ((enclosed? 0 more).map (·.length + 1)) := by
  rw [← List.map_drop, List.map_eq_cons_iff] at behind
  obtain ⟨p, placed, cut, rfl, rfl⟩ := behind
  have head : p.span = ⟨.opening .round, p.start, p.stop⟩ := by rw [Placed.span, opens]
  rw [← List.map_drop, cut]
  simp [head, countdown, countdown_eq, Function.comp_def]

private theorem at?_spans {text : String} {front back : List Lexeme} {t : Token}
    (whole : lexemes text = front ++ .token t :: back) :
    at? (spans text) (Lexeme.tokens front).length =
      .ok ⟨t.kind, Lexeme.size front, Lexeme.size front + t.text.utf8ByteSize⟩ := by
  rw [at?, spans, List.getElem?_map, getElem?_placedTokens whole]
  rfl

private theorem length_spans (text : String) : (spans text).length = (tokens text).length := by
  rw [spans, List.length_map, ← map_token_placedTokens, List.length_map]

/-- The next token stands behind blanks at most. -/
private theorem exists_of_tokens_eq_cons {ls : List Lexeme} {t : Token} {more : List Token}
    (shown : Lexeme.tokens ls = t :: more) :
    ∃ blanks, ls = blanks ++ .token t :: Lexeme.after 1 ls ∧ Lexeme.tokens blanks = [] ∧
      Lexeme.tokens (Lexeme.after 1 ls) = more := by
  refine ⟨Lexeme.before 0 ls, before_append_after (by simp [shown]), ?_, ?_⟩
  · rw [tokens_before, List.take_zero]
  · rw [tokens_after, shown]
    rfl

/-- Between an opening parenthesis and a later token the text can be cut. -/
private theorem slice_inside {text : String} {front ls : List Lexeme} {opening closing : Token}
    {inside tail : List Token} (opened : lexemes text = front ++ .token opening :: ls)
    (closed : Lexeme.tokens ls = inside ++ closing :: tail) :
    ∃ start stop,
      at? (spans text) ((Lexeme.tokens front).length + 1 + inside.length) =
        .ok ⟨closing.kind, start, stop⟩ ∧
      slice text (Lexeme.size front + opening.text.utf8ByteSize) start =
        .ok (String.ofList (Lexeme.render (Lexeme.before inside.length ls))) := by
  have there : (Lexeme.tokens ls)[inside.length]? = some closing := by simp [closed]
  have cut := before_append_after there
  have within : Lexeme.tokens (Lexeme.before inside.length ls) = inside := by
    rw [tokens_before, closed, List.take_left]
  have whole : lexemes text = (front ++ [.token opening]) ++ Lexeme.before inside.length ls ++
      .token closing :: Lexeme.after (inside.length + 1) ls := by
    rw [opened, List.append_assoc, List.append_assoc, List.singleton_append, ← cut]
  have found := at?_spans whole
  have taken := slice_of_lexemes whole
  simp only [Lexeme.tokens_append, Lexeme.tokens_token, Lexeme.tokens_nil, within,
    List.length_append, List.length_singleton] at found
  rw [Lexeme.size_append, Lexeme.size_token, Lexeme.size_nil, Nat.add_zero] at taken
  refine ⟨_, _, found, ?_⟩
  rwa [Lexeme.size_append, Lexeme.size_append, Lexeme.size_token, Lexeme.size_nil, Nat.add_zero]

/-- One step from a token: over a call that begins there, or else to the next token. -/
private theorem calls_step {text : String} {front rest : List Lexeme} {t : Token}
    (whole : lexemes text = front ++ .token t :: rest) :
    calls text (spans text) (Lexeme.tokens front).length =
      if t.isName && (Lexeme.tokens rest).head?.any (·.kind == .opening .round) then
        match enclosed? 0 (Lexeme.tokens rest).tail with
        | some inside =>
          (⟨t.text, splitArguments (Lexeme.inside inside.length rest)⟩ :: ·) <$>
            calls text (spans text) ((Lexeme.tokens front).length + 1 + (inside.length + 2))
        | none => .ok []
      else calls text (spans text) ((Lexeme.tokens front).length + 1) := by
  have count : (spans text).length =
      (Lexeme.tokens front).length + 1 + (Lexeme.tokens rest).length := by
    rw [length_spans, tokens, whole]
    simp only [Lexeme.tokens_append, Lexeme.tokens_token, List.length_append, List.length_cons]
    omega
  cases shown : Lexeme.tokens rest with
  | nil =>
    -- The last token begins no call, and no step is made from it or from behind it.
    rw [shown, List.length_nil] at count
    rw [calls, dif_neg (by omega), calls, dif_neg (by omega)]
    simp
  | cons opening more =>
    obtain ⟨blanks, cut, blank, behind⟩ := exists_of_tokens_eq_cons shown
    have opened : lexemes text =
        (front ++ .token t :: blanks) ++ .token opening :: Lexeme.after 1 rest := by
      rw [whole, List.append_assoc, List.cons_append, ← cut]
    have first : (Lexeme.tokens (front ++ .token t :: blanks)).length =
        (Lexeme.tokens front).length + 1 := by
      simp [blank]
    have next := at?_spans opened
    rw [shown, List.length_cons] at count
    rw [first] at next
    rw [calls, dif_pos (by omega), at?_spans whole, ok_bind, next, ok_bind, List.head?_cons,
      Option.any_some, List.tail_cons]
    by_cases call : (t.kind == .name && opening.kind == .opening .round) = true
    · have opens : opening.kind = .opening .round := eq_of_beq (Bool.and_eq_true_iff.mp call).2
      have ahead : ((placedTokens text).map (·.token)).drop ((Lexeme.tokens front).length + 1) =
          opening :: more := by
        rw [map_token_placedTokens, tokens, whole]
        simp [shown]
      rw [if_pos call, spans, countdown_drop ahead opens, ← spans, ok_bind, Token.isName,
        if_pos call]
      cases found : enclosed? 0 more with
      | none => rfl
      | some inside =>
        obtain ⟨closing, tail, split, _⟩ := exists_of_enclosed? found
        obtain ⟨start, stop, last, taken⟩ := slice_inside opened (behind.trans split)
        rw [first, Nat.add_assoc, Nat.add_comm 1 inside.length] at last
        have name : Span.text ⟨t.kind, Lexeme.size front, _⟩ text = .ok t.text :=
          text_span (mem_placedTokens whole)
        simp only [Option.map_some, last, ok_bind, taken,
          splitText_eq (decides_kind _ (· == .comma)), name]
        rfl
    · rw [if_neg call, Token.isName, if_neg call]

private theorem calls_eq_callsAfter {text : String} {front rest : List Lexeme}
    (whole : lexemes text = front ++ rest) (skip : Nat) :
    calls text (spans text) ((Lexeme.tokens front).length + skip) =
      .ok (callsAfter skip rest) := by
  induction rest generalizing front skip with
  | nil =>
    have few : ¬ (Lexeme.tokens front).length + skip + 1 < (spans text).length := by
      rw [length_spans, tokens, whole, List.append_nil]
      omega
    rw [calls, dif_neg few]
    cases skip <;> rfl
  | cons x rest ih =>
    have beyond : lexemes text = (front ++ [x]) ++ rest := by simp [whole]
    have later := ih beyond
    cases x with
    | blank c =>
      simp only [Lexeme.tokens_append, Lexeme.tokens_blank, Lexeme.tokens_nil, List.append_nil]
        at later
      rw [later]
      cases skip <;> rfl
    | token t =>
      simp only [Lexeme.tokens_append, Lexeme.tokens_token, Lexeme.tokens_nil, List.length_append,
        List.length_singleton] at later
      cases skip with
      | succ skip =>
        have next := later skip
        rw [Nat.add_assoc, Nat.add_comm 1 skip] at next
        exact next
      | zero =>
        have next : (Lexeme.tokens rest).head? = rest.findSome? Lexeme.token? :=
          List.head?_filterMap
        rw [Nat.add_zero, calls_step whole, callsAfter, next]
        split
        · cases enclosed? 0 (Lexeme.tokens rest).tail with
          | none => rfl
          | some inside => simp only [later, ok_map]
        · exact later 0

theorem calls_eq (text : String) : calls text (spans text) 0 = .ok (Formula.calls text) := by
  have whole : lexemes text = [] ++ lexemes text := rfl
  exact calls_eq_callsAfter whole 0

/-! ### The search -/

/-- The fields of an expression that is nested `depth` deep. What is cut out of it is nested deeper
by one. -/
def scanText (v : Vocabulary) (expression : String) (depth : Nat) : Checked (List String) :=
  let text := Text.trimmed expression
  if text.isEmpty then return []
  else if v.depthLimit < depth then plainNames v text
  else do
    let deeper (part : String) : Checked (List String) := do
      fits (depth + 1)
      scanText v part (depth + 1)
    if ← isCompound text 0 (spans text) then
      let found ← (← splitText (isJoint text) text).mapM deeper
      return found.flatten
    else
      let arguments := (← calls text (spans text) 0).flatMap (v.fieldArguments mentionsEquals)
      let found ← arguments.mapM deeper
      if found.flatten.isEmpty then plainNames v text else return found.flatten
termination_by v.depthLimit + 1 - depth

def fields (v : Vocabulary) (formula : String) : Checked NameSet := do
  let s ← script v.operators (clean formula)
  let whole ← scanText v s.joined 0
  let alone ← s.fragments.mapM (scanText v · 0)
  return .ofList ((whole ++ alone.flatten).filter fun name =>
    !s.assigned.contains name && !v.isOperator name)

private theorem scan_of_isEmpty (v : Vocabulary) (levels : Nat) {text : String}
    (empty : (Text.trimmed text).isEmpty = true) : v.scan levels text = [] := by
  rw [v.scan_sight, ← sight_trimmed, String.isEmpty_iff.mp empty]
  exact v.scanTokens_nil levels

theorem scanText_eq {v : Vocabulary} (limited : v.depthLimit < 2 ^ 64 - 1) (expression : String)
    (depth : Nat) : scanText v expression depth = .ok (v.scanText expression depth) := by
  rw [Vocabulary.scanText]
  induction count : v.depthLimit + 1 - depth generalizing expression depth with
  | zero =>
    have below : v.depthLimit < depth := by omega
    rw [scanText]
    dsimp only
    split
    next empty => rw [scan_of_isEmpty v 0 empty, pure_eq_ok]
    · rw [plainNames_eq, Vocabulary.scan]
  | succ levels ih =>
    have above : ¬ v.depthLimit < depth := by omega
    -- What is one level deeper still counts its levels in one word, for the limit lies below.
    have deeper (part : String) : (do fits (depth + 1); scanText v part (depth + 1)) =
        (.ok (v.scan levels part) : Checked (List String)) := by
      have bounded : depth + 1 < Settings.wordLimit := by
        have word : Settings.wordLimit = 2 ^ 64 := rfl
        omega
      rw [fits, if_pos bounded, ok_bind, ih part (depth + 1) (by omega)]
    rw [scanText]
    dsimp only
    split
    next empty => rw [scan_of_isEmpty v _ empty, pure_eq_ok]
    · simp only [isCompound_eq, splitText_eq (decides_isJoint _), calls_eq, plainNames_eq, ok_bind,
        mapM_eq_ok fun part _ => deeper part, Vocabulary.scan, List.flatMap_def]
      split
      · rfl
      · split <;> rfl

theorem fields_eq {v : Vocabulary} (limited : v.depthLimit < 2 ^ 64 - 1) (formula : String) :
    fields v formula = .ok (v.fields formula) := by
  rw [fields, script_eq, ok_bind, scanText_eq limited, ok_bind,
    mapM_eq_ok fun part _ => scanText_eq limited part 0, ok_bind]
  rfl

/-! ### Counts of brackets -/

private theorem natAbs_level_le (depth : Int) (ts : List Token) :
    (Nesting.level (·.kind.shift) depth ts).natAbs ≤ depth.natAbs + ts.length := by
  induction ts generalizing depth with
  | nil => exact Nat.le_refl _
  | cons t rest ih =>
    -- A token opens one bracket, closes one, or does neither.
    have one : t.kind.shift.natAbs ≤ 1 := by
      cases t.kind <;> simp [Kind.shift]
    have later := ih (depth + t.kind.shift)
    rw [Nesting.level, List.length_cons]
    omega

private theorem length_tokens_le_size {ls : List Lexeme} (sound : ∀ x ∈ ls, x.Sound) :
    (Lexeme.tokens ls).length ≤ Lexeme.size ls := by
  induction ls with
  | nil => exact Nat.le_refl _
  | cons x rest ih =>
    simp only [List.mem_cons, forall_eq_or_imp] at sound
    have later := ih sound.2
    cases x with
    | blank c =>
      rw [Lexeme.tokens_blank, Lexeme.size_blank]
      omega
    | token t =>
      have wide : t.text.utf8ByteSize ≠ 0 := fun empty =>
        sound.1.chars_ne_nil (by simp [Lexeme.chars, String.utf8ByteSize_eq_zero_iff.mp empty])
      rw [Lexeme.tokens_token, Lexeme.size_token, List.length_cons]
      omega

/-- Up to any token, no more brackets are open, or closed without having been opened, than the text
has bytes. -/
theorem natAbs_level_le_utf8ByteSize {text : String} {before after : List Token}
    (whole : tokens text = before ++ after) :
    (Nesting.level (·.kind.shift) 0 before).natAbs ≤ text.utf8ByteSize := by
  have read := length_tokens_le_size (Lexeme.settled_lexemes text).sound
  rw [size_lexemes, ← tokens, whole, List.length_append] at read
  have counted := natAbs_level_le 0 before
  omega

/-- Whatever the formula and the depth, no slice, no index and no number stops the run, and it ends
with what the search finds. The counts of brackets, for which the run has no bound, never exceed the
bytes of the text. -/
theorem never_trapped {v : Vocabulary} (limited : v.depthLimit < 2 ^ 64 - 1) :
    (∀ formula, fields v formula = .ok (v.fields formula)) ∧
      (∀ expression depth, scanText v expression depth = .ok (v.scanText expression depth)) ∧
      ∀ text before after, tokens text = before ++ after →
        (Nesting.level (·.kind.shift) 0 before).natAbs ≤ text.utf8ByteSize :=
  ⟨fields_eq limited, scanText_eq limited, fun _ _ _ => natAbs_level_le_utf8ByteSize⟩

theorem never_trapped_unclosed :
    let v : Vocabulary := { operators := .ofList ["rank"], rules := ∅ }
    v.depthLimit < 2 ^ 64 - 1 ∧
      (fields v "ü = rank(close, é) ) \x27µ").map (·.toList) = .ok ["close"] ∧
      scanText v " rank((é.close" 51 = .ok ["close"] := by
  intro v
  have limited : v.depthLimit < 2 ^ 64 - 1 := by decide
  refine ⟨limited, ?_, ?_⟩
  · rw [(never_trapped limited).1]
    decide +kernel
  · rw [(never_trapped limited).2.1]
    decide +kernel

end FormulaFields.Checked
