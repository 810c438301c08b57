import FormulaFields.Proofs.Brackets
import FormulaFields.Proofs.ExpressionTree
import FormulaFields.Proofs.TokenView

/-!
The search of a written expression is a recursion over its tree. The search itself knows no trees:
it looks for names with a parenthesis behind them, counts to the parenthesis that matches, and cuts
what is between at commas. On an expression that was written from a tree this finds the outermost
calls and their arguments.
-/
namespace FormulaFields

open Formula

namespace Formula.Tree

/-- The names of a tree from left to right, those of calls included. -/
def names : Tree → List String
  | .name n => [n.val]
  | .number _ => []
  | .call f arguments => f.val :: arguments.flatMap names
  | .group inner => inner.names
  | .operation _ left right => left.names ++ right.names

/-- The calls from left to right that stand in no argument of another one. -/
def outerCalls : Tree → List (Call Tree)
  | .name _ => []
  | .number _ => []
  | .call f arguments => [⟨f.val, arguments⟩]
  | .group inner => inner.outerCalls
  | .operation _ left right => left.outerCalls ++ right.outerCalls

variable (v : Vocabulary)

def flat (t : Tree) : List String := t.names.filter (!v.isOperator ·)

/-- The arguments of a call that are read: those at the positions of its rule as far as they exist,
or the first argument of an operator without positions. -/
def chosen (call : Call Tree) : List Tree :=
  let positions := (v.rules[call.name]?.map (·.positions)).getD []
  if positions ≠ [] then positions.filterMap (call.arguments[·]?)
  else if v.isOperator call.name then call.arguments.head?.toList
  else []

/-- The fields of a tree that is itself nested `depth` deep. -/
def reading (t : Tree) (depth : Nat) : List String :=
  if depth > v.depthLimit then t.flat v
  else
    let found :=
      (t.outerCalls.flatMap (chosen v)).flatMap fun argument => argument.reading (depth + 1)
    if found.isEmpty then t.flat v else found
termination_by v.depthLimit + 1 - depth

/-! ### Tokens of a tree -/

/-- What a tree is written with: no comparisons, connectives or equals signs. -/
def IsPlain (t : Token) : Prop := t.isJoint = false ∧ t.kind ≠ .equals ∧ '=' ∉ t.text.toList

instance : DecidablePred IsPlain := fun _ => inferInstanceAs (Decidable (_ ∧ _ ∧ _))

private theorem plain_name (f : PlainName) : IsPlain ⟨.name, f.val⟩ := by
  obtain ⟨text, identifier, free⟩ := f
  exact ⟨by simpa [Token.isJoint, Token.isLogicalWord, Kind.isConnective] using free, nofun,
    equals_of_identifier identifier⟩

private theorem plain_number (digits : Numeral) : IsPlain ⟨.number, digits.val⟩ := by
  refine ⟨rfl, nofun, fun equals => ?_⟩
  exact absurd (digits.property.2 '=' equals) (by decide)

private theorem plain_symbol (op : Arithmetic) : IsPlain ⟨.mark, op.symbol⟩ := by
  cases op <;> decide

private theorem plain_append (first second : List Token) (before : ∀ t ∈ first, IsPlain t)
    (behind : ∀ t ∈ second, IsPlain t) : ∀ t ∈ first ++ second, IsPlain t := by
  intro t member
  exact (List.mem_append.mp member).elim (before t) (behind t)

private theorem balanced_arguments {arguments : List Tree} {bare : Token → Prop}
    (balanced : ∀ t ∈ arguments, Balanced bare t.tokens) :
    Balanced (fun _ => True) ([⟨.comma, ","⟩].intercalate (arguments.map tokens)) := by
  apply Balanced.intercalate rfl trivial
  intro part member
  obtain ⟨argument, inside, rfl⟩ := List.mem_map.mp member
  exact (balanced argument inside).mono fun _ _ => trivial

theorem plain_tokens (t : Tree) : ∀ x ∈ t.tokens, IsPlain x := by
  induction t with
  | name n => simpa [tokens] using plain_name n
  | number digits => simpa [tokens] using plain_number digits
  | call f arguments ih =>
    have inner : ∀ x ∈ [⟨.comma, ","⟩].intercalate (arguments.map tokens), IsPlain x :=
      intercalate_induction (by simp) plain_append (by decide) (by simpa using ih)
    simp only [tokens, List.mem_cons, List.mem_append, List.not_mem_nil, or_false, or_imp,
      forall_and, forall_eq]
    exact ⟨plain_name f, by decide, inner, by decide⟩
  | group inner ih =>
    simp only [tokens, List.mem_cons, List.mem_append, List.not_mem_nil, or_false, or_imp,
      forall_and, forall_eq]
    exact ⟨by decide, ih, by decide⟩
  | operation op left right first second =>
    simp only [tokens, List.mem_cons, List.mem_append, or_imp, forall_and, forall_eq]
    exact ⟨first, plain_symbol op, second⟩

/-- No comma of a tree stands outside its parentheses. -/
theorem balanced_tokens (t : Tree) : Balanced (·.kind ≠ .comma) t.tokens := by
  induction t with
  | name n =>
    rw [tokens]
    exact .token rfl (by simp)
  | number digits =>
    rw [tokens]
    exact .token rfl (by simp)
  | call f arguments ih =>
    rw [tokens]
    exact .cons rfl (by simp) (.round rfl rfl (balanced_arguments ih))
  | group inner ih =>
    rw [tokens]
    exact .round rfl rfl (ih.mono fun _ _ => trivial)
  | operation op left right first second =>
    rw [tokens]
    exact first.append (.cons rfl (by simp) second)

theorem tokens_ne_nil (t : Tree) : t.tokens ≠ [] := by
  cases t <;> simp [tokens]

theorem splitTokens_arguments (arguments : List Tree) :
    splitTokens (·.kind == .comma) ([⟨.comma, ","⟩].intercalate (arguments.map tokens)) =
      arguments.map tokens := by
  -- No argument of a tree is blank, so every one keeps its position.
  have filled : (arguments.map tokens).filter (!·.isEmpty) = arguments.map tokens := by
    rw [List.filter_eq_self]
    intro part member
    obtain ⟨argument, _, rfl⟩ := List.mem_map.mp member
    simpa using argument.tokens_ne_nil
  cases arguments with
  | nil => rfl
  | cons first rest =>
    have balanced : ∀ part ∈ first.tokens :: rest.map tokens, Balanced (·.kind ≠ .comma) part := by
      intro part member
      rw [← List.map_cons] at member
      obtain ⟨argument, _, rfl⟩ := List.mem_map.mp member
      exact argument.balanced_tokens
    have cut := Balanced.pieces_intercalate (·.kind == .comma) ⟨.comma, ","⟩ rfl rfl
      (fun t other => by simpa using other) balanced
    rw [List.map_cons] at filled
    rw [splitTokens, List.map_cons, cut, filled]

/-! ### Calls of a tree -/

/-- The calls that are found in a tree are its outermost ones, whatever comes behind. -/
theorem tokenCallsAfter_tokens (t : Tree) {rest : List Token}
    (apart : rest.head?.any (·.kind == .opening .round) = false) :
    tokenCallsAfter 0 (t.tokens ++ rest) =
      t.outerCalls.map (Call.view id tokens) ++ tokenCallsAfter 0 rest := by
  induction t generalizing rest with
  | name n =>
    rw [tokens, List.singleton_append, tokenCallsAfter, apart, Bool.and_false,
      if_neg Bool.false_ne_true]
    rfl
  | number digits =>
    rw [tokens, List.singleton_append, tokenCallsAfter_cons rfl]
    rfl
  | call f arguments _ =>
    -- The parenthesis that matches is the call's own, for its arguments are balanced.
    have balanced := balanced_arguments fun t (_ : t ∈ arguments) => t.balanced_tokens
    rw [tokens, List.cons_append, List.cons_append, List.append_assoc, List.singleton_append]
    rw [tokenCallsAfter_call rfl rfl rfl balanced, splitTokens_arguments]
    rfl
  | group inner ih =>
    rw [tokens, List.cons_append, List.append_assoc, tokenCallsAfter_cons rfl, ih rfl,
      List.singleton_append, tokenCallsAfter_cons rfl]
    rfl
  | operation op left right first second =>
    rw [tokens, List.append_assoc, List.cons_append, first rfl, tokenCallsAfter_cons rfl,
      second apart, outerCalls, List.map_append, List.append_assoc]

theorem tokenCalls_tokens (t : Tree) :
    tokenCalls t.tokens = t.outerCalls.map (Call.view id tokens) := by
  have nothing : ([] : List Token).head?.any (·.kind == .opening .round) = false := rfl
  have calls := t.tokenCallsAfter_tokens nothing
  rwa [List.append_nil, tokenCallsAfter, List.append_nil] at calls

/-! ### Reading a tree -/

theorem not_isCompound (t : Tree) : isCompound t.tokens = false := by
  have plain := t.plain_tokens
  simp only [IsPlain, Token.isJoint, Bool.or_eq_false_iff] at plain
  rw [isCompound, (Nesting.uncut_of_forall fun x member => (plain x member).1.2).cutFirst?_eq_none,
    Option.isSome_none, Bool.or_false, List.any_eq_false]
  intro x member
  simp [(plain x member).1.1]

theorem not_holdEquals (t : Tree) : holdEquals t.tokens = false := by
  rw [holdEquals, List.any_eq_false]
  intro x member
  simpa using (t.plain_tokens x member).2.2

theorem fieldArguments_tokens (call : Call Tree) :
    v.fieldArguments holdEquals (call.view id tokens) = (chosen v call).map tokens := by
  have view : v.fieldArguments holdEquals (call.view id tokens) =
      (v.fieldArguments (fun _ => false) call).map tokens :=
    Vocabulary.fieldArguments_view (fun _ => rfl) (fun _ => rfl) not_holdEquals call
  have same : v.fieldArguments (fun _ => false) call = chosen v call := by
    rw [Vocabulary.fieldArguments, chosen]
    cases v.rules[call.name]? with
    | none => simp [List.take_one]
    | some rule =>
      by_cases blank : rule.positions = []
      · simp [Rule.isEmpty, blank, List.take_one]
      · simp [Rule.isEmpty, blank]
  rw [view, same]

private theorem names_intercalate (parts : List (List Token)) :
    Formula.names ([⟨.comma, ","⟩].intercalate parts) = parts.flatMap Formula.names := by
  induction parts with
  | nil => rfl
  | cons first rest ih =>
    cases rest with
    | nil => simp
    | cons second more =>
      rw [List.intercalate_cons_cons, List.flatMap_cons, ← ih]
      simp [Formula.names, Token.isName]

theorem names_tokens (t : Tree) : Formula.names t.tokens = t.names := by
  induction t with
  | name n =>
    rw [tokens, names]
    rfl
  | number digits =>
    rw [tokens, names]
    rfl
  | call f arguments ih =>
    have inner : Formula.names ([⟨.comma, ","⟩].intercalate (arguments.map tokens)) =
        arguments.flatMap names := by
      rw [names_intercalate, List.flatMap_map]
      exact List.flatMap_congr ih
    rw [tokens, names, ← inner]
    simp [Formula.names, Token.isName]
  | group inner ih =>
    rw [tokens, names, ← ih]
    simp [Formula.names, Token.isName]
  | operation op left right first second =>
    rw [tokens, names, ← first, ← second]
    simp [Formula.names, Token.isName]

private theorem boundNames_eq_nil {ts : List Token} (free : ∀ t ∈ ts, t.kind ≠ .equals) :
    boundNames ts = [] := by
  rw [boundNames, List.filterMap_eq_nil_iff]
  rintro ⟨t, next⟩ member
  have behind := List.mem_of_mem_tail (List.of_mem_zip member).2
  simp [free next behind]

theorem plainNames_tokens (t : Tree) : v.plainNames t.tokens = t.flat v := by
  have unbound := boundNames_eq_nil fun x member => (t.plain_tokens x member).2.1
  rw [Vocabulary.plainNames, flat, ← names_tokens, unbound]
  apply List.filter_congr
  intro n member
  obtain ⟨x, inside, rfl⟩ := List.mem_map.mp member
  obtain ⟨held, named⟩ := List.mem_filter.mp inside
  have joint := (t.plain_tokens x held).1
  have kind : (x.kind == .name) = true := named
  have free : Token.logicalWords.contains x.text = false := by
    rw [Token.isJoint, Bool.or_eq_false_iff, Token.isLogicalWord, kind, Bool.true_and] at joint
    exact joint.2
  simp only [free, List.contains_nil, Bool.not_false, Bool.and_true]

theorem scanTokens_tokens (t : Tree) (depth : Nat) :
    v.scanTokens (v.depthLimit + 1 - depth) t.tokens = t.reading v depth := by
  generalize levels : v.depthLimit + 1 - depth = left
  induction left generalizing t depth with
  | zero =>
    rw [Vocabulary.scanTokens, plainNames_tokens, reading, if_pos (by omega)]
  | succ left ih =>
    -- What the search goes on with are written trees again, so the induction applies to them.
    have inner (trees : List Tree) : (trees.map tokens).flatMap (v.scanTokens left) =
        trees.flatMap fun argument => argument.reading v (depth + 1) := by
      rw [List.flatMap_map]
      apply List.flatMap_congr
      intro argument _
      exact ih argument (depth + 1) (by omega)
    have arguments : (tokenCalls t.tokens).flatMap (v.fieldArguments holdEquals) =
        (t.outerCalls.flatMap (chosen v)).map tokens := by
      simp only [tokenCalls_tokens, List.flatMap_map, List.map_flatMap, fieldArguments_tokens]
    have within : ¬ depth > v.depthLimit := by omega
    rw [Vocabulary.scanTokens, not_isCompound, if_neg Bool.false_ne_true, reading, if_neg within]
    simp only [arguments, inner, plainNames_tokens]

/-- The search of a written expression is the reading of its tree, at every depth. -/
theorem scanText_print (t : Tree) (depth : Nat) :
    v.scanText t.print depth = t.reading v depth := by
  rw [Vocabulary.scanText_eq, t.print_reads.tokens, scanTokens_tokens]

end Formula.Tree

end FormulaFields
