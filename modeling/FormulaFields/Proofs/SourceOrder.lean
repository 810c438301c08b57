import FormulaFields.Proofs.RuleLayers
import FormulaFields.Proofs.TokenView
import Mathlib.Data.List.Flatten

/-!
What a search reports stands in the order of the source. Operands, calls and the arguments of a call
are taken from left to right and do not overlap, and where the positions of every rule ascend, no
argument is taken twice or too early. So a search reports a part of the free names of an expression,
each in its place and no more often than it stands there. Main statement: `scanText_sublist`.
-/
namespace FormulaFields

open Formula

namespace Formula

/-! ### Free names of stretches -/

theorem sublist_freeNames_cons (t : Token) (rest : List Token) :
    (freeNames rest).Sublist (freeNames (t :: rest)) := by
  rw [freeNames]
  split
  · exact List.sublist_cons_self _ _
  · exact List.Sublist.refl _

/-- The free names of all pieces are free names of the whole, in order: no piece is followed by an
equals sign, so no bound name becomes free by a cut. -/
theorem flatMap_pieces_sublist {cuts : Token → Bool}
    (apart : ∀ t, cuts t = true → t.kind ≠ .equals) (depth : Int) (ts : List Token) :
    ((Nesting.pieces (·.kind.shift) cuts depth ts).flatMap freeNames).Sublist (freeNames ts) := by
  induction ts generalizing depth with
  | nil => exact List.Sublist.refl _
  | cons t rest ih =>
    rw [Nesting.pieces]
    split
    · exact (ih depth).trans (sublist_freeNames_cons t rest)
    · obtain ⟨first, more, cut⟩ := Nesting.exists_pieces_eq_cons (·.kind.shift) cuts
        (depth + t.kind.shift) rest
      have begun : Nesting.pieces (·.kind.shift) cuts (depth + t.kind.shift) rest =
          [] ++ first :: more := cut
      obtain ⟨before, after, whole, start, stop⟩ := Nesting.exists_of_pieces_eq_append _ _ begun
      obtain rfl : before = [] := List.length_eq_zero_iff.mp start
      rw [List.nil_append] at whole
      subst whole
      have unbound : ∀ u ∈ after.head?, u.kind ≠ .equals := fun u next => apart u (stop u next)
      -- What stands behind the first piece holds the names of the others.
      have others : (more.flatMap freeNames).Sublist (freeNames after) := by
        have inner := ih (depth + t.kind.shift)
        rw [cut, List.flatMap_cons, freeNames_append unbound] at inner
        exact (List.append_sublist_append_left _).mp inner
      rw [cut, List.modifyHead_cons, List.flatMap_cons, ← List.cons_append,
        freeNames_append unbound]
      exact (List.Sublist.refl _).append others

theorem flatMap_splitTokens_sublist {cuts : Token → Bool}
    (apart : ∀ t, cuts t = true → t.kind ≠ .equals) (ts : List Token) :
    ((splitTokens cuts ts).flatMap freeNames).Sublist (freeNames ts) :=
  (List.filter_sublist.flatMap freeNames).trans (flatMap_pieces_sublist apart 0 ts)

/-- The free names of all arguments are free names of the whole, in order. -/
private theorem flatMap_tokenCallsAfter_sublist (skip : Nat) (ts : List Token) :
    ((tokenCallsAfter skip ts).flatMap fun call => call.arguments.flatMap freeNames).Sublist
      (freeNames (ts.drop skip)) := by
  induction ts generalizing skip with
  | nil => cases skip <;> exact List.nil_sublist _
  | cons t rest ih =>
    cases skip with
    | succ skip => exact ih skip
    | zero =>
      rw [tokenCallsAfter, List.drop_zero]
      split
      next begins =>
        split
        next inside found =>
          -- The call is a name, a parenthesis, what it encloses, a parenthesis, and then the rest.
          obtain ⟨opening, more, rfl⟩ : ∃ opening more, rest = opening :: more := by
            cases rest with
            | nil => simp at begins
            | cons opening more => exact ⟨opening, more, rfl⟩
          obtain ⟨close, after, whole, closing⟩ := exists_of_enclosed? found
          rw [List.tail_cons] at whole
          subst whole
          have behind : (opening :: (inside ++ close :: after)).drop (inside.length + 2) =
              after := by
            simp [List.drop_append]
          have later := ih (inside.length + 2)
          rw [behind] at later
          have here := flatMap_splitTokens_sublist (apart_of_kind .comma (by decide)) inside
          have both : (freeNames inside ++ freeNames (close :: after)).Sublist
              (freeNames (t :: opening :: (inside ++ close :: after))) := by
            rw [← freeNames_append (by simp [closing])]
            exact (sublist_freeNames_cons opening _).trans (sublist_freeNames_cons t _)
          rw [List.flatMap_cons]
          exact (here.append (later.trans (sublist_freeNames_cons close after))).trans both
        · exact List.nil_sublist _
      · exact (ih 0).trans (sublist_freeNames_cons t rest)

theorem flatMap_tokenCalls_sublist (ts : List Token) :
    ((tokenCalls ts).flatMap fun call => call.arguments.flatMap freeNames).Sublist
      (freeNames ts) :=
  flatMap_tokenCallsAfter_sublist 0 ts

/-- Names that are bound nowhere are free wherever they stand. -/
theorem filter_names_sublist {kept : String → Bool} {ts : List Token}
    (unbound : ∀ name ∈ boundNames ts, kept name = false) :
    ((names ts).filter kept).Sublist (freeNames ts) := by
  induction ts with
  | nil => exact List.Sublist.refl _
  | cons t rest ih =>
    rw [boundNames_cons] at unbound
    have later := ih fun name bound => unbound name (List.mem_append_right _ bound)
    by_cases named : t.isName = true
    · by_cases bound : rest.head?.any (·.kind == .equals) = true
      · have dropped : kept t.text = false := unbound t.text (by simp [named, bound])
        simpa [names, freeNames, named, bound, dropped] using later
      · have whole : names (t :: rest) = t.text :: names rest := by simp [names, named]
        have free : freeNames (t :: rest) = t.text :: freeNames rest := by
          simp [freeNames, named, bound]
        rw [whole, free, List.filter_cons]
        split
        · exact later.cons_cons _
        · exact later.cons _
    · simpa [names, freeNames, named] using later

end Formula

/-! ### Arguments -/

/-- Members taken at ascending positions stand in the order of the list. -/
private theorem filterMap_getElem?_sublist {Item : Type} (list : List Item) {positions : List Nat}
    (ascending : positions.Pairwise (· < ·)) {start : Nat} (later : ∀ p ∈ positions, start ≤ p) :
    (positions.filterMap (list[·]?)).Sublist (list.drop start) := by
  induction positions generalizing start with
  | nil => exact List.nil_sublist _
  | cons p rest ih =>
    obtain ⟨least, others⟩ := List.pairwise_cons.mp ascending
    have behind : (rest.filterMap (list[·]?)).Sublist (list.drop (p + 1)) := ih others least
    have within : (list.drop p).Sublist (list.drop start) :=
      List.drop_sublist_drop_left _ (later p List.mem_cons_self)
    cases found : list[p]? with
    | none =>
      rw [List.filterMap_cons_none found]
      exact (behind.trans (List.drop_sublist_drop_left _ (Nat.le_succ p))).trans within
    | some x =>
      obtain ⟨inside, rfl⟩ := List.getElem?_eq_some_iff.mp found
      rw [List.filterMap_cons_some found]
      refine List.Sublist.trans ?_ within
      rw [List.drop_eq_getElem_cons inside]
      exact behind.cons_cons _

/-- The rule names each position once, and smaller ones first. -/
def Rule.Ascends (rule : Rule) : Prop := rule.positions.Pairwise (· < ·)

instance : DecidablePred Rule.Ascends := fun rule =>
  inferInstanceAs (Decidable (rule.positions.Pairwise (· < ·)))

namespace Vocabulary

variable {v : Vocabulary}

/-- Every rule of the vocabulary ascends. -/
def RulesAscend (v : Vocabulary) : Prop :=
  ∀ (name : String) (rule : Rule), v.rules[name]? = some rule → rule.Ascends

theorem fieldArguments_sublist (ascend : v.RulesAscend) {Argument : Type}
    (isNamed : Argument → Bool) (call : Call Argument) :
    (v.fieldArguments isNamed call).Sublist call.arguments := by
  have first : (if v.isOperator call.name then call.arguments.take 1 else []).Sublist
      call.arguments := by
    split
    · exact List.take_sublist 1 _
    · exact List.nil_sublist _
  rw [fieldArguments]
  cases known : v.rules[call.name]? with
  | none => exact first
  | some rule =>
    dsimp only
    split
    · exact first
    · have chosen := filterMap_getElem?_sublist call.arguments
        (ascend call.name rule known) fun p _ => Nat.zero_le p
      exact List.filter_sublist.trans chosen

/-! ### Searches -/

/-- The names of the tokens that can be fields and have no equals sign right behind them, in order
and as often as they stand so. -/
def freeFields (v : Vocabulary) (ts : List Token) : List String :=
  (freeNames ts).filter (v.Admits ·)

theorem plainNames_sublist (ts : List Token) : (v.plainNames ts).Sublist (v.freeFields ts) := by
  have split : v.plainNames ts =
      ((names ts).filter fun name => !(boundNames ts).contains name).filter (v.Admits ·) := by
    rw [plainNames, List.filter_filter]
    apply List.filter_congr
    intro name _
    by_cases operator : v.isOperator name <;> simp [Admits, operator, Bool.and_comm]
  rw [split]
  exact (filter_names_sublist (by simp)).filter _

/-- What is found in stretches whose free names are free names of the whole, in order, is found in
the whole, in order. -/
private theorem flatMap_sublist {search : List Token → List String} {stretches : List (List Token)}
    {ts : List Token} (searched : ∀ stretch, (search stretch).Sublist (v.freeFields stretch))
    (within : (stretches.flatMap freeNames).Sublist (freeNames ts)) :
    (stretches.flatMap search).Sublist (v.freeFields ts) := by
  have inner : stretches.flatMap v.freeFields = (stretches.flatMap freeNames).filter (v.Admits ·) :=
    List.filter_flatMap.symm
  refine (List.Sublist.flatMap_right stretches fun stretch _ => searched stretch).trans ?_
  rw [inner]
  exact within.filter _

/-- At every level, what is found are free names in the order of the tokens. -/
theorem scanTokens_sublist (ascend : v.RulesAscend) (levels : Nat) (ts : List Token) :
    (v.scanTokens levels ts).Sublist (v.freeFields ts) := by
  induction levels generalizing ts with
  | zero => exact plainNames_sublist ts
  | succ levels ih =>
    rw [scanTokens]
    split
    · exact flatMap_sublist ih (flatMap_splitTokens_sublist isJoint_apart ts)
    · dsimp only
      split
      · exact plainNames_sublist ts
      · refine flatMap_sublist ih ?_
        rw [List.flatMap_assoc]
        -- Of each call some arguments are searched, in their order.
        refine (List.Sublist.flatMap_right _ fun call _ => ?_).trans (flatMap_tokenCalls_sublist ts)
        exact (fieldArguments_sublist ascend holdEquals call).flatMap freeNames

/-- Signatures and the program itself give ascending rules, so all rules of a catalog ascend unless
the settings state one that does not. -/
theorem rulesAscend_ofCatalog (catalog : Catalog) {settings : Settings}
    (stated : ∀ (name : String) (rule : Rule), settings.overrides[name]? = some rule →
      rule.Ascends) :
    (ofCatalog catalog settings).RulesAscend := by
  intro name rule found
  rw [ofCatalog, RuleBook.build, RuleBook.getElem?_layer, Settings.overrideRules,
    RuleBook.getElem?_layer, RuleBook.getElem?_ofSignatures_operators, Option.or_assoc] at found
  rcases Option.or_eq_some_iff.mp found with override | ⟨_, lower⟩
  · exact stated name rule override
  · rcases Option.or_eq_some_iff.mp lower with builtin | ⟨_, derived⟩
    · have ascends : ∀ entry ∈ RuleBook.builtin.toList, entry.2.Ascends := by decide +kernel
      exact ascends _ (Std.ExtTreeMap.mem_toList_iff_getElem?_eq_some.mpr builtin)
    · obtain ⟨op, _, rfl⟩ := Option.map_eq_some_iff.mp derived
      exact Operator.Signature.pairwise_fieldPositions op.definition

/-- Where all rules ascend, as they do for every catalog under the default settings, the search of
an expression reports a part of its names that can be fields and have no equals sign right behind
them, in the order of the source and none more often than it stands there. -/
theorem scanText_sublist :
    (∀ catalog, (ofCatalog catalog .default).RulesAscend) ∧
      ∀ v : Vocabulary, v.RulesAscend → ∀ (expression : String) (depth : Nat),
        (v.scanText expression depth).Sublist (v.freeFields (tokens expression)) := by
  refine ⟨fun catalog => rulesAscend_ofCatalog catalog ?_, fun v ascend expression depth => ?_⟩
  · intro name rule stated
    have none : Settings.default.overrides[name]? = none := Std.ExtTreeMap.getElem?_empty
    rw [none] at stated
    cases stated
  · rw [scanText_eq]
    exact scanTokens_sublist ascend _ _

/-- Two operators, one of them with two arguments that may hold fields. -/
def pairCatalog : Catalog :=
  ⟨[{ name := "corr", definition := "corr(x, y, d)" }, { name := "rank", definition := "rank(x)" }],
    rfl⟩

/-- In two calls `close` is reported twice; the bound `d` and what stands beside the calls are
not. -/
theorem scanText_sublist_corr :
    (ofCatalog pairCatalog .default).RulesAscend ∧
      (ofCatalog pairCatalog .default).scanText
          "corr(close, rank(open), d = n) + close - rank(close)" 0 = ["close", "open", "close"] ∧
      (ofCatalog pairCatalog .default).freeFields
          (tokens "corr(close, rank(open), d = n) + close - rank(close)") =
        ["close", "open", "n", "close", "close"] ∧
      ["close", "open", "close"].Sublist ["close", "open", "n", "close", "close"] := by
  have ascend := scanText_sublist.1 pairCatalog
  have found : (ofCatalog pairCatalog .default).scanText
      "corr(close, rank(open), d = n) + close - rank(close)" 0 = ["close", "open", "close"] := by
    decide +kernel
  have free : (ofCatalog pairCatalog .default).freeFields
      (tokens "corr(close, rank(open), d = n) + close - rank(close)") =
        ["close", "open", "n", "close", "close"] := by
    decide +kernel
  have within := scanText_sublist.2 _ ascend
    "corr(close, rank(open), d = n) + close - rank(close)" 0
  rw [found, free] at within
  exact ⟨ascend, found, free, within⟩

end Vocabulary

end FormulaFields
