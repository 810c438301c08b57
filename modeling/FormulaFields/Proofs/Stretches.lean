import FormulaFields.Proofs.TokenScan
import Mathlib.Data.List.Basic

/-!
Where the names that a search reports stand. Each level of the search passes on stretches of the
tokens it was given: what stands between two joints, and what stands between the commas of a call.
No equals sign follows such a stretch, so a name that is not bound inside one is not bound at all.
-/
namespace FormulaFields

open Formula

namespace Formula

/-- A stretch of tokens that no equals sign follows. -/
def Detached (ts inner : List Token) : Prop :=
  ∃ before after, ts = before ++ inner ++ after ∧ ∀ t ∈ after.head?, t.kind ≠ .equals

namespace Detached

theorem refl (ts : List Token) : Detached ts ts := ⟨[], [], by simp, nofun⟩

theorem trans {ts middle inner : List Token} (outer : Detached ts middle)
    (deeper : Detached middle inner) : Detached ts inner := by
  obtain ⟨before, after, rfl, apart⟩ := outer
  obtain ⟨before', after', rfl, apart'⟩ := deeper
  refine ⟨before ++ before', after' ++ after, by simp, ?_⟩
  cases after' with
  | nil => exact apart
  | cons t rest => exact apart'

theorem of_mem_pieces {cuts : Token → Bool} (apart : ∀ t, cuts t = true → t.kind ≠ .equals)
    {depth : Int} {ts piece : List Token}
    (member : piece ∈ Nesting.pieces (·.kind.shift) cuts depth ts) : Detached ts piece := by
  obtain ⟨before, after, whole, stop⟩ := Nesting.exists_of_mem_pieces _ _ member
  exact ⟨before, after, whole, fun t next => apart t (stop t next)⟩

end Detached

/-- What no joint or comma passes is kept when tokens are cut there. -/
theorem flatMap_filter_splitTokens {cuts kept : Token → Bool}
    (gone : ∀ t, cuts t = true → kept t = false) (ts : List Token) :
    (splitTokens cuts ts).flatMap (·.filter kept) = ts.filter kept := by
  rw [← Nesting.flatMap_filter_pieces (·.kind.shift) cuts gone 0 ts, splitTokens]
  -- Empty pieces hold nothing, so it makes no difference that they are left out.
  induction Nesting.pieces (·.kind.shift) cuts 0 ts with
  | nil => rfl
  | cons piece rest ih =>
    cases piece with
    | nil => exact ih
    | cons t more =>
      rw [List.filter_cons_of_pos rfl, List.flatMap_cons, List.flatMap_cons, ih]

theorem isJoint_apart (t : Token) (joint : t.isJoint = true) : t.kind ≠ .equals := by
  intro equals
  simp [Token.isJoint, Token.isLogicalWord, Kind.isConnective, equals] at joint

theorem apart_of_kind (kind : Kind) (other : kind ≠ .equals) (t : Token)
    (same : (t.kind == kind) = true) : t.kind ≠ .equals := by
  rw [beq_iff_eq] at same
  rw [same]
  exact other

/-! ### Bound names -/

/-- An equals sign stands right behind the name somewhere among the tokens. -/
def Binds (ts : List Token) (name : String) : Prop :=
  ∃ before next after, ts = before ++ ⟨.name, name⟩ :: next :: after ∧ next.kind = .equals

theorem Token.eq_of_isName {t : Token} (named : t.isName = true) : t = ⟨.name, t.text⟩ := by
  cases t
  simp only [isName, beq_iff_eq] at named
  rw [named]

theorem mem_names_iff {ts : List Token} {name : String} :
    name ∈ names ts ↔ ⟨.name, name⟩ ∈ ts := by
  constructor
  · intro member
    obtain ⟨t, inside, rfl⟩ := List.mem_map.mp member
    obtain ⟨held, named⟩ := List.mem_filter.mp inside
    exact Token.eq_of_isName named ▸ held
  · exact fun member => List.mem_map.mpr ⟨_, List.mem_filter.mpr ⟨member, rfl⟩, rfl⟩

private theorem mem_zip_tail_iff {ts : List Token} {t next : Token} :
    (t, next) ∈ ts.zip ts.tail ↔ ∃ before after, ts = before ++ t :: next :: after := by
  induction ts with
  | nil => simp
  | cons first rest ih =>
    cases rest with
    | nil =>
      -- A single token has no neighbour.
      constructor
      · nofun
      · rintro ⟨before, after, whole⟩
        have lengths := congrArg List.length whole
        simp only [List.length_append, List.length_cons, List.length_nil] at lengths
        omega
    | cons second more =>
      rw [List.tail_cons, List.zip_cons_cons, List.mem_cons]
      constructor
      · rintro (same | later)
        · cases same
          exact ⟨[], more, rfl⟩
        · obtain ⟨before, after, whole⟩ := ih.mp later
          exact ⟨first :: before, after, by rw [whole]; rfl⟩
      · rintro ⟨before, after, whole⟩
        cases before with
        | nil =>
          cases whole
          exact Or.inl rfl
        | cons _ before =>
          obtain ⟨rfl, within⟩ := List.cons.inj whole
          exact Or.inr (ih.mpr ⟨before, after, within⟩)

theorem boundNames_cons (t : Token) (rest : List Token) :
    boundNames (t :: rest) =
      (if t.isName && rest.head?.any (·.kind == .equals) then [t.text] else []) ++
        boundNames rest := by
  cases rest with
  | nil => simp [boundNames]
  | cons next more =>
    simp only [boundNames, List.tail_cons, List.zip_cons_cons, List.filterMap_cons, List.head?_cons,
      Option.any_some]
    split <;> simp_all

/-- The bound names are read off neighbouring tokens. -/
theorem mem_boundNames_iff {ts : List Token} {name : String} :
    name ∈ boundNames ts ↔ Binds ts name := by
  rw [boundNames, List.mem_filterMap]
  constructor
  · rintro ⟨⟨t, next⟩, pair, bound⟩
    obtain ⟨before, after, whole⟩ := mem_zip_tail_iff.mp pair
    simp only [Option.ite_none_right_eq_some, Bool.and_eq_true, beq_iff_eq] at bound
    obtain ⟨⟨named, equals⟩, same⟩ := bound
    cases same
    exact ⟨before, next, after, Token.eq_of_isName named ▸ whole, equals⟩
  · rintro ⟨before, next, after, whole, equals⟩
    exact ⟨(_, next), mem_zip_tail_iff.mpr ⟨before, after, whole⟩, by simp [Token.isName, equals]⟩

/-- What is bound in a stretch of tokens is bound in all of them. -/
theorem Binds.of_infix {ts inner : List Token} {name : String} (within : inner <:+: ts)
    (bound : Binds inner name) : Binds ts name := by
  obtain ⟨first, last, rfl⟩ := within
  obtain ⟨before, next, after, rfl, equals⟩ := bound
  exact ⟨first ++ before, next, after ++ last, by simp, equals⟩

instance (ts : List Token) (name : String) : Decidable (Binds ts name) :=
  decidable_of_iff _ mem_boundNames_iff

/-- The names with no equals sign right behind them, as often as they stand so. -/
def freeNames : List Token → List String
  | [] => []
  | t :: rest =>
    if t.isName && !rest.head?.any (·.kind == .equals) then t.text :: freeNames rest
    else freeNames rest

private theorem detached_cons_iff {t u : Token} {rest : List Token} :
    Detached (t :: rest) [u] ↔
      (t = u ∧ ∀ next ∈ rest.head?, next.kind ≠ .equals) ∨ Detached rest [u] := by
  constructor
  · rintro ⟨before, after, whole, apart⟩
    rw [List.append_assoc, List.singleton_append] at whole
    cases before with
    | nil =>
      obtain ⟨rfl, rfl⟩ := List.cons.inj whole
      exact Or.inl ⟨rfl, apart⟩
    | cons _ before =>
      obtain ⟨rfl, rfl⟩ := List.cons.inj whole
      exact Or.inr ⟨before, after, by simp, apart⟩
  · rintro (⟨rfl, apart⟩ | ⟨before, after, rfl, apart⟩)
    · exact ⟨[], rest, rfl, apart⟩
    · exact ⟨t :: before, after, rfl, apart⟩

theorem mem_freeNames_iff {ts : List Token} {name : String} :
    name ∈ freeNames ts ↔ Detached ts [⟨.name, name⟩] := by
  induction ts with
  | nil =>
    constructor
    · nofun
    · rintro ⟨before, after, whole, _⟩
      have lengths := congrArg List.length whole
      simp only [List.length_append, List.length_cons, List.length_nil] at lengths
      omega
  | cons t rest ih =>
    have apart : (∀ next ∈ rest.head?, next.kind ≠ .equals) ↔
        rest.head?.any (·.kind == .equals) = false := by
      cases rest <;> simp
    rw [detached_cons_iff, apart, ← ih, freeNames]
    by_cases free : t.isName = true ∧ rest.head?.any (·.kind == .equals) = false
    · have same : t = ⟨.name, name⟩ ↔ name = t.text := by
        rw [Token.eq_of_isName free.1]
        simp [eq_comm]
      simp [free, same]
    · rw [if_neg (by simpa using free)]
      constructor
      · exact Or.inr
      · rintro (⟨rfl, unbound⟩ | later)
        · exact absurd ⟨rfl, unbound⟩ free
        · exact later

/-- What no equals sign begins leaves the names before it as free as they are. -/
theorem freeNames_append {first second : List Token}
    (apart : ∀ t ∈ second.head?, t.kind ≠ .equals) :
    freeNames (first ++ second) = freeNames first ++ freeNames second := by
  induction first with
  | nil => rfl
  | cons t rest ih =>
    have next : (rest ++ second).head?.any (·.kind == .equals) =
        rest.head?.any (·.kind == .equals) := by
      cases rest with
      | nil =>
        cases second with
        | nil => rfl
        | cons u more => simpa using apart u rfl
      | cons _ _ => rfl
    rw [List.cons_append, freeNames, freeNames, next, ih]
    split <;> rfl

theorem Detached.isInfix {ts inner : List Token} (detached : Detached ts inner) :
    inner <:+: ts := by
  obtain ⟨before, after, rfl, _⟩ := detached
  exact ⟨before, after, rfl⟩

/-! ### Calls -/

/-- What a call encloses is followed by the parenthesis that closes it. -/
theorem exists_of_enclosed? {inner : Nat} {ts inside : List Token}
    (found : enclosed? inner ts = some inside) :
    ∃ t rest, ts = inside ++ t :: rest ∧ t.kind = .closing .round := by
  induction ts generalizing inner inside with
  | nil => cases inner <;> cases found
  | cons t rest ih =>
    simp only [enclosed?] at found
    split at found
    next closing =>
      cases found
      exact ⟨t, rest, rfl, closing⟩
    all_goals
      obtain ⟨more, later, rfl⟩ := Option.map_eq_some_iff.mp found
      obtain ⟨close, tail, rfl, closing⟩ := ih later
      exact ⟨close, tail, rfl, closing⟩

/-- Somewhere in the tokens the call begins with its name and a parenthesis, and what it encloses up
to the matching one is cut into its arguments. -/
def Calls (ts : List Token) (call : Call (List Token)) : Prop :=
  ∃ before name opening inside close after,
    ts = before ++ name :: opening :: (inside ++ close :: after) ∧
      close.kind = .closing .round ∧ call.arguments = splitTokens (·.kind == .comma) inside

private theorem Calls.cons {t : Token} {rest : List Token} {call : Call (List Token)}
    (later : Calls rest call) : Calls (t :: rest) call := by
  obtain ⟨before, name, opening, inside, close, after, rfl, matching⟩ := later
  exact ⟨t :: before, name, opening, inside, close, after, rfl, matching⟩

private theorem calls_of_mem_tokenCallsAfter {skip : Nat} {ts : List Token}
    {call : Call (List Token)} (member : call ∈ tokenCallsAfter skip ts) : Calls ts call := by
  -- The first token is skipped, begins the call, or stands before it.
  induction ts generalizing skip with
  | nil => cases skip <;> cases member
  | cons t rest ih =>
    cases skip with
    | succ skip => exact (ih member).cons
    | zero =>
      rw [tokenCallsAfter] at member
      split at member
      next begins =>
        simp only [Bool.and_eq_true] at begins
        split at member
        next inside found =>
          rcases List.mem_cons.mp member with rfl | later
          · cases rest with
            | nil => cases begins.2
            | cons opening more =>
              obtain ⟨close, after, whole, closing⟩ := exists_of_enclosed? found
              simp only [List.tail_cons] at whole
              exact ⟨[], t, opening, inside, close, after, by rw [whole]; rfl, closing, rfl⟩
          · exact (ih later).cons
        · cases member
      · exact (ih member).cons

/-- An argument is a stretch of its expression, and the name of its call is not in it. -/
theorem detached_of_mem_arguments {ts argument : List Token} {call : Call (List Token)}
    (member : call ∈ tokenCalls ts) (inside : argument ∈ call.arguments) :
    Detached ts argument ∧ argument.length < ts.length := by
  obtain ⟨before, name, opening, enclosed, close, after, whole, closing, commas⟩ :=
    calls_of_mem_tokenCallsAfter member
  rw [commas] at inside
  have piece := (List.mem_filter.mp inside).1
  have outer : Detached ts enclosed := by
    refine ⟨before ++ [name, opening], close :: after, by rw [whole]; simp, ?_⟩
    rintro t ⟨⟩
    simp [closing]
  have inner : Detached enclosed argument := .of_mem_pieces (apart_of_kind .comma nofun) piece
  refine ⟨outer.trans inner, ?_⟩
  -- The call has its name and two parentheses besides what it encloses.
  have filled : argument.length ≤ enclosed.length := by
    obtain ⟨_, _, rfl, _⟩ := inner
    simp only [List.length_append]
    omega
  rw [whole]
  simp only [List.length_append, List.length_cons]
  omega

end Formula

namespace Vocabulary

/-- The name can be a field: it is neither an operator nor a logical word. -/
def Admits (v : Vocabulary) (name : String) : Prop :=
  v.isOperator name = false ∧ name ∉ Token.logicalWords

instance (v : Vocabulary) (name : String) : Decidable (v.Admits name) :=
  inferInstanceAs (Decidable (_ ∧ _))

variable {v : Vocabulary}

theorem mem_plainNames_iff {ts : List Token} {name : String} :
    name ∈ v.plainNames ts ↔ name ∈ names ts ∧ v.Admits name ∧ ¬ Binds ts name := by
  rw [plainNames, List.mem_filter, ← mem_boundNames_iff, Admits]
  simp only [Bool.and_eq_true, Bool.not_eq_true', List.contains_eq_mem, decide_eq_false_iff_not]
  constructor
  · rintro ⟨named, ⟨operator, unbound⟩, logical⟩
    exact ⟨named, ⟨operator, logical⟩, unbound⟩
  · rintro ⟨named, ⟨operator, logical⟩, unbound⟩
    exact ⟨named, ⟨operator, unbound⟩, logical⟩

theorem detached_of_mem_plainNames {ts : List Token} {name : String}
    (member : name ∈ v.plainNames ts) : Detached ts [⟨.name, name⟩] := by
  obtain ⟨named, _, unbound⟩ := mem_plainNames_iff.mp member
  obtain ⟨before, after, whole⟩ := List.append_of_mem (mem_names_iff.mp named)
  refine ⟨before, after, by simp [whole], ?_⟩
  intro next follows equals
  cases after with
  | nil => cases follows
  | cons first rest =>
    cases follows
    exact unbound ⟨before, next, rest, whole, equals⟩

theorem mem_of_mem_fieldArguments {Argument : Type} {isNamed : Argument → Bool}
    {call : Call Argument} {argument : Argument}
    (member : argument ∈ v.fieldArguments isNamed call) : argument ∈ call.arguments := by
  have first {a : Argument}
      (taken : a ∈ if v.isOperator call.name then call.arguments.take 1 else []) :
      a ∈ call.arguments := by
    split at taken
    · exact List.mem_of_mem_take taken
    · cases taken
  rw [fieldArguments] at member
  cases known : v.rules[call.name]? with
  | none =>
    simp only [known] at member
    exact first member
  | some rule =>
    simp only [known] at member
    by_cases blank : rule.isEmpty = true
    · rw [if_pos blank] at member
      exact first member
    · rw [if_neg blank] at member
      obtain ⟨listed, _⟩ := List.mem_filter.mp member
      obtain ⟨position, _, found⟩ := List.mem_filterMap.mp listed
      exact List.mem_of_getElem? found

/-- The arguments that a search goes on with are shorter than the expression. -/
theorem detached_of_mem_searched {ts argument : List Token}
    (member : argument ∈ (tokenCalls ts).flatMap (v.fieldArguments holdEquals)) :
    Detached ts argument ∧ argument.length < ts.length := by
  obtain ⟨call, found, chosen⟩ := List.mem_flatMap.mp member
  exact detached_of_mem_arguments found (mem_of_mem_fieldArguments chosen)

/-- At every level, a name is reported because it is a plain name of some stretch. -/
theorem exists_of_mem_scanTokens {levels : Nat} {ts : List Token} {name : String}
    (member : name ∈ v.scanTokens levels ts) :
    ∃ inner, Detached ts inner ∧ name ∈ v.plainNames inner := by
  -- One level passes on operands or arguments; both are detached, and so is all that is in them.
  induction levels generalizing ts with
  | zero => exact ⟨ts, .refl ts, member⟩
  | succ levels ih =>
    rw [scanTokens] at member
    split at member
    · obtain ⟨operand, cut, inside⟩ := List.mem_flatMap.mp member
      obtain ⟨inner, deeper, plain⟩ := ih inside
      have outer : Detached ts operand :=
        .of_mem_pieces isJoint_apart (List.mem_filter.mp cut).1
      exact ⟨inner, outer.trans deeper, plain⟩
    · dsimp only at member
      split at member
      · exact ⟨ts, .refl ts, member⟩
      · obtain ⟨argument, chosen, inside⟩ := List.mem_flatMap.mp member
        obtain ⟨inner, deeper, plain⟩ := ih inside
        exact ⟨inner, (detached_of_mem_searched chosen).1.trans deeper, plain⟩

/-- A reported name stands among the tokens with no equals sign behind it, and it can be a field. -/
theorem detached_of_mem_scanTokens {levels : Nat} {ts : List Token} {name : String}
    (member : name ∈ v.scanTokens levels ts) :
    Detached ts [⟨.name, name⟩] ∧ v.Admits name := by
  obtain ⟨inner, outer, plain⟩ := exists_of_mem_scanTokens member
  exact ⟨outer.trans (detached_of_mem_plainNames plain), (mem_plainNames_iff.mp plain).2.1⟩

end Vocabulary

end FormulaFields
