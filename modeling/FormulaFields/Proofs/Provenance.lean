import FormulaFields.Proofs.Spans
import FormulaFields.Proofs.StatementView
import FormulaFields.Proofs.Stretches

/-!
Every field that is reported for a formula stands in it. A reported name is a name of some stretch
of tokens that no equals sign follows. The stretch lies in the right side of one statement, for the
semicolons that join right sides are in no name's way, and so it lies in the formula, at a place
that can be counted from the statements before it.
-/
namespace FormulaFields

open Formula

namespace Formula

/-! ### Places -/

/-- No quoted text of `text` reaches into its token at `index`. -/
def IsUnquoted (text : String) (index : Nat) : Prop :=
  ∀ p, (placedTokens text)[index]? = some p →
    ∀ q ∈ placedTokens text, q.token.kind = .quoted → q.stop ≤ p.start ∨ p.stop ≤ q.start

theorem isUnquoted_of_name {text : String} {index : Nat} {t : Token}
    (found : (tokens text)[index]? = some t) (named : t.isName = true) : IsUnquoted text index := by
  intro p placed q member quoted
  have token : p.token = t := by
    rw [tokens, ← map_token_place 0, List.getElem?_map] at found
    rw [placedTokens] at placed
    rw [placed] at found
    exact Option.some.inj found
  have other : p.token.kind ≠ .quoted := by
    intro same
    rw [Token.isName, ← token, same] at named
    cases named
  obtain ⟨within, rfl⟩ := List.getElem?_eq_some_iff.mp placed
  obtain ⟨i, within', rfl⟩ := List.mem_iff_getElem.mp member
  -- Of two tokens one ends before the other begins, and a name is not a quoted text.
  have ordered := List.pairwise_iff_getElem.mp (pairwise_place 0 (lexemes text))
  rcases Nat.lt_trichotomy i index with before | rfl | behind
  · exact Or.inl (ordered i index within' within before)
  · exact absurd quoted other
  · exact Or.inr (ordered index i within within' behind)

/-! ### Statements -/

/-- A token of the joined fragments other than a semicolon is a token of some fragment. -/
private theorem exists_of_detached_join {fragments : List (List Token)} {t : Token}
    (other : t.kind ≠ .semicolon) (detached : Detached (joinTokens fragments) [t]) :
    ∃ fragment ∈ fragments, Detached fragment [t] := by
  induction fragments with
  | nil =>
    obtain ⟨before, after, whole, _⟩ := detached
    have lengths := congrArg List.length whole
    simp [joinTokens] at lengths
  | cons first rest ih =>
    cases rest with
    | nil => exact ⟨first, List.mem_cons_self, by simpa [joinTokens] using detached⟩
    | cons second more =>
      obtain ⟨before, after, whole, apart⟩ := detached
      rw [joinTokens, List.intercalate_cons_cons, ← joinTokens, List.append_assoc,
        List.append_assoc, List.singleton_append, List.singleton_append] at whole
      rcases List.append_eq_append_iff.mp whole with ⟨middle, rfl, behind⟩ | ⟨middle, rfl, behind⟩
      · -- The token stands behind the first fragment.
        cases middle with
        | nil =>
          obtain ⟨rfl, _⟩ := List.cons.inj behind
          exact absurd rfl other
        | cons u inner =>
          obtain ⟨_, later⟩ := List.cons.inj behind
          have further : Detached (joinTokens (second :: more)) [t] :=
            ⟨inner, after, by rw [later]; simp, apart⟩
          obtain ⟨fragment, member, found⟩ := ih further
          exact ⟨fragment, List.mem_cons_of_mem first member, found⟩
      · cases middle with
        | nil =>
          obtain ⟨rfl, _⟩ := List.cons.inj behind
          exact absurd rfl other
        | cons u inner =>
          -- The token stands in the first fragment, at its end or with more of it behind.
          obtain ⟨rfl, rfl⟩ := List.cons.inj behind
          refine ⟨_, List.mem_cons_self, before, inner, by simp, fun next follows => ?_⟩
          cases inner with
          | nil => cases follows
          | cons w tail => exact apart next follows

/-- A token of a right side stands in its statement, behind the target if there is one. -/
private theorem exists_of_detached_value {statement : List Token} {t : Token}
    (detached : Detached (valueTokens statement) [t]) :
    ∃ before after, statement = before ++ t :: after ∧
      (∀ next ∈ after.head?, next.kind ≠ .equals) ∧
      ∀ target value, assignment? statement = some (target, value) →
        target.length < before.length := by
  obtain ⟨before, after, whole, apart⟩ := detached
  rw [List.append_assoc, List.singleton_append, valueTokens] at whole
  cases cut : assignment? statement with
  | none =>
    rw [cut] at whole
    refine ⟨before, after, whole, apart, ?_⟩
    intro _ _ same
    cases same
  | some sides =>
    obtain ⟨target, value⟩ := sides
    rw [cut] at whole
    obtain ⟨equals, rfl, _⟩ := Nesting.exists_of_cutFirst? _ _ cut
    have right : value = before ++ t :: after := whole
    refine ⟨target ++ equals :: before, after, by rw [right]; simp, apart, ?_⟩
    -- The right side starts behind the target and the equals sign.
    rintro _ _ ⟨⟩
    simp only [List.length_append, List.length_cons]
    omega

/-- The token at an index is the name, no equals sign follows it, and within its statement it does
not stand left of the equals sign of an assignment. The index is counted through the statements
before, each with the semicolon behind it. -/
structure CountsAt (ts : List Token) (name : String) (index : Nat) : Prop where
  token : ts[index]? = some ⟨.name, name⟩
  unbound : ∀ next, ts[index + 1]? = some next → next.kind ≠ .equals
  right : ∃ earlier statement later offset, statementTokens ts = earlier ++ statement :: later ∧
    index = earlier.flatten.length + earlier.length + offset ∧
    statement[offset]? = some ⟨.name, name⟩ ∧
    ∀ target value, assignment? statement = some (target, value) → target.length < offset

theorem exists_countsAt {ts fragment : List Token} {name : String}
    (member : fragment ∈ fragmentTokens ts) (detached : Detached fragment [⟨.name, name⟩]) :
    ∃ index, CountsAt ts name index := by
  obtain ⟨listed, _⟩ := List.mem_filter.mp member
  obtain ⟨statement, inside, rfl⟩ := List.mem_map.mp listed
  obtain ⟨earlier, later, cut⟩ := List.append_of_mem inside
  obtain ⟨left, right, whole, start, stop⟩ := Nesting.exists_of_pieces_eq_append _ _ cut
  obtain ⟨before, after, rfl, apart, behind⟩ := exists_of_detached_value detached
  have split : ts = (left ++ before) ++ ⟨.name, name⟩ :: (after ++ right) := by
    rw [whole]
    simp
  have index :
      (left ++ before).length = earlier.flatten.length + earlier.length + before.length := by
    rw [List.length_append, start]
  refine ⟨(left ++ before).length, ?_, ?_, earlier, _, later, before.length, cut, index, ?_, behind⟩
  · rw [split]
    simp
  · intro next follows
    have first : (after ++ right).head? = some next := by
      rwa [split, List.getElem?_append_right (by omega), Nat.add_sub_cancel_left,
        List.getElem?_cons_succ, ← List.head?_eq_getElem?] at follows
    cases after with
    | nil => exact apart_of_kind .semicolon nofun next (stop next first)
    | cons t rest => exact apart next first
  · simp

end Formula

namespace Vocabulary

variable {v : Vocabulary}

theorem exists_of_mem_candidates {ts : List Token} {name : String}
    (member : name ∈ v.candidatesOfTokens ts) :
    name ∉ Token.logicalWords ∧ ∃ index, CountsAt ts name index := by
  -- The joined fragments and each fragment alone are searched in the same way.
  have fromScan {source : List Token}
      (found : name ∈ v.scanTokens (v.depthLimit + 1) source) :
      name ∉ Token.logicalWords ∧ Detached source [⟨.name, name⟩] := by
    obtain ⟨detached, _, logical⟩ := detached_of_mem_scanTokens found
    exact ⟨logical, detached⟩
  rcases List.mem_append.mp member with joined | single
  · obtain ⟨logical, detached⟩ := fromScan joined
    have other : (⟨.name, name⟩ : Token).kind ≠ .semicolon := nofun
    obtain ⟨fragment, listed, inside⟩ := exists_of_detached_join other detached
    exact ⟨logical, exists_countsAt listed inside⟩
  · obtain ⟨fragment, listed, found⟩ := List.mem_flatMap.mp single
    obtain ⟨logical, detached⟩ := fromScan found
    exact ⟨logical, exists_countsAt listed detached⟩

/-- The name stands in the formula outside of quoted texts, right of the equals sign of its
statement and without one behind it; it is no operator, no logical word, and no statement assigns
it. -/
structure Grounds (v : Vocabulary) (formula name : String) : Prop where
  identifier : isIdentifier name = true
  stands : ∃ index, CountsAt (tokens (clean formula)) name index ∧ IsUnquoted (clean formula) index
  operator : v.isOperator name = false
  logical : name ∉ Token.logicalWords
  unassigned : ∀ statement ∈ statementTokens (tokens (clean formula)), ∀ target value,
    assignment? statement = some (target, value) → name ∉ names target

theorem grounds_of_mem_fields {formula name : String} (member : name ∈ v.fields formula) :
    v.Grounds formula name := by
  rw [fields_eq, fieldsOfTokens, Std.ExtTreeSet.mem_ofList, List.contains_iff_mem,
    List.mem_filter] at member
  obtain ⟨found, kept⟩ := member
  simp only [Bool.and_eq_true, Bool.not_eq_true', Std.ExtTreeSet.contains_ofList] at kept
  obtain ⟨unassigned, operator⟩ := kept
  obtain ⟨logical, index, counts⟩ := exists_of_mem_candidates found
  have identifier := identifier_of_mem_tokens (List.mem_of_getElem? counts.token) rfl
  refine ⟨identifier, ⟨index, counts, isUnquoted_of_name counts.token rfl⟩, operator, logical, ?_⟩
  intro statement inside target value cut named
  -- A name in a target that is no operator is assigned, and assigned names are left out.
  have assigned : name ∈ assignedNames v.operators (tokens (clean formula)) := by
    refine List.mem_flatMap.mpr ⟨statement, inside, List.mem_filter.mpr ⟨?_, ?_⟩⟩
    · rwa [targetTokens, cut]
    · simpa [isOperator] using operator
  simp [assigned] at unassigned

theorem grounds_of_mem_fields_close :
    "close" ∈ fields ⟨.ofList ["rank"], .ofList [("rank", Rule.firstArguments 1)], 3⟩
        "x = rank(close, n = 2); x * volume" ∧
      Grounds ⟨.ofList ["rank"], .ofList [("rank", Rule.firstArguments 1)], 3⟩
        "x = rank(close, n = 2); x * volume" "close" := by
  have member : "close" ∈ fields ⟨.ofList ["rank"], .ofList [("rank", Rule.firstArguments 1)], 3⟩
      "x = rank(close, n = 2); x * volume" := by decide +kernel
  exact ⟨member, grounds_of_mem_fields member⟩

end Vocabulary

end FormulaFields
