import FormulaFields.Proofs.CheckedSearch
import Mathlib.Data.Nat.Find
import Mathlib.Order.Bounds.Basic

/-!
Where a parenthesis is closed. From the opening one on, the parenthesis that closes it is the first
up to which as many are closed as opened; brackets of other kinds do not count. Before it more are
opened than closed, so a counter that starts at the opening one is above zero whenever it is
lowered. Main statement: `Checked.isLeast_closing?`.
-/
namespace FormulaFields

namespace Formula

/-! ### Counting -/

/-- How many parentheses the tokens open. -/
def opened (ts : List Token) : Nat := ts.countP (·.kind == .opening .round)

/-- How many parentheses the tokens close. -/
def closed (ts : List Token) : Nat := ts.countP (·.kind == .closing .round)

theorem opened_append (first second : List Token) :
    opened (first ++ second) = opened first + opened second :=
  List.countP_append

theorem closed_append (first second : List Token) :
    closed (first ++ second) = closed first + closed second :=
  List.countP_append

theorem opened_cons (t : Token) (rest : List Token) :
    opened (t :: rest) = opened [t] + opened rest :=
  opened_append [t] rest

theorem closed_cons (t : Token) (rest : List Token) :
    closed (t :: rest) = closed [t] + closed rest :=
  closed_append [t] rest

/-- Where `count` parentheses are open before the first token, all are closed with the token that
has the index. -/
structure Evens (count : Nat) (ts : List Token) (index : Nat) : Prop where
  within : index < ts.length
  even : count + opened (ts.take (index + 1)) = closed (ts.take (index + 1))

variable {count next : Nat} {t : Token} {rest : List Token}

theorem evens_cons_succ (moved : count + opened [t] = next + closed [t]) (index : Nat) :
    Evens count (t :: rest) (index + 1) ↔ Evens next rest index := by
  constructor
  · rintro ⟨within, even⟩
    rw [List.take_succ_cons, opened_cons, closed_cons] at even
    rw [List.length_cons] at within
    exact ⟨by omega, by omega⟩
  · rintro ⟨within, even⟩
    refine ⟨by rw [List.length_cons]; omega, ?_⟩
    rw [List.take_succ_cons, opened_cons, closed_cons]
    omega

theorem evens_cons_zero (moved : count + opened [t] = next + closed [t]) :
    Evens count (t :: rest) 0 ↔ next = 0 := by
  constructor
  · rintro ⟨_, even⟩
    rw [List.take_succ_cons, List.take_zero] at even
    omega
  · rintro rfl
    refine ⟨by simp, ?_⟩
    rw [List.take_succ_cons, List.take_zero]
    omega

/-- If some stay open after the first token, they are closed for the first time behind it. -/
theorem isLeast_evens_cons (moved : count + opened [t] = next + closed [t]) (left : next ≠ 0)
    {index : Nat} :
    IsLeast {i | Evens count (t :: rest) i} index ↔
      ∃ behind, index = behind + 1 ∧ IsLeast {i | Evens next rest i} behind := by
  constructor
  · rintro ⟨evens, first⟩
    cases index with
    -- Some stay open behind the first token, so it is not the place.
    | zero => exact absurd ((evens_cons_zero moved).mp evens) left
    | succ behind =>
      refine ⟨behind, rfl, (evens_cons_succ moved behind).mp evens, fun other later => ?_⟩
      exact Nat.le_of_succ_le_succ (first ((evens_cons_succ moved other).mpr later))
  · rintro ⟨behind, rfl, evens, first⟩
    refine ⟨(evens_cons_succ moved behind).mpr evens, fun other earlier => ?_⟩
    cases other with
    | zero => exact absurd ((evens_cons_zero moved).mp earlier) left
    | succ other => exact Nat.succ_le_succ (first ((evens_cons_succ moved other).mp earlier))

/-- Up to the first token with which all are closed, some are open. -/
theorem closed_lt_of_not_evens {ts : List Token} {stop : Nat} (start : 0 < count)
    (within : stop ≤ ts.length) (uneven : ∀ index < stop, ¬ Evens count ts index) :
    closed (ts.take stop) < count + opened (ts.take stop) := by
  induction stop with
  | zero => simpa [opened, closed] using start
  | succ stop ih =>
    have before := ih (by omega) fun index ahead => uneven index (by omega)
    have apart : count + opened (ts.take (stop + 1)) ≠ closed (ts.take (stop + 1)) :=
      fun even => uneven stop (by omega) ⟨within, even⟩
    -- One token closes one at most, so the two numbers do not pass each other unseen.
    have one : closed [ts[stop]] ≤ 1 := List.countP_le_length
    rw [List.take_succ_eq_append_getElem within, opened_append, closed_append] at apart ⊢
    omega

/-! ### The search for the closing parenthesis -/

/-- What the search does at a token: it ends there, or goes on with as many open as the token
leaves. -/
theorem enclosed?_cons (inner : Nat) (t : Token) (rest : List Token) :
    (inner + 1 + opened [t] = closed [t] ∧ enclosed? inner (t :: rest) = some []) ∨
      ∃ next, inner + 1 + opened [t] = next + 1 + closed [t] ∧
        enclosed? inner (t :: rest) = (enclosed? next rest).map (t :: ·) := by
  -- A token that is no parenthesis leaves as many open as there were.
  have other (apart : opened [t] = closed [t])
      (passed : enclosed? inner (t :: rest) = (enclosed? inner rest).map (t :: ·)) :
      ∃ next, inner + 1 + opened [t] = next + 1 + closed [t] ∧
        enclosed? inner (t :: rest) = (enclosed? next rest).map (t :: ·) :=
    ⟨inner, by omega, passed⟩
  obtain ⟨kind, text⟩ := t
  cases kind with
  | opening bracket =>
    cases bracket with
    | round => exact .inr ⟨inner + 1, by simp [opened, closed], by simp [enclosed?]⟩
    | _ => exact .inr (other rfl (by simp [enclosed?]))
  | closing bracket =>
    cases bracket with
    | round =>
      cases inner with
      | zero => exact .inl ⟨rfl, by simp [enclosed?]⟩
      | succ inner => exact .inr ⟨inner, by simp [opened, closed], by simp [enclosed?]⟩
    | _ => exact .inr (other rfl (by simp [enclosed?]))
  | _ => exact .inr (other rfl (by simp [enclosed?]))

/-- What the search passes over ends where all are closed for the first time. -/
theorem length_enclosed?_iff (inner : Nat) (ts : List Token) (index : Nat) :
    (enclosed? inner ts).map (·.length) = some index ↔
      IsLeast {i | Evens (inner + 1) ts i} index := by
  induction ts generalizing inner index with
  | nil =>
    have nowhere : ¬ IsLeast {i | Evens (inner + 1) [] i} index :=
      fun least => absurd least.1.within (Nat.not_lt_zero index)
    cases inner <;> simp [enclosed?, nowhere]
  | cons t rest ih =>
    rcases enclosed?_cons inner t rest with ⟨moved, found⟩ | ⟨next, moved, found⟩
    · -- Nothing is passed over, and no place is before the first.
      have least : IsLeast {i | Evens (inner + 1) (t :: rest) i} 0 :=
        ⟨(evens_cons_zero (by omega)).mpr rfl, fun _ _ => Nat.zero_le _⟩
      rw [found, Option.map_some, Option.some.injEq]
      exact ⟨fun here => here ▸ least, fun other => least.unique other⟩
    · rw [isLeast_evens_cons moved next.succ_ne_zero, found, Option.map_map]
      simp only [← ih]
      cases enclosed? next rest with
      | none => simp
      | some inside => simp [eq_comm]

/-! ### The index of the closing parenthesis -/

/-- The index of the parenthesis that closes the one at `opening`. -/
def closing? (ts : List Token) (opening : Nat) : Option Nat :=
  (enclosed? 0 (ts.drop (opening + 1))).map fun inside => opening + 1 + inside.length

/-- The tokens from one index through another. -/
def stretch (ts : List Token) (first last : Nat) : List Token :=
  (ts.drop first).take (last + 1 - first)

/-- From the token at `opening` through a later one, as many parentheses are closed as opened. -/
structure Matches (ts : List Token) (opening closing : Nat) : Prop where
  later : opening < closing
  within : closing < ts.length
  even : opened (stretch ts opening closing) = closed (stretch ts opening closing)

section Closing

variable {ts : List Token} {opening : Nat} {t : Token}

theorem drop_of_getElem? (there : ts[opening]? = some t) :
    ts.drop opening = t :: ts.drop (opening + 1) := by
  obtain ⟨within, rfl⟩ := List.getElem?_eq_some_iff.mp there
  exact List.drop_eq_getElem_cons within

/-- A stretch from a parenthesis opens this one and what the tokens behind it open. -/
theorem opened_stretch (there : ts[opening]? = some t) (opens : t.kind = .opening .round)
    (behind : Nat) :
    opened (stretch ts opening (opening + behind)) =
      1 + opened ((ts.drop (opening + 1)).take behind) := by
  have one : opened [t] = 1 := by simp [opened, opens]
  rw [stretch, drop_of_getElem? there, Nat.add_assoc, Nat.add_sub_cancel_left,
    List.take_succ_cons, opened_cons, one]

theorem closed_stretch (there : ts[opening]? = some t) (opens : t.kind = .opening .round)
    (behind : Nat) :
    closed (stretch ts opening (opening + behind)) =
      closed ((ts.drop (opening + 1)).take behind) := by
  have zero : closed [t] = 0 := by simp [closed, opens]
  rw [stretch, drop_of_getElem? there, Nat.add_assoc, Nat.add_sub_cancel_left,
    List.take_succ_cons, closed_cons, zero, Nat.zero_add]

theorem matches_iff (there : ts[opening]? = some t) (opens : t.kind = .opening .round)
    (index : Nat) :
    Matches ts opening (opening + 1 + index) ↔ Evens 1 (ts.drop (opening + 1)) index := by
  -- The index counts from behind the parenthesis, and the stretch holds the token at its end.
  have through := opened_stretch there opens (index + 1)
  have through' := closed_stretch there opens (index + 1)
  rw [← Nat.add_assoc, Nat.add_right_comm] at through through'
  constructor
  · rintro ⟨_, within, even⟩
    exact ⟨by rw [List.length_drop]; omega, by rw [← through, ← through', even]⟩
  · rintro ⟨within, even⟩
    rw [List.length_drop] at within
    exact ⟨by omega, by omega, by rw [through, through', even]⟩

theorem isLeast_matches_iff (there : ts[opening]? = some t) (opens : t.kind = .opening .round)
    {closing : Nat} :
    IsLeast {c | Matches ts opening c} closing ↔
      ∃ index, closing = opening + 1 + index ∧
        IsLeast {i | Evens 1 (ts.drop (opening + 1)) i} index := by
  constructor
  · rintro ⟨here, first⟩
    obtain ⟨index, rfl⟩ := Nat.exists_eq_add_of_lt here.later
    rw [Nat.add_right_comm] at here first
    refine ⟨index, Nat.add_right_comm _ _ _, (matches_iff there opens index).mp here, ?_⟩
    intro other evens
    exact Nat.le_of_add_le_add_left (first ((matches_iff there opens other).mpr evens))
  · rintro ⟨index, rfl, here, first⟩
    refine ⟨(matches_iff there opens index).mpr here, fun other later => ?_⟩
    obtain ⟨behind, rfl⟩ := Nat.exists_eq_add_of_lt later.later
    rw [Nat.add_right_comm opening behind] at later ⊢
    exact Nat.add_le_add_left (first ((matches_iff there opens behind).mp later)) _

theorem closing?_eq_some_iff (there : ts[opening]? = some t) (opens : t.kind = .opening .round)
    {closing : Nat} :
    closing? ts opening = some closing ↔ IsLeast {c | Matches ts opening c} closing := by
  rw [isLeast_matches_iff there opens]
  simp only [← length_enclosed?_iff, closing?, Option.map_eq_some_iff]
  constructor
  · rintro ⟨inside, found, rfl⟩
    exact ⟨inside.length, rfl, inside, found, rfl⟩
  · rintro ⟨_, rfl, inside, found, rfl⟩
    exact ⟨inside, found, rfl⟩

theorem closing?_eq_none_iff (there : ts[opening]? = some t) (opens : t.kind = .opening .round) :
    closing? ts opening = none ↔ ∀ c, ¬ Matches ts opening c := by
  constructor
  · -- If there is a place, there is a first one, and the search ends there.
    intro unclosed c here
    classical
    have least : IsLeast {c | Matches ts opening c} (Nat.find ⟨c, here⟩) :=
      ⟨Nat.find_spec ⟨c, here⟩, fun _ => Nat.find_min' ⟨c, here⟩⟩
    rw [← closing?_eq_some_iff there opens, unclosed] at least
    cases least
  · intro nowhere
    cases found : closing? ts opening with
    | none => rfl
    | some closing =>
      have least := (closing?_eq_some_iff there opens).mp found
      exact absurd least.1 (nowhere closing)

/-- Between a parenthesis and the one that closes it more are opened than closed. -/
theorem closed_stretch_lt (there : ts[opening]? = some t) (opens : t.kind = .opening .round)
    {closing : Nat} (found : closing? ts opening = some closing) {last : Nat}
    (start : opening ≤ last) (ahead : last < closing) :
    closed (stretch ts opening last) < opened (stretch ts opening last) := by
  rw [closing?_eq_some_iff there opens, isLeast_matches_iff there opens] at found
  obtain ⟨index, rfl, here, first⟩ := found
  obtain ⟨behind, rfl⟩ := Nat.exists_eq_add_of_le start
  rw [opened_stretch there opens, closed_stretch there opens]
  have within := here.within
  exact closed_lt_of_not_evens Nat.one_pos (by omega) fun other earlier evens =>
    absurd (first evens) (by omega)

end Closing

end Formula

namespace Checked

open Formula

/-- The index of the parenthesis that closes the one at `opening`, by a counter that is checked. -/
def closing? (ts : List Span) (opening : Nat) : Checked (Option Nat) :=
  (·.map (opening + ·)) <$> countdown 0 (ts.drop opening)

theorem closing?_eq {placed : List Placed} {opening : Nat} {t : Token}
    (there : (placed.map (·.token))[opening]? = some t) (opens : t.kind = .opening .round) :
    closing? (placed.map (·.span)) opening =
      .ok (Formula.closing? (placed.map (·.token)) opening) := by
  rw [closing?, countdown_drop (drop_of_getElem? there) opens, ok_map, Formula.closing?,
    Option.map_map]
  congr 2
  funext inside
  simp
  omega

/-- A parenthesis is closed by the first one up to which as many are closed as opened, and by none
if there is no such place. Before it more are opened than closed. A counter that is raised and
lowered on the way comes to the same and is above zero whenever it is lowered. -/
theorem isLeast_closing? {placed : List Placed} {opening : Nat} {p : Placed}
    (there : placed[opening]? = some p) (opens : p.token.kind = .opening .round) :
    let ts := placed.map (·.token)
    closing? (placed.map (·.span)) opening = .ok (Formula.closing? ts opening) ∧
      (∀ closing, Formula.closing? ts opening = some closing ↔
        IsLeast {c | Matches ts opening c} closing) ∧
      (∀ closing, Formula.closing? ts opening = some closing →
        ∀ last, opening ≤ last → last < closing →
          closed (stretch ts opening last) < opened (stretch ts opening last)) ∧
      (Formula.closing? ts opening = none ↔ ∀ c, ¬ Matches ts opening c) := by
  intro ts
  have shown : ts[opening]? = some p.token := by rw [List.getElem?_map, there]; rfl
  exact ⟨closing?_eq shown opens, fun _ => closing?_eq_some_iff shown opens,
    fun _ found _ => closed_stretch_lt shown opens found, closing?_eq_none_iff shown opens⟩

/-- Brackets of other kinds stand in between, and the last parenthesis is closed by none. -/
theorem isLeast_closing?_mixed :
    let placed := placedTokens "f((a]), \x7bb) + (c"
    let ts := placed.map (·.token)
    closing? (placed.map (·.span)) 1 = .ok (some 9) ∧ IsLeast {c | Matches ts 1 c} 9 ∧
      closed (stretch ts 1 5) < opened (stretch ts 1 5) ∧
      closing? (placed.map (·.span)) 11 = .ok none ∧ ∀ c, ¬ Matches ts 11 c := by
  intro placed ts
  have first : placed[1]? = some ⟨⟨.opening .round, "("⟩, 1, 2⟩ := by decide +kernel
  have last : placed[11]? = some ⟨⟨.opening .round, "("⟩, 14, 15⟩ := by decide +kernel
  obtain ⟨counted, closes, above, _⟩ := isLeast_closing? first rfl
  obtain ⟨counted', _, _, unclosed⟩ := isLeast_closing? last rfl
  have found : Formula.closing? ts 1 = some 9 := by decide +kernel
  have missing : Formula.closing? ts 11 = none := by decide +kernel
  exact ⟨counted.trans (congrArg _ found), (closes 9).mp found,
    above 9 found 5 (by decide) (by decide), counted'.trans (congrArg _ missing),
    unclosed.mp missing⟩

end Checked

end FormulaFields
