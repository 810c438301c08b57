import FormulaFields.Proofs.Brackets
import FormulaFields.Proofs.Fallback
import FormulaFields.Proofs.BareOperands

/-!
How the joints of statements cut the statements when they are joined with semicolons. A semicolon
is no joint, so the last part of one statement and the first part of the next become one part of the
whole. If no symbol joins anything inside the brackets of such parts and every call is closed in its
part, then the whole is searched part by part: it yields nothing that no part yields, and all that
the calls of a part report.
-/
namespace FormulaFields

open Formula

namespace Formula

/-! ### Parts -/

/-- The stretches between the joints that stand outside brackets, empty ones included. -/
def parts (ts : List Token) : List (List Token) :=
  Nesting.pieces (·.kind.shift) Token.isJoint 0 ts

/-- The parts that meet another statement. -/
def outerParts (ts : List Token) : List (List Token) :=
  (parts ts).head?.toList ++ (parts ts).getLast?.toList

/-- No joint stands outside brackets. -/
def Undivided (ts : List Token) : Prop := Nesting.Uncut (·.kind.shift) Token.isJoint 0 ts

/-- No symbol that could join anything stands among the tokens, in brackets or outside. -/
def Unjoined (ts : List Token) : Prop := ∀ t ∈ ts, t.kind.isConnective = false

instance : DecidablePred Unjoined := fun ts => inferInstanceAs (Decidable (∀ t ∈ ts, _))

theorem shift_of_isJoint (t : Token) (joint : t.isJoint = true) : t.kind.shift = 0 := by
  cases kind : t.kind <;>
    simp_all [Token.isJoint, Token.isLogicalWord, Kind.isConnective, Kind.shift]

theorem parts_eq_singleton_iff {ts : List Token} : parts ts = [ts] ↔ Undivided ts := by
  constructor
  · exact Nesting.uncut_of_pieces shift_of_isJoint
  · intro undivided
    have whole := Nesting.Uncut.pieces_append undivided []
    simpa [parts, Nesting.pieces] using whole

/-- Where no symbol joins anything, an expression is compound only through its logical words. -/
theorem isCompound_eq_false_iff {ts : List Token} :
    isCompound ts = false ↔ Unjoined ts ∧ Undivided ts := by
  constructor
  · intro simple
    refine ⟨?_, parts_eq_singleton_iff.mp (pieces_of_not_isCompound simple)⟩
    rw [isCompound, Bool.or_eq_false_iff] at simple
    simpa [Unjoined] using simple.1
  · rintro ⟨symbols, undivided⟩
    have logical : Nesting.Uncut (·.kind.shift) Token.isLogicalWord 0 ts := by
      intro before t after whole word
      exact undivided before t after whole (by simp [Token.isJoint, word])
    rw [isCompound, logical.cutFirst?_eq_none, Option.isSome_none, Bool.or_false]
    simpa [Unjoined] using symbols

/-! ### Parts of joined statements -/

/-- Some statement has the part at its edge. -/
def Meets (statements : List (List Token)) (part : List Token) : Prop :=
  ∃ ts ∈ statements, part ∈ outerParts ts

theorem joinTokens_cons_cons (first second : List Token) (more : List (List Token)) :
    joinTokens (first :: second :: more) =
      first ++ ⟨.semicolon, ";"⟩ :: joinTokens (second :: more) := by
  rw [joinTokens, List.intercalate_cons_cons, List.append_assoc]
  rfl

/-- A semicolon is no joint, so it goes with the part before it and the part behind it. -/
theorem parts_append_semicolon {first last : List Token} {front : List (List Token)}
    (level : Nesting.level (·.kind.shift) 0 first = 0) (cut : parts first = front ++ [last])
    (rest : List Token) :
    parts (first ++ ⟨.semicolon, ";"⟩ :: rest) =
      front ++ (parts rest).modifyHead (last ++ ⟨.semicolon, ";"⟩ :: ·) := by
  have semicolon : Nesting.pieces (·.kind.shift) Token.isJoint 0 (⟨.semicolon, ";"⟩ :: rest) =
      (parts rest).modifyHead (⟨.semicolon, ";"⟩ :: ·) := rfl
  rw [parts, Nesting.pieces_append cut, level, semicolon, List.modifyHead_modifyHead]
  rfl

theorem Meets.tail {part ts : List Token} {rest : List (List Token)} (meets : Meets rest part) :
    Meets (ts :: rest) part := by
  obtain ⟨other, member, outer⟩ := meets
  exact ⟨other, List.mem_cons_of_mem ts member, outer⟩

/-- Parts in groups: those of a group are joined with semicolons to a part of the whole. All of them
are used in order, and only those at the edges of statements are joined with others. The first group
holds none but such. -/
structure Groups (statements first : List (List Token)) (more : List (List (List Token))) :
    Prop where
  filled : first ≠ []
  joined : parts (joinTokens statements) = (first :: more).map joinTokens
  complete : (first :: more).flatten = statements.flatMap parts
  outer : ∀ part ∈ first, Meets statements part
  joins : ∀ group ∈ more, (∃ part, group = [part]) ∨ ∀ part ∈ group, Meets statements part

theorem joinTokens_singleton (part : List Token) : joinTokens [part] = part := by
  simp [joinTokens]

/-- The last part of the first statement goes with those that the others begin with. -/
private theorem exists_groups_cons {ts last : List Token} {rest front begun : List (List Token)}
    {more : List (List (List Token))} (cut : parts ts = front ++ [last])
    (joined : parts (joinTokens (ts :: rest)) =
      front ++ joinTokens (last :: begun) :: more.map joinTokens)
    (complete : begun ++ more.flatten = rest.flatMap parts)
    (outer : ∀ part ∈ begun, Meets rest part)
    (joins : ∀ group ∈ more, (∃ part, group = [part]) ∨ ∀ part ∈ group, Meets rest part) :
    ∃ first later, Groups (ts :: rest) first later := by
  have edges : ∀ part ∈ last :: begun, Meets (ts :: rest) part :=
    List.forall_mem_cons.mpr
      ⟨⟨ts, List.mem_cons_self, by simp [outerParts, cut]⟩, fun part member =>
        (outer part member).tail⟩
  have behind : ∀ group ∈ more,
      (∃ part, group = [part]) ∨ ∀ part ∈ group, Meets (ts :: rest) part :=
    fun group member => (joins group member).imp_right fun meets part inside =>
      (meets part inside).tail
  cases front with
  | nil =>
    exact ⟨last :: begun, more,
      { filled := List.cons_ne_nil _ _
        joined := joined
        complete := by simp [cut, ← complete]
        outer := edges
        joins := behind }⟩
  | cons head front =>
    -- The parts before the last one stay what they are.
    refine ⟨[head], front.map ([·]) ++ (last :: begun) :: more, ?_⟩
    constructor
    · exact List.cons_ne_nil _ _
    · simp [joined, joinTokens_singleton, Function.comp_def]
    · simp [cut, ← complete, ← List.flatMap_def]
    · intro part member
      rw [List.mem_singleton.mp member]
      exact ⟨ts, List.mem_cons_self, by simp [outerParts, cut]⟩
    · intro group member
      rcases List.mem_append.mp member with single | late
      · obtain ⟨part, _, rfl⟩ := List.mem_map.mp single
        exact Or.inl ⟨part, rfl⟩
      · rcases List.mem_cons.mp late with rfl | later
        · exact Or.inr edges
        · exact behind group later

namespace Groups

variable {statements first group : List (List Token)} {more : List (List (List Token))}
  {part : List Token}

theorem exists_statement (groups : Groups statements first more) (member : group ∈ first :: more)
    (inside : part ∈ group) : ∃ ts ∈ statements, part ∈ parts ts := by
  rw [← List.mem_flatMap, ← groups.complete]
  exact List.mem_flatten.mpr ⟨group, member, inside⟩

theorem exists_group (groups : Groups statements first more) {ts : List Token}
    (statement : ts ∈ statements) (cut : part ∈ parts ts) :
    ∃ group ∈ first :: more, part ∈ group := by
  rw [← List.mem_flatten, groups.complete]
  exact List.mem_flatMap.mpr ⟨ts, statement, cut⟩

end Groups

theorem exists_groups {statements : List (List Token)} (filled : statements ≠ [])
    (level : ∀ ts ∈ statements, Nesting.level (·.kind.shift) 0 ts = 0) :
    ∃ first more, Groups statements first more := by
  induction statements with
  | nil => contradiction
  | cons ts rest ih =>
    -- The last part of the first statement joins the first group of the others; as the statement
    -- ends outside brackets, the others are cut as they are alone.
    obtain ⟨flat, others⟩ := List.forall_mem_cons.mp level
    obtain ⟨front, last, cut⟩ : ∃ front last, parts ts = front ++ [last] := by
      obtain ⟨head, more, cut⟩ := Nesting.exists_pieces_eq_cons (·.kind.shift) Token.isJoint 0 ts
      rw [parts, cut]
      exact (List.eq_nil_or_concat' _).resolve_left (List.cons_ne_nil _ _)
    cases rest with
    | nil =>
      refine @exists_groups_cons ts last [] front [] [] cut ?_ rfl nofun nofun
      rw [joinTokens_singleton, joinTokens_singleton, cut]
      rfl
    | cons second more =>
      obtain ⟨begun, later, groups⟩ := ih (List.cons_ne_nil _ _) others
      refine exists_groups_cons cut ?_ groups.complete groups.outer groups.joins
      obtain ⟨part, others, same⟩ := List.exists_cons_of_ne_nil groups.filled
      rw [joinTokens_cons_cons, parts_append_semicolon flat cut, groups.joined, List.map_cons,
        List.modifyHead_cons, same, joinTokens_cons_cons]

/-! ### What joined statements hold -/

theorem flatMap_joinTokens {Item : Type} {read : List Token → List Item} {group : List (List Token)}
    (nil : read [] = []) (append : ∀ first ∈ group, ∀ rest,
      read (first ++ ⟨.semicolon, ";"⟩ :: rest) = read first ++ read rest) :
    read (joinTokens group) = group.flatMap read := by
  induction group with
  | nil => exact nil
  | cons first rest ih =>
    obtain ⟨front, others⟩ := List.forall_mem_cons.mp append
    cases rest with
    | nil => simp [joinTokens_singleton]
    | cons second more =>
      rw [joinTokens_cons_cons, front, ih others]
      rfl

theorem names_joinTokens (group : List (List Token)) :
    names (joinTokens group) = group.flatMap names :=
  flatMap_joinTokens rfl fun first _ rest => by simp [names, Token.isName]

private theorem any_head?_append_semicolon {test : Token → Bool}
    (other : test ⟨.semicolon, ";"⟩ = false) (ts rest : List Token) :
    (ts ++ ⟨.semicolon, ";"⟩ :: rest).head?.any test = ts.head?.any test := by
  cases ts with
  | nil => exact other
  | cons t tail => rfl

/-- A semicolon is neither bound nor binds a name. -/
private theorem boundNames_append_semicolon (first rest : List Token) :
    boundNames (first ++ ⟨.semicolon, ";"⟩ :: rest) = boundNames first ++ boundNames rest := by
  induction first with
  | nil => rw [List.nil_append, boundNames_cons]; rfl
  | cons t tail ih =>
    rw [List.cons_append, boundNames_cons, boundNames_cons, any_head?_append_semicolon rfl, ih,
      List.append_assoc]

theorem boundNames_joinTokens (group : List (List Token)) :
    boundNames (joinTokens group) = group.flatMap boundNames :=
  flatMap_joinTokens rfl fun first _ rest => boundNames_append_semicolon first rest

theorem freeNames_joinTokens (group : List (List Token)) :
    freeNames (joinTokens group) = group.flatMap freeNames :=
  flatMap_joinTokens rfl fun _ _ _ => freeNames_append (by simp)

/-- Wherever a name has an opening parenthesis right behind it, the matching one follows. -/
def callsClose : List Token → Bool
  | [] => true
  | t :: rest =>
    (!(t.isName && rest.head?.any (·.kind == .opening .round)) || (enclosed? 0 rest.tail).isSome) &&
      callsClose rest

private theorem enclosed?_append_of_eq_some {inner : Nat} {ts inside : List Token}
    (found : enclosed? inner ts = some inside) (rest : List Token) :
    enclosed? inner (ts ++ rest) = some inside := by
  induction ts generalizing inner inside with
  | nil => cases inner <;> cases found
  | cons t tail ih =>
    rw [List.cons_append]
    simp only [enclosed?] at found ⊢
    split at found
    next closing => exact found
    all_goals
      obtain ⟨more, later, rfl⟩ := Option.map_eq_some_iff.mp found
      simp [ih later]

/-- What follows a semicolon does not change the calls before it, if they are closed there. -/
private theorem tokenCallsAfter_append_semicolon {ts : List Token} (closed : callsClose ts = true)
    {skip : Nat} (within : skip ≤ ts.length) (rest : List Token) :
    tokenCallsAfter skip (ts ++ ⟨.semicolon, ";"⟩ :: rest) =
      tokenCallsAfter skip ts ++ tokenCallsAfter 0 rest := by
  induction ts generalizing skip with
  | nil =>
    obtain rfl : skip = 0 := Nat.le_zero.mp within
    exact tokenCallsAfter_cons rfl rest
  | cons t tail ih =>
    rw [callsClose, Bool.and_eq_true] at closed
    obtain ⟨here, later⟩ := closed
    cases skip with
    | succ skip => exact ih later (Nat.le_of_succ_le_succ within)
    | zero =>
      rw [List.cons_append, tokenCallsAfter, tokenCallsAfter, any_head?_append_semicolon rfl]
      split
      next begins =>
        -- The call ends among the tokens, so the search for its end comes to the same.
        simp only [begins, Bool.not_true, Bool.false_or] at here
        obtain ⟨inside, found⟩ := Option.isSome_iff_exists.mp here
        obtain ⟨close, after, whole, _⟩ := exists_of_enclosed? found
        cases tail with
        | nil => simp at begins
        | cons opening more =>
          have matching : enclosed? 0 (opening :: more ++ ⟨.semicolon, ";"⟩ :: rest).tail =
              some inside := enclosed?_append_of_eq_some found _
          have enough : inside.length + 2 ≤ (opening :: more).length := by
            simp only [List.tail_cons] at whole
            simp [whole]
          rw [matching, found]
          dsimp only
          rw [ih later enough, List.cons_append]
      · exact ih later (Nat.zero_le _)

theorem tokenCalls_joinTokens {group : List (List Token)}
    (closed : ∀ part ∈ group, callsClose part = true) :
    tokenCalls (joinTokens group) = group.flatMap tokenCalls :=
  flatMap_joinTokens rfl fun first member rest =>
    tokenCallsAfter_append_semicolon (closed first member) (Nat.zero_le _) rest

/-- A semicolon joins nothing, and what it separates is joined on its own. -/
theorem undivided_joinTokens_iff {statements : List (List Token)}
    (level : ∀ ts ∈ statements, Nesting.level (·.kind.shift) 0 ts = 0) :
    Undivided (joinTokens statements) ↔ ∀ ts ∈ statements, Undivided ts := by
  induction statements with
  | nil => exact ⟨fun _ => nofun, fun _ => Nesting.Uncut.nil 0⟩
  | cons first rest ih =>
    obtain ⟨flat, others⟩ := List.forall_mem_cons.mp level
    cases rest with
    | nil => simp [joinTokens_singleton]
    | cons second more =>
      -- The semicolon comes first here, so that what follows the statement is a text of its own.
      have semicolon : Nesting.Uncut (·.kind.shift) Token.isJoint 0
          (⟨.semicolon, ";"⟩ :: joinTokens (second :: more)) ↔
            Undivided (joinTokens (second :: more)) := by
        rw [Nesting.uncut_cons]
        exact and_iff_right nofun
      rw [List.forall_mem_cons, ← ih others, ← semicolon, joinTokens_cons_cons, Undivided,
        Nesting.uncut_append_iff, flat]
      rfl

theorem unjoined_joinTokens_iff {group : List (List Token)} :
    Unjoined (joinTokens group) ↔ ∀ part ∈ group, Unjoined part := by
  have symbols : (joinTokens group).filter (·.kind.isConnective) =
      group.flatMap (·.filter (·.kind.isConnective)) :=
    flatMap_joinTokens rfl fun first _ rest => by simp [Kind.isConnective]
  have absent (ts : List Token) : Unjoined ts ↔ ts.filter (·.kind.isConnective) = [] := by
    simp [Unjoined, List.filter_eq_nil_iff]
  simp only [absent, symbols, List.flatMap_eq_nil_iff]

theorem isCompound_joinTokens_eq_false_iff {statements : List (List Token)}
    (level : ∀ ts ∈ statements, Nesting.level (·.kind.shift) 0 ts = 0) :
    isCompound (joinTokens statements) = false ↔ ∀ ts ∈ statements, isCompound ts = false := by
  simp only [isCompound_eq_false_iff, unjoined_joinTokens_iff, undivided_joinTokens_iff level]
  exact forall₂_and.symm

/-! ### Joinable statements -/

/-- A statement that can be joined with others: in the parts that meet them every call is closed,
and no symbol stands in brackets. -/
structure Joinable (ts : List Token) : Prop where
  closed : ∀ part ∈ outerParts ts, callsClose part = true
  unjoined : ∀ part ∈ outerParts ts, Unjoined part

instance : DecidablePred Joinable := fun ts =>
  decidable_of_iff ((∀ part ∈ outerParts ts, callsClose part = true) ∧
      ∀ part ∈ outerParts ts, Unjoined part)
    ⟨fun ⟨closed, unjoined⟩ => ⟨closed, unjoined⟩,
      fun joinable => ⟨joinable.closed, joinable.unjoined⟩⟩

theorem undivided_of_mem_parts {ts part : List Token} (cut : part ∈ parts ts) : Undivided part :=
  parts_eq_singleton_iff.mp (Nesting.pieces_of_mem_pieces _ _ cut)

private theorem mem_parts_of_outer {ts part : List Token} (outer : part ∈ outerParts ts) :
    part ∈ parts ts := by
  rcases List.mem_append.mp outer with head | last
  · exact List.mem_of_head? (Option.mem_toList.mp head)
  · exact List.mem_of_getLast? (Option.mem_toList.mp last)

/-- Parts that are searched together as they are apart: the calls are closed in each of them, and
neither one of them nor the whole is compound. -/
structure Harmless (group : List (List Token)) : Prop where
  closed : ∀ part ∈ group, callsClose part = true
  simple : ∀ part ∈ group, isCompound part = false
  whole : isCompound (joinTokens group) = false

/-- A part of joinable statements is a part of one of them, or it is harmless. -/
theorem Groups.single_or_harmless {statements first group : List (List Token)}
    {more : List (List (List Token))} (groups : Groups statements first more)
    (joinable : ∀ ts ∈ statements, Joinable ts) (member : group ∈ first :: more) :
    (∃ part, group = [part]) ∨ Harmless group := by
  have outer : (∃ part, group = [part]) ∨ ∀ part ∈ group, Meets statements part := by
    rcases List.mem_cons.mp member with rfl | later
    · exact Or.inr groups.outer
    · exact groups.joins group later
  refine outer.imp_right fun meets => ?_
  have symbols : ∀ part ∈ group, Unjoined part := by
    intro part inside
    obtain ⟨ts, listed, edge⟩ := meets part inside
    exact (joinable ts listed).unjoined part edge
  have cut : joinTokens group ∈ parts (joinTokens statements) := by
    rw [groups.joined]
    exact List.mem_map_of_mem member
  constructor
  · intro part inside
    obtain ⟨ts, listed, edge⟩ := meets part inside
    exact (joinable ts listed).closed part edge
  · intro part inside
    obtain ⟨ts, _, edge⟩ := meets part inside
    exact isCompound_eq_false_iff.mpr
      ⟨symbols part inside, undivided_of_mem_parts (mem_parts_of_outer edge)⟩
  · exact isCompound_eq_false_iff.mpr
      ⟨unjoined_joinTokens_iff.mpr symbols, undivided_of_mem_parts cut⟩

end Formula

namespace Vocabulary

variable {v : Vocabulary}

/-! ### The search of joined parts -/

theorem scanTokens_of_compound {ts : List Token} (compound : isCompound ts = true) (levels : Nat) :
    v.scanTokens (levels + 1) ts = (parts ts).flatMap (v.scanTokens levels) := by
  rw [scanTokens, if_pos compound, splitTokens, parts]
  -- Empty parts yield nothing, so it makes no difference that they are left out.
  induction Nesting.pieces (·.kind.shift) Token.isJoint 0 ts with
  | nil => rfl
  | cons part rest ih =>
    cases part with
    | nil => rw [List.flatMap_cons, scanTokens_nil]; exact ih
    | cons t more => rw [List.filter_cons_of_pos rfl, List.flatMap_cons, List.flatMap_cons, ih]

theorem mem_scanTokens_of_mem_reported {levels : Nat} {ts : List Token} {name : String}
    (simple : isCompound ts = false) (member : name ∈ v.reported levels ts) :
    name ∈ v.scanTokens (levels + 1) ts := by
  rw [scanTokens_of_simple simple, if_neg]
  · exact member
  · exact fun none => List.ne_nil_of_mem member (List.isEmpty_iff.mp none)

theorem reported_joinTokens {group : List (List Token)}
    (closed : ∀ part ∈ group, callsClose part = true) (levels : Nat) :
    v.reported levels (joinTokens group) = group.flatMap (v.reported levels) := by
  rw [reported, tokenCalls_joinTokens closed, List.flatMap_assoc, List.flatMap_assoc]
  apply List.flatMap_congr
  intro part _
  rw [reported, List.flatMap_assoc]

/-- A name that one part binds can still be a plain name of another. -/
theorem exists_part_of_mem_plainNames {group : List (List Token)} {name : String}
    (member : name ∈ v.plainNames (joinTokens group)) :
    ∃ part ∈ group, name ∈ v.plainNames part := by
  obtain ⟨named, admitted, unbound⟩ := mem_plainNames_iff.mp member
  rw [names_joinTokens] at named
  obtain ⟨part, inside, held⟩ := List.mem_flatMap.mp named
  refine ⟨part, inside, mem_plainNames_iff.mpr ⟨held, admitted, fun bound => unbound ?_⟩⟩
  rw [← mem_boundNames_iff, boundNames_joinTokens]
  exact List.mem_flatMap.mpr ⟨part, inside, mem_boundNames_iff.mpr bound⟩

/-- Parts that are joined yield nothing that they do not yield on their own. -/
theorem exists_part_of_mem_scanTokens {levels : Nat} {group : List (List Token)} {name : String}
    (harmless : Harmless group) (member : name ∈ v.scanTokens levels (joinTokens group)) :
    ∃ part ∈ group, name ∈ v.scanTokens levels part := by
  cases levels with
  | zero => exact exists_part_of_mem_plainNames member
  | succ levels =>
    rw [scanTokens_of_simple harmless.whole, reported_joinTokens harmless.closed] at member
    split at member
    next silent =>
      -- No call reports anything, so every part falls back to its plain names.
      obtain ⟨part, inside, plain⟩ := exists_part_of_mem_plainNames member
      have none : v.reported levels part = [] :=
        List.flatMap_eq_nil_iff.mp (List.isEmpty_iff.mp silent) part inside
      refine ⟨part, inside, ?_⟩
      rw [scanTokens_of_simple (harmless.simple part inside), none]
      exact plain
    next =>
      obtain ⟨part, inside, found⟩ := List.mem_flatMap.mp member
      exact ⟨part, inside, mem_scanTokens_of_mem_reported (harmless.simple part inside) found⟩

/-! ### The search of joined statements -/

variable {statements : List (List Token)} {name : String}

/-- What the parts of joined statements yield is yielded by a part of a statement. -/
theorem exists_part_of_mem_joined (filled : statements ≠ [])
    (level : ∀ ts ∈ statements, Nesting.level (·.kind.shift) 0 ts = 0)
    (joinable : ∀ ts ∈ statements, Joinable ts) {levels : Nat}
    (member : name ∈ (parts (joinTokens statements)).flatMap (v.scanTokens levels)) :
    ∃ ts ∈ statements, ∃ part ∈ parts ts, name ∈ v.scanTokens levels part := by
  obtain ⟨first, more, groups⟩ := exists_groups filled level
  rw [groups.joined, List.flatMap_map] at member
  obtain ⟨group, listed, found⟩ := List.mem_flatMap.mp member
  obtain ⟨part, inside, yielded⟩ : ∃ part ∈ group, name ∈ v.scanTokens levels part := by
    rcases groups.single_or_harmless joinable listed with ⟨part, rfl⟩ | harmless
    · exact ⟨part, List.mem_singleton_self part, joinTokens_singleton part ▸ found⟩
    · exact exists_part_of_mem_scanTokens harmless found
  obtain ⟨ts, statement, cut⟩ := groups.exists_statement listed inside
  exact ⟨ts, statement, part, cut, yielded⟩

/-- What the calls of a part report is found in the joined statements. -/
theorem mem_joined_of_reported (level : ∀ ts ∈ statements, Nesting.level (·.kind.shift) 0 ts = 0)
    (joinable : ∀ ts ∈ statements, Joinable ts) {levels : Nat} {ts part : List Token}
    (statement : ts ∈ statements) (cut : part ∈ parts ts) (simple : isCompound part = false)
    (member : name ∈ v.reported levels part) :
    name ∈ (parts (joinTokens statements)).flatMap (v.scanTokens (levels + 1)) := by
  obtain ⟨first, more, groups⟩ := exists_groups (List.ne_nil_of_mem statement) level
  obtain ⟨group, listed, inside⟩ := groups.exists_group statement cut
  rw [groups.joined, List.flatMap_map]
  refine List.mem_flatMap.mpr ⟨group, listed, ?_⟩
  rcases groups.single_or_harmless joinable listed with ⟨single, rfl⟩ | harmless
  · obtain rfl := List.mem_singleton.mp inside
    rw [joinTokens_singleton]
    exact mem_scanTokens_of_mem_reported simple member
  · apply mem_scanTokens_of_mem_reported harmless.whole
    rw [reported_joinTokens harmless.closed]
    exact List.mem_flatMap.mpr ⟨part, inside, member⟩

end Vocabulary

end FormulaFields
