import FormulaFields.Formula.Nesting

/-!
What the pieces of a list are: stretches of it between separators, which fill it together with the
separators. Cutting sees of an item only how it nests and whether it separates, so leaving out or
changing items without touching these commutes with cutting.
-/
namespace FormulaFields.Formula.Nesting

section Stretches

variable {Item : Type} (shift : Item → Int) (cuts : Item → Bool)

theorem exists_pieces_eq_cons (depth : Int) (list : List Item) :
    ∃ first more, pieces shift cuts depth list = first :: more := by
  induction list generalizing depth with
  | nil => exact ⟨[], [], rfl⟩
  | cons x rest ih =>
    rw [pieces]
    split
    · exact ⟨_, _, rfl⟩
    · obtain ⟨first, more, pieces⟩ := ih (depth + shift x)
      rw [pieces]
      exact ⟨_, _, rfl⟩

/-- Nothing stands behind a piece, or a separator does. -/
def Stops (after : List Item) : Prop := ∀ x ∈ after.head?, cuts x = true

private theorem stops_of_separates {depth : Int} {x : Item} {rest : List Item}
    (separator : separates shift cuts depth x = true) : Stops cuts (x :: rest) := by
  rintro y ⟨⟩
  simp only [separates, Bool.and_eq_true] at separator
  exact separator.2

/-- A piece is a stretch of the list that starts behind the earlier pieces and one separator for
each, and a separator or nothing stands behind it. -/
theorem exists_of_pieces_eq_append {depth : Int} {list piece : List Item}
    {earlier later : List (List Item)}
    (cut : pieces shift cuts depth list = earlier ++ piece :: later) :
    ∃ before after, list = before ++ piece ++ after ∧
      before.length = earlier.flatten.length + earlier.length ∧ Stops cuts after := by
  induction list generalizing depth earlier piece with
  | nil =>
    cases earlier with
    | nil =>
      cases cut
      exact ⟨[], [], rfl, rfl, nofun⟩
    | cons first more =>
      have lengths := congrArg List.length cut
      simp [pieces] at lengths
  | cons x rest ih =>
    rw [pieces] at cut
    split at cut
    next separator =>
      cases earlier with
      | nil =>
        cases cut
        exact ⟨[], x :: rest, rfl, rfl, stops_of_separates shift cuts separator⟩
      | cons first more =>
        obtain ⟨rfl, within⟩ := List.cons.inj cut
        obtain ⟨before, after, whole, start, stop⟩ := ih within
        refine ⟨x :: before, after, by rw [whole]; rfl, ?_, stop⟩
        simp only [List.length_cons, List.flatten_cons, List.nil_append]
        omega
    · obtain ⟨first, others, next⟩ := exists_pieces_eq_cons shift cuts (depth + shift x) rest
      rw [next, List.modifyHead_cons] at cut
      cases earlier with
      | nil =>
        obtain ⟨rfl, rfl⟩ := List.cons.inj cut
        -- The piece that `x` begins starts the list, so nothing stands before its rest either.
        have head : pieces shift cuts (depth + shift x) rest = [] ++ first :: others := next
        obtain ⟨before, after, whole, start, stop⟩ := ih head
        obtain rfl : before = [] := List.length_eq_zero_iff.mp start
        exact ⟨[], after, by rw [whole]; rfl, rfl, stop⟩
      | cons front more =>
        obtain ⟨rfl, rfl⟩ := List.cons.inj cut
        have within : pieces shift cuts (depth + shift x) rest =
            (first :: more) ++ piece :: later := next
        obtain ⟨before, after, whole, start, stop⟩ := ih within
        refine ⟨x :: before, after, by rw [whole]; rfl, ?_, stop⟩
        simp only [List.length_cons, List.flatten_cons, List.length_append] at start ⊢
        omega

theorem exists_of_mem_pieces {depth : Int} {list piece : List Item}
    (member : piece ∈ pieces shift cuts depth list) :
    ∃ before after, list = before ++ piece ++ after ∧ Stops cuts after := by
  obtain ⟨earlier, later, cut⟩ := List.append_of_mem member
  obtain ⟨before, after, whole, _, stop⟩ := exists_of_pieces_eq_append shift cuts cut
  exact ⟨before, after, whole, stop⟩

/-- The pieces and one separator between any two of them fill the list. -/
theorem length_flatten_pieces (depth : Int) (list : List Item) :
    (pieces shift cuts depth list).flatten.length + (pieces shift cuts depth list).length =
      list.length + 1 := by
  induction list generalizing depth with
  | nil => rfl
  | cons x rest ih =>
    rw [pieces]
    split
    · have filled := ih depth
      simp only [List.flatten_cons, List.nil_append, List.length_cons]
      omega
    · obtain ⟨first, more, cut⟩ := exists_pieces_eq_cons shift cuts (depth + shift x) rest
      have filled := ih (depth + shift x)
      rw [cut] at filled ⊢
      simp only [List.modifyHead_cons, List.flatten_cons, List.length_append,
        List.length_cons] at filled ⊢
      omega

/-- A piece is shorter than the list, unless it is the list and the only piece. -/
theorem length_lt_or_eq_of_mem_pieces {depth : Int} {list piece : List Item}
    (member : piece ∈ pieces shift cuts depth list) :
    piece.length < list.length ∨ (piece = list ∧ pieces shift cuts depth list = [list]) := by
  obtain ⟨before, after, whole, _⟩ := exists_of_mem_pieces shift cuts member
  have lengths := congrArg List.length whole
  simp only [List.length_append] at lengths
  by_cases shorter : piece.length < list.length
  · exact Or.inl shorter
  · have nothing : before = [] ∧ after = [] := by
      constructor <;> apply List.length_eq_zero_iff.mp <;> omega
    obtain ⟨rfl, rfl⟩ := nothing
    have same : piece = list := by simpa using whole.symm
    subst piece
    refine Or.inr ⟨rfl, ?_⟩
    have filled := length_flatten_pieces shift cuts depth list
    obtain ⟨earlier, later, cut⟩ := List.append_of_mem member
    rw [cut] at filled
    simp only [List.flatten_append, List.flatten_cons, List.length_append,
      List.length_cons] at filled
    -- The piece fills the list, and no room is left for a separator.
    have alone : earlier = [] ∧ later = [] := by
      constructor <;> apply List.length_eq_zero_iff.mp <;> omega
    rw [cut, alone.1, alone.2]
    rfl

/-- All pieces but the last one lie before the end of the list. -/
theorem pairwise_pieces (depth : Int) (list : List Item) :
    (pieces shift cuts depth list).Pairwise fun piece _ => ∀ x ∈ piece, x ∈ list.dropLast := by
  induction list generalizing depth with
  | nil => exact List.pairwise_singleton _ _
  | cons x rest ih =>
    rw [pieces]
    split
    · cases rest with
      | nil => simp [pieces]
      | cons y more =>
        refine List.Pairwise.cons (fun _ _ => nofun) ((ih depth).imp ?_)
        intro piece _ early z member
        exact List.mem_cons_of_mem x (early z member)
    · cases rest with
      | nil => exact List.pairwise_singleton _ _
      | cons y more =>
        obtain ⟨first, others, cut⟩ :=
          exists_pieces_eq_cons shift cuts (depth + shift x) (y :: more)
        have early := ih (depth + shift x)
        rw [cut, List.pairwise_cons] at early
        rw [cut, List.modifyHead_cons, List.pairwise_cons]
        constructor
        · intro other member z inside
          rcases List.mem_cons.mp inside with rfl | within
          · exact List.mem_cons_self
          · exact List.mem_cons_of_mem x (early.1 other member z within)
        · refine early.2.imp ?_
          intro piece _ ahead z member
          exact List.mem_cons_of_mem x (ahead z member)

theorem cutFirst?_congr {parts : Item → Bool} {depth : Int} {list : List Item}
    (same : ∀ x ∈ list, cuts x = parts x) :
    cutFirst? shift cuts depth list = cutFirst? shift parts depth list := by
  induction list generalizing depth with
  | nil => rfl
  | cons x rest ih =>
    simp only [List.mem_cons, forall_eq_or_imp] at same
    have agree : separates shift cuts depth x = separates shift parts depth x := by
      rw [separates, separates, same.1]
    rw [cutFirst?, cutFirst?, agree, ih same.2]

theorem pieces_of_cutFirst?_eq_none {depth : Int} {list : List Item}
    (uncut : cutFirst? shift cuts depth list = none) : pieces shift cuts depth list = [list] := by
  induction list generalizing depth with
  | nil => rfl
  | cons x rest ih =>
    rw [cutFirst?] at uncut
    split at uncut
    · cases uncut
    next joined =>
      rw [pieces, if_neg joined, ih (Option.map_eq_none_iff.mp uncut), List.modifyHead_cons]

/-- What no separator passes is kept: the pieces together hold all of it, in order. -/
theorem flatMap_filter_pieces {kept : Item → Bool} (gone : ∀ x, cuts x = true → kept x = false)
    (depth : Int) (list : List Item) :
    (pieces shift cuts depth list).flatMap (·.filter kept) = list.filter kept := by
  induction list generalizing depth with
  | nil => rfl
  | cons x rest ih =>
    rw [pieces]
    split
    next separator =>
      have stop : Stops cuts [x] := stops_of_separates shift cuts separator
      rw [List.flatMap_cons, ih, List.filter_nil, List.nil_append, List.filter_cons,
        gone x (stop x rfl), if_neg Bool.false_ne_true]
    · obtain ⟨first, more, cut⟩ := exists_pieces_eq_cons shift cuts (depth + shift x) rest
      have later := ih (depth + shift x)
      rw [cut, List.flatMap_cons] at later
      rw [cut, List.modifyHead_cons, List.flatMap_cons, List.filter_cons, List.filter_cons]
      split
      · rw [List.cons_append, later]
      · exact later

/-- Pieces are not cut any further. All but the first one begin outside brackets. -/
theorem pieces_of_pieces_eq_cons {depth : Int} {list first : List Item}
    {more : List (List Item)} (cut : pieces shift cuts depth list = first :: more) :
    pieces shift cuts depth first = [first] ∧
      ∀ piece ∈ more, pieces shift cuts 0 piece = [piece] := by
  induction list generalizing depth first more with
  | nil =>
    obtain ⟨rfl, rfl⟩ := List.cons.inj cut
    exact ⟨rfl, nofun⟩
  | cons x rest ih =>
    rw [pieces] at cut
    split at cut
    next separator =>
      obtain ⟨rfl, rfl⟩ := List.cons.inj cut
      refine ⟨rfl, fun piece member => ?_⟩
      -- Behind a separator the depth is zero, as it is in front of it.
      have outside : depth = 0 := by
        simp only [separates, Bool.and_eq_true, beq_iff_eq] at separator
        exact separator.1.2
      subst outside
      obtain ⟨second, others, next⟩ := exists_pieces_eq_cons shift cuts 0 rest
      obtain ⟨whole, later⟩ := ih next
      rw [next] at member
      rcases List.mem_cons.mp member with rfl | behind
      · exact whole
      · exact later piece behind
    next joined =>
      obtain ⟨front, others, next⟩ := exists_pieces_eq_cons shift cuts (depth + shift x) rest
      obtain ⟨whole, later⟩ := ih next
      rw [next, List.modifyHead_cons] at cut
      obtain ⟨rfl, rfl⟩ := List.cons.inj cut
      refine ⟨?_, later⟩
      rw [pieces, if_neg joined, whole, List.modifyHead_cons]

theorem pieces_of_mem_pieces {list piece : List Item}
    (member : piece ∈ pieces shift cuts 0 list) : pieces shift cuts 0 piece = [piece] := by
  obtain ⟨first, more, cut⟩ := exists_pieces_eq_cons shift cuts 0 list
  obtain ⟨whole, later⟩ := pieces_of_pieces_eq_cons shift cuts cut
  rw [cut] at member
  rcases List.mem_cons.mp member with rfl | behind
  · exact whole
  · exact later piece behind

/-! ### Uncut lists -/

/-- The depth that a list leads to from `depth`. -/
def level (depth : Int) : List Item → Int
  | [] => depth
  | x :: rest => level (depth + shift x) rest

theorem level_append (depth : Int) (first second : List Item) :
    level shift depth (first ++ second) = level shift (level shift depth first) second := by
  induction first generalizing depth with
  | nil => rfl
  | cons x rest ih => exact ih (depth + shift x)

/-- The first separator stands outside brackets, and nothing before it is left open. -/
theorem exists_of_cutFirst? {depth : Int} {list before after : List Item}
    (cut : cutFirst? shift cuts depth list = some (before, after)) :
    ∃ x, list = before ++ x :: after ∧ cuts x = true ∧ shift x = 0 ∧
      level shift depth before = 0 := by
  induction list generalizing depth before after with
  | nil => cases cut
  | cons x rest ih =>
    rw [cutFirst?] at cut
    split at cut
    next separator =>
      cases cut
      simp only [separates, Bool.and_eq_true, beq_iff_eq] at separator
      obtain ⟨⟨flat, outside⟩, separator⟩ := separator
      exact ⟨x, rfl, separator, flat, outside⟩
    · obtain ⟨⟨first, second⟩, later, same⟩ := Option.map_eq_some_iff.mp cut
      cases same
      obtain ⟨y, rfl, found⟩ := ih later
      exact ⟨y, rfl, found⟩

/-- Nothing in the list that `cuts` accepts stands outside brackets, the list beginning at
`depth`. -/
def Uncut (depth : Int) (list : List Item) : Prop :=
  ∀ before x after, list = before ++ x :: after → cuts x = true → level shift depth before ≠ 0

variable {shift cuts}

theorem Uncut.nil (depth : Int) : Uncut shift cuts depth [] := by
  intro before x after whole
  cases before <;> cases whole

theorem uncut_cons {depth : Int} {x : Item} {rest : List Item} :
    Uncut shift cuts depth (x :: rest) ↔
      (cuts x = true → depth ≠ 0) ∧ Uncut shift cuts (depth + shift x) rest := by
  constructor
  · intro uncut
    refine ⟨uncut [] x rest rfl, fun before y after whole => ?_⟩
    exact uncut (x :: before) y after (congrArg (x :: ·) whole)
  · rintro ⟨head, tail⟩ before y after whole
    cases before with
    | nil =>
      obtain ⟨rfl, _⟩ := List.cons.inj whole
      exact head
    | cons z before =>
      obtain ⟨rfl, within⟩ := List.cons.inj whole
      exact tail before y after within

instance instDecidableUncut (shift : Item → Int) (cuts : Item → Bool) :
    (depth : Int) → (list : List Item) → Decidable (Uncut shift cuts depth list)
  | depth, [] => isTrue (Uncut.nil depth)
  | depth, x :: rest =>
    have := instDecidableUncut shift cuts (depth + shift x) rest
    decidable_of_iff ((cuts x = true → depth ≠ 0) ∧ Uncut shift cuts (depth + shift x) rest)
      uncut_cons.symm

theorem uncut_of_forall {depth : Int} {list : List Item} (never : ∀ x ∈ list, cuts x = false) :
    Uncut shift cuts depth list := by
  rintro before x after rfl separator
  rw [never x (by simp)] at separator
  cases separator

theorem Uncut.append {depth : Int} {first second : List Item}
    (left : Uncut shift cuts depth first)
    (right : Uncut shift cuts (level shift depth first) second) :
    Uncut shift cuts depth (first ++ second) := by
  induction first generalizing depth with
  | nil => exact right
  | cons x rest ih =>
    obtain ⟨head, tail⟩ := uncut_cons.mp left
    exact uncut_cons.mpr ⟨head, ih tail right⟩

theorem uncut_append_iff {depth : Int} {first second : List Item} :
    Uncut shift cuts depth (first ++ second) ↔
      Uncut shift cuts depth first ∧ Uncut shift cuts (level shift depth first) second := by
  constructor
  · intro uncut
    constructor
    · rintro before x after rfl separator
      exact uncut before x (after ++ second) (by simp) separator
    · rintro before x after rfl separator
      rw [← level_append]
      exact uncut (first ++ before) x after (by simp) separator
  · rintro ⟨left, right⟩
    exact left.append right

theorem Uncut.joined {depth : Int} {x : Item} {rest : List Item}
    (uncut : Uncut shift cuts depth (x :: rest)) : separates shift cuts depth x = false := by
  have head := (uncut_cons.mp uncut).1
  apply Bool.eq_false_iff.mpr
  intro separator
  simp only [separates, Bool.and_eq_true, beq_iff_eq] at separator
  exact head separator.2 separator.1.2

/-- What is a single piece is uncut, if no bracket is a separator. -/
theorem uncut_of_pieces (flat : ∀ x, cuts x = true → shift x = 0) {depth : Int} {list : List Item}
    (whole : pieces shift cuts depth list = [list]) : Uncut shift cuts depth list := by
  induction list generalizing depth with
  | nil => exact Uncut.nil depth
  | cons x rest ih =>
    rw [pieces] at whole
    split at whole
    · simp at whole
    next joined =>
      obtain ⟨first, more, cut⟩ := exists_pieces_eq_cons shift cuts (depth + shift x) rest
      rw [cut, List.modifyHead_cons, List.cons.injEq, List.cons.injEq] at whole
      obtain ⟨⟨_, rfl⟩, rfl⟩ := whole
      refine uncut_cons.mpr ⟨fun separator outside => joined ?_, ih cut⟩
      simp [separates, separator, flat x separator, outside]

/-- Cutting passes over an uncut list. -/
theorem Uncut.pieces_append {depth : Int} {first : List Item}
    (uncut : Uncut shift cuts depth first) (rest : List Item) :
    pieces shift cuts depth (first ++ rest) =
      (pieces shift cuts (level shift depth first) rest).modifyHead (first ++ ·) := by
  induction first generalizing depth with
  | nil =>
    obtain ⟨head, more, cut⟩ := exists_pieces_eq_cons shift cuts depth rest
    simp [level, cut]
  | cons x tail ih =>
    rw [List.cons_append, pieces, uncut.joined, if_neg Bool.false_ne_true,
      ih (uncut_cons.mp uncut).2, level]
    obtain ⟨head, more, cut⟩ :=
      exists_pieces_eq_cons shift cuts (level shift (depth + shift x) tail) rest
    simp [cut]

/-- The last piece of the first list and the first piece of the second are one piece of both. -/
theorem pieces_append {depth : Int} {first last : List Item} {front : List (List Item)}
    (cut : pieces shift cuts depth first = front ++ [last]) (rest : List Item) :
    pieces shift cuts depth (first ++ rest) =
      front ++ (pieces shift cuts (level shift depth first) rest).modifyHead (last ++ ·) := by
  induction first generalizing depth front last with
  | nil =>
    have alone : front = [] ∧ last = [] := by
      cases front with
      | nil => exact ⟨rfl, (List.cons.inj cut).1.symm⟩
      | cons piece more => simp [pieces] at cut
    obtain ⟨rfl, rfl⟩ := alone
    obtain ⟨head, more, cut⟩ := exists_pieces_eq_cons shift cuts depth rest
    simp [level, cut]
  | cons x tail ih =>
    rw [pieces] at cut
    rw [List.cons_append, pieces, level]
    split at cut
    next separator =>
      have flat : shift x = 0 := by
        simp only [separates, Bool.and_eq_true, beq_iff_eq] at separator
        exact separator.1.1
      rw [if_pos separator, flat, Int.add_zero]
      cases front with
      | nil =>
        obtain ⟨head, more, next⟩ := exists_pieces_eq_cons shift cuts depth tail
        simp [next] at cut
      | cons piece more =>
        obtain ⟨rfl, later⟩ := List.cons.inj cut
        rw [ih later, List.cons_append]
    next joined =>
      rw [if_neg joined]
      obtain ⟨head, more, next⟩ := exists_pieces_eq_cons shift cuts (depth + shift x) tail
      rw [next, List.modifyHead_cons] at cut
      cases front with
      | nil =>
        -- `x` begins the only piece of the first list, which goes on in the second.
        obtain ⟨rfl, rfl⟩ := List.cons.inj cut
        have whole : pieces shift cuts (depth + shift x) tail = [] ++ [head] := next
        rw [ih whole]
        obtain ⟨begun, others, behind⟩ := exists_pieces_eq_cons shift cuts
          (level shift (depth + shift x) tail) rest
        simp [behind]
      | cons piece front =>
        obtain ⟨rfl, rfl⟩ := List.cons.inj cut
        have whole : pieces shift cuts (depth + shift x) tail = (head :: front) ++ [last] := next
        rw [ih whole, List.cons_append, List.modifyHead_cons]
        rfl

theorem Uncut.cutFirst?_append {depth : Int} {first : List Item}
    (uncut : Uncut shift cuts depth first) (rest : List Item) :
    cutFirst? shift cuts depth (first ++ rest) =
      (cutFirst? shift cuts (level shift depth first) rest).map
        fun cut => (first ++ cut.1, cut.2) := by
  induction first generalizing depth with
  | nil => simp [level]
  | cons x tail ih =>
    rw [List.cons_append, cutFirst?, uncut.joined, if_neg Bool.false_ne_true,
      ih (uncut_cons.mp uncut).2, level, Option.map_map]
    rfl

theorem Uncut.cutFirst?_eq_none {depth : Int} {list : List Item}
    (uncut : Uncut shift cuts depth list) : cutFirst? shift cuts depth list = none := by
  have whole := uncut.cutFirst?_append []
  rwa [List.append_nil] at whole

/-- What stands at the end and separates nowhere goes with the second part. -/
theorem cutFirst?_append_of_forall {depth : Int} {last : List Item}
    (never : ∀ x ∈ last, cuts x = false) (list : List Item) :
    cutFirst? shift cuts depth (list ++ last) =
      (cutFirst? shift cuts depth list).map fun cut => (cut.1, cut.2 ++ last) := by
  induction list generalizing depth with
  | nil => exact (uncut_of_forall never).cutFirst?_eq_none
  | cons x rest ih =>
    rw [List.cons_append, cutFirst?, cutFirst?]
    split
    · rfl
    · rw [ih, Option.map_map, Option.map_map]
      rfl

variable (shift cuts) in
/-- Lists that cutting passes over, with separators between them, are cut at these separators. -/
theorem pieces_intercalate {separator : Item} (flat : shift separator = 0)
    (cut : cuts separator = true) {first : List Item} {parts : List (List Item)}
    (passed : ∀ part ∈ first :: parts, ∀ rest, pieces shift cuts 0 (part ++ rest) =
      (pieces shift cuts 0 rest).modifyHead (part ++ ·)) :
    pieces shift cuts 0 ([separator].intercalate (first :: parts)) = first :: parts := by
  induction parts generalizing first with
  | nil =>
    have whole := passed first List.mem_cons_self []
    simpa [pieces] using whole
  | cons second more ih =>
    have later := ih fun part member => passed part (List.mem_cons_of_mem first member)
    have separator_cuts : separates shift cuts 0 separator = true := by simp [separates, flat, cut]
    rw [List.intercalate_cons_cons, List.append_assoc, passed first List.mem_cons_self,
      List.singleton_append, pieces, if_pos separator_cuts, later]
    simp

end Stretches

section Views

variable {Item Seen : Type} {shift : Item → Int} {cuts : Item → Bool} {shown : Seen → Int}
  {parts : Seen → Bool} {see : Item → Option Seen}

/-- A view of the items that keeps all that cutting looks at. What it hides is no bracket and no
separator. -/
structure Views (shift : Item → Int) (cuts : Item → Bool) (shown : Seen → Int)
    (parts : Seen → Bool) (see : Item → Option Seen) : Prop where
  hidden : ∀ x, see x = none → shift x = 0 ∧ cuts x = false
  seen : ∀ x y, see x = some y → shown y = shift x ∧ parts y = cuts x

theorem map_pieces (views : Views shift cuts shown parts see) (depth : Int) (list : List Item) :
    (pieces shift cuts depth list).map (·.filterMap see) =
      pieces shown parts depth (list.filterMap see) := by
  induction list generalizing depth with
  | nil => rfl
  | cons x rest ih =>
    obtain ⟨first, more, cut⟩ := exists_pieces_eq_cons shift cuts (depth + shift x) rest
    have later := ih (depth + shift x)
    rw [cut] at later
    cases sight : see x with
    | none =>
      obtain ⟨flat, blind⟩ := views.hidden x sight
      have joined : separates shift cuts depth x = false := by simp [separates, blind]
      rw [flat, Int.add_zero] at cut later
      rw [List.filterMap_cons_none sight, pieces, joined, flat, Int.add_zero, cut, ← later]
      simp [sight]
    | some y =>
      obtain ⟨level, same⟩ := views.seen x y sight
      have agree : separates shown parts depth y = separates shift cuts depth x := by
        rw [separates, separates, level, same]
      rw [List.filterMap_cons_some sight, pieces, pieces, agree, level]
      split
      · rw [List.map_cons, ih depth]
        rfl
      · rw [cut, ← later]
        simp [sight]

theorem level_filterMap (views : Views shift cuts shown parts see) (depth : Int)
    (list : List Item) : level shown depth (list.filterMap see) = level shift depth list := by
  induction list generalizing depth with
  | nil => rfl
  | cons x rest ih =>
    cases sight : see x with
    | none =>
      rw [List.filterMap_cons_none sight, level, (views.hidden x sight).1, Int.add_zero, ih]
    | some y => rw [List.filterMap_cons_some sight, level, level, (views.seen x y sight).1, ih]

theorem map_cutFirst? (views : Views shift cuts shown parts see) (depth : Int)
    (list : List Item) :
    (cutFirst? shift cuts depth list).map (Prod.map (·.filterMap see) (·.filterMap see)) =
      cutFirst? shown parts depth (list.filterMap see) := by
  induction list generalizing depth with
  | nil => rfl
  | cons x rest ih =>
    cases sight : see x with
    | none =>
      obtain ⟨flat, blind⟩ := views.hidden x sight
      have joined : separates shift cuts depth x = false := by simp [separates, blind]
      rw [List.filterMap_cons_none sight, cutFirst?, joined, flat, Int.add_zero, ← ih depth]
      cases cutFirst? shift cuts depth rest <;> simp [sight, Prod.map]
    | some y =>
      obtain ⟨level, same⟩ := views.seen x y sight
      have agree : separates shown parts depth y = separates shift cuts depth x := by
        rw [separates, separates, level, same]
      rw [List.filterMap_cons_some sight, cutFirst?, cutFirst?, agree, level, ← ih]
      split
      · rfl
      · cases cutFirst? shift cuts (depth + shift x) rest <;> simp [sight]

end Views

end FormulaFields.Formula.Nesting
