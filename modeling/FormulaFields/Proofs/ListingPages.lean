import FormulaFields.Alpha.Listing
import FormulaFields.Proofs.JsonTexts

/-!
The two forms of a listing of alphas. A page is an object with a member `results` beside others that
are passed over; it is read as the text of this member is read by itself, wherever the member stands
and whatever its value holds. No text is accepted but arrays and pages around an array. Main
statement: `AlphaListing.ofText?_forms`.
-/
namespace FormulaFields

namespace Json.Value

theorem isPlain_object_iff {members : List (Option String × Value)} :
    (Value.object members).isPlain = true ↔
      ∀ member ∈ members, member.1.isSome = true ∧ member.2.isPlain = true := by
  rw [isPlain]
  induction members with
  | nil => simp [arePlainMembers]
  | cons member rest ih => simp [arePlainMembers, ih]

theorem depth_le_depthOfMembers {members : List (Option String × Value)}
    {member : Option String × Value} (inside : member ∈ members) :
    member.2.depth ≤ depthOfMembers members := by
  induction members with
  | nil => cases inside
  | cons first rest ih =>
    rw [depthOfMembers]
    rcases List.mem_cons.mp inside with rfl | later
    · exact Nat.le_max_left _ _
    · exact Nat.le_trans (ih later) (Nat.le_max_right _ _)

end Json.Value

open Json (Value MemberText)

namespace AlphaListing

/-! ### Texts of the two forms -/

/-- The text is an array, of whatever items. -/
def IsArray (text : String) : Prop := ∃ items, Json.read? text = some (.array items)

/-- The member has another key than `results`, and a value that can be decoded. -/
def IsAside (part : MemberText) : Prop :=
  ∃ name v, part.Reads (some name, v) ∧ name ≠ "results" ∧ v.isPlain = true

/-- The page is an object that has the text `list` as the value of its one member `results`. -/
def IsPage (page list : String) : Prop :=
  ∃ before key value after, Json.IsObject page (before ++ ⟨key, value⟩ :: after) ∧
    Json.read? key = some (.text "results") ∧ Json.IsPadded value.toList list.toList ∧
      ∀ part ∈ before ++ after, IsAside part

/-- The text is not nested so deep that it is refused for that. -/
def IsShallow (text : String) : Prop :=
  ∀ v, Json.read? text = some v → v.depth < nestingLimit

/-! ### Values of the two forms -/

/-- The entries are those of an array, or of an object in whose one member `results` they stand. -/
theorem entries?_eq_some_iff {v : Value} {items : List Value} :
    entries? v = some items ↔ v = .array items ∨
      ∃ before after, v = .object (before ++ (some "results", .array items) :: after) ∧
        ∀ m ∈ before ++ after, m.1 ≠ some "results" := by
  constructor
  · intro found
    unfold entries? at found
    split at found
    · exact .inl (congrArg Value.array (Option.some.inj found))
    next members =>
      split at found
      next name inner one =>
        -- The filter left one member, so none before or behind it has the key.
        obtain ⟨before, rest, rfl, first, named, last⟩ := List.filter_eq_cons_iff.mp one
        cases Option.some.inj found
        cases eq_of_beq named
        refine .inr ⟨before, rest, rfl, fun m inside => ?_⟩
        rw [List.filter_eq_nil_iff] at last
        rcases List.mem_append.mp inside with ahead | behind
        · simpa using first m ahead
        · simpa using last m behind
      · cases found
    · cases found
  · rintro (rfl | ⟨before, after, rfl, others⟩)
    · rfl
    · have ahead : before.filter (·.1 == some "results") = [] :=
        List.filter_eq_nil_iff.mpr fun m inside => by
          simpa using others m (List.mem_append_left after inside)
      have behind : after.filter (·.1 == some "results") = [] :=
        List.filter_eq_nil_iff.mpr fun m inside => by
          simpa using others m (List.mem_append_right before inside)
      simp [entries?, List.filter_append, ahead, behind]

theorem ofText?_eq {text : String} {v : Value} (read : Json.read? text = some v) :
    ofText? text = if v.isPlain && v.depth < nestingLimit then ofValue? v else none := by
  rw [ofText?, read, Option.bind_some]

/-- The member has another key than `results`, and can be decoded. -/
structure PassedOver (member : Option String × Value) : Prop where
  other : member.1 ≠ some "results"
  named : member.1.isSome = true
  plain : member.2.isPlain = true

/-- Members that are passed over change nothing for the entries of the one named `results`. -/
theorem ofText?_of_object {page list : String} {items : List Value}
    {before after : List (Option String × Value)}
    (object : Json.read? page = some (.object (before ++ (some "results", .array items) :: after)))
    (array : Json.read? list = some (.array items)) (shallow : IsShallow page)
    (passed : ∀ m ∈ before ++ after, PassedOver m) : ofText? page = ofText? list := by
  have found : entries? (.object (before ++ (some "results", .array items) :: after)) =
      some items :=
    entries?_eq_some_iff.mpr (.inr ⟨before, after, rfl, fun m inside => (passed m inside).other⟩)
  have listed :
      (some "results", .array items) ∈ before ++ (some "results", .array items) :: after :=
    List.mem_append_right before List.mem_cons_self
  have whole := shallow _ object
  have part : (Value.array items).depth < nestingLimit := by
    rw [Value.depth] at whole
    exact Nat.lt_of_le_of_lt (Value.depth_le_depthOfMembers listed) (Nat.lt_of_succ_lt whole)
  -- What is passed over can be decoded, so it decides nothing.
  have plain : (Value.object (before ++ (some "results", .array items) :: after)).isPlain =
      (Value.array items).isPlain := by
    rw [Bool.eq_iff_iff, Value.isPlain_object_iff]
    refine ⟨fun all => (all _ listed).2, fun alone m inside => ?_⟩
    have decoded (member : m ∈ before ++ after) : m.1.isSome = true ∧ m.2.isPlain = true :=
      ⟨(passed m member).named, (passed m member).plain⟩
    rcases List.mem_append.mp inside with ahead | later
    · exact decoded (List.mem_append_left after ahead)
    · rcases List.mem_cons.mp later with rfl | behind
      · exact ⟨rfl, alone⟩
      · exact decoded (List.mem_append_right before behind)
  rw [ofText?_eq object, ofText?_eq array, plain, decide_eq_true whole, decide_eq_true part,
    ofValue?, found]
  rfl

/-! ### From texts to values and back -/

theorem exists_members {parts : List MemberText} (aside : ∀ part ∈ parts, IsAside part) :
    ∃ members, List.Forall₂ MemberText.Reads parts members ∧ ∀ m ∈ members, PassedOver m := by
  induction parts with
  | nil => exact ⟨[], .nil, by simp⟩
  | cons part rest ih =>
    obtain ⟨⟨name, v, reads, other, plain⟩, others⟩ := List.forall_mem_cons.mp aside
    obtain ⟨members, behind, all⟩ := ih others
    have first : PassedOver (some name, v) := ⟨by simpa using other, rfl, plain⟩
    exact ⟨(some name, v) :: members, .cons reads behind, List.forall_mem_cons.mpr ⟨first, all⟩⟩

theorem forall_isAside {parts : List MemberText} {members : List (Option String × Value)}
    (reads : List.Forall₂ MemberText.Reads parts members) (passed : ∀ m ∈ members, PassedOver m) :
    ∀ part ∈ parts, IsAside part := by
  induction reads with
  | nil => simp
  | @cons part member parts members first _ ih =>
    obtain ⟨⟨other, named, plain⟩, others⟩ := List.forall_mem_cons.mp passed
    obtain ⟨key, v⟩ := member
    obtain ⟨name, rfl⟩ := Option.isSome_iff_exists.mp named
    have aside : IsAside part := ⟨name, v, first, fun same => other (congrArg some same), plain⟩
    exact List.forall_mem_cons.mpr ⟨aside, ih others⟩

theorem ofText?_of_isPage {page list : String} (paged : IsPage page list) (array : IsArray list)
    (shallow : IsShallow page) : ofText? page = ofText? list := by
  obtain ⟨parts, key, value, parts', object, named, padded, aside⟩ := paged
  obtain ⟨items, array⟩ := array
  obtain ⟨before, first, ahead⟩ :=
    exists_members fun part inside => aside part (List.mem_append_left parts' inside)
  obtain ⟨after, last, behind⟩ :=
    exists_members fun part inside => aside part (List.mem_append_right parts inside)
  have read : Json.read? page =
      some (.object (before ++ (some "results", .array items) :: after)) := by
    rw [Json.read?_eq_object_iff (by simp)]
    have results : MemberText.Reads ⟨key, value⟩ (some "results", .array items) :=
      ⟨named, Json.read?_of_isPadded padded array⟩
    exact ⟨_, object, List.rel_append first (.cons results last)⟩
  exact ofText?_of_object read array shallow (List.forall_mem_append.mpr ⟨ahead, behind⟩)

theorem exists_isPage {text : String} {before after : List (Option String × Value)}
    {items : List Value}
    (read : Json.read? text = some (.object (before ++ (some "results", .array items) :: after)))
    (passed : ∀ m ∈ before ++ after, PassedOver m) : ∃ list, IsArray list ∧ IsPage text list := by
  rw [Json.read?_eq_object_iff (by simp)] at read
  obtain ⟨parts, object, reads⟩ := read
  -- The texts are cut where the values are: ahead of, at and behind the member `results`.
  have first := List.forall₂_take_append _ _ _ reads
  obtain ⟨part, parts', named, last, behind⟩ :=
    List.forall₂_cons_right_iff.mp (List.forall₂_drop_append _ _ _ reads)
  have cut := List.take_append_drop before.length parts
  rw [behind] at cut
  rw [← cut] at object
  refine ⟨part.value, ⟨items, named.value⟩, _, part.key, part.value, parts', object, named.key,
    ⟨[], [], by simp, by simp⟩, ?_⟩
  refine List.forall_mem_append.mpr ⟨forall_isAside first fun m ahead => ?_,
    forall_isAside last fun m later => ?_⟩
  · exact passed m (List.mem_append_left after ahead)
  · exact passed m (List.mem_append_right before later)

theorem isArray_or_exists_isPage {text : String} (accepted : (ofText? text).isSome = true) :
    IsArray text ∨ ∃ list, IsArray list ∧ IsPage text list := by
  obtain ⟨records, decoded⟩ := Option.isSome_iff_exists.mp accepted
  obtain ⟨v, read, decoded⟩ := Option.bind_eq_some_iff.mp decoded
  rw [Option.ite_none_right_eq_some, Bool.and_eq_true] at decoded
  obtain ⟨⟨plain, _⟩, decoded⟩ := decoded
  obtain ⟨items, found, _⟩ := Option.bind_eq_some_iff.mp decoded
  rcases entries?_eq_some_iff.mp found with rfl | ⟨before, after, rfl, others⟩
  · exact .inl ⟨items, read⟩
  · refine .inr (exists_isPage read fun m inside => ?_)
    have listed : m ∈ before ++ (some "results", .array items) :: after :=
      (List.mem_append.mp inside).elim (List.mem_append_left _) fun behind =>
        List.mem_append_right before (List.mem_cons_of_mem _ behind)
    obtain ⟨named, shown⟩ := Value.isPlain_object_iff.mp plain m listed
    exact ⟨others m inside, named, shown⟩

theorem mapM_eq_some_iff {items : List Value} {records : List Alpha} :
    items.mapM Alpha.ofValue? = some records ↔
      List.Forall₂ (fun item a => Alpha.ofValue? item = some a) items records := by
  induction items generalizing records with
  | nil => cases records <;> simp
  | cons item rest ih =>
    simp only [List.mapM_cons, List.forall₂_cons_left_iff, ← ih]
    cases Alpha.ofValue? item <;> cases rest.mapM Alpha.ofValue? <;> simp [eq_comm]

/-- An array that can be decoded lists one alpha for each item, and nothing if an item is none. -/
theorem ofText?_of_array {list : String} {items : List Value}
    (array : Json.read? list = some (.array items)) (plain : (Value.array items).isPlain = true)
    (shallow : IsShallow list) {records : List Alpha} :
    ofText? list = some records ↔
      List.Forall₂ (fun item a => Alpha.ofValue? item = some a) items records := by
  rw [ofText?_eq array, plain, decide_eq_true (shallow _ array), ← mapM_eq_some_iff]
  rfl

/-- A page is read as the array in it is read by itself, wherever the member `results` stands, and
no text is accepted that is neither an array nor a page around one. What comes out of an array is
one alpha for each item. -/
theorem ofText?_forms :
    (∀ page list, IsPage page list → IsArray list → IsShallow page →
        ofText? page = ofText? list) ∧
      (∀ text, (ofText? text).isSome = true →
        IsArray text ∨ ∃ list, IsArray list ∧ IsPage text list) ∧
      ∀ list items, Json.read? list = some (.array items) → (Value.array items).isPlain = true →
        IsShallow list → ∀ records, ofText? list = some records ↔
          List.Forall₂ (fun item a => Alpha.ofValue? item = some a) items records :=
  ⟨fun _ _ => ofText?_of_isPage, fun _ => isArray_or_exists_isPage,
    fun _ _ array plain shallow _ => ofText?_of_array array plain shallow⟩

/-- The key `results` is written with an escape, and one record as an array. -/
theorem ofText?_forms_escaped :
    let list := "[\x7b\"id\":\"A\",\"regular\":\x7b\"code\":\"x\"\x7d\x7d,[\"B\",null]]"
    let page := "\x7b\"count\": 2, \"\\u0072esults\": " ++ list ++ ", \"next\": null\x7d\n"
    IsPage page list ∧ IsArray list ∧ IsShallow page ∧
      ofText? page = some [⟨"A", none, some ⟨"x", none⟩⟩, ⟨"B", none, none⟩] := by
  intro list page
  let items : List Value :=
    [.record [("id", .text "A"), ("regular", .record [("code", .text "x")])],
      .array [.text "B", .null]]
  -- The array is what its value is printed as; the page is read by its parts.
  have printed : list = (Value.array items).compact := by decide +kernel
  have array : Json.read? list = some (.array items) := by
    rw [printed]
    exact Json.read?_compact (by decide)
  have padded : Json.IsPadded (" " ++ list).toList list.toList :=
    ⟨[' '], [], by simp [Json.isSpace], by simp⟩
  have object : Json.IsObject page
      [⟨"\"count\"", " 2"⟩, ⟨" \"\\u0072esults\"", " " ++ list⟩, ⟨" \"next\"", " null"⟩] :=
    ⟨[], ['\n'], by simp [Json.isSpace], by decide +kernel⟩
  let two : Value := .number ⟨false, ['2'], [], 0⟩
  have count : MemberText.Reads ⟨"\"count\"", " 2"⟩ (some "count", two) := ⟨rfl, rfl⟩
  have named : Json.read? " \"\\u0072esults\"" = some (.text "results") := by
    rw [Json.read?_eq_some_iff]
    rfl
  have results : MemberText.Reads ⟨" \"\\u0072esults\"", " " ++ list⟩
      (some "results", .array items) :=
    ⟨named, Json.read?_of_isPadded padded array⟩
  have next : MemberText.Reads ⟨" \"next\"", " null"⟩ (some "next", .null) := ⟨rfl, rfl⟩
  have aside : IsAside ⟨"\"count\"", " 2"⟩ ∧ IsAside ⟨" \"next\"", " null"⟩ :=
    ⟨⟨_, _, count, by decide, by decide⟩, ⟨_, _, next, by decide, rfl⟩⟩
  have paged : IsPage page list :=
    ⟨[_], _, _, [_], object, results.key, padded, by simpa using aside⟩
  have read : Json.read? page = some (.object
      [(some "count", two), (some "results", .array items), (some "next", .null)]) :=
    (Json.read?_eq_object_iff (by simp)).mpr
      ⟨_, object, .cons count (.cons results (.cons next .nil))⟩
  have shallow : IsShallow page := by
    intro v found
    cases read.symm.trans found
    decide
  have shallowList : IsShallow list := by
    intro v found
    cases array.symm.trans found
    decide
  obtain ⟨same, _, listed⟩ := ofText?_forms
  refine ⟨paged, ⟨_, array⟩, shallow, (same page list paged ⟨_, array⟩ shallow).trans ?_⟩
  exact (listed list items array (by decide) shallowList _).mpr (.cons rfl (.cons rfl .nil))

end AlphaListing

end FormulaFields
