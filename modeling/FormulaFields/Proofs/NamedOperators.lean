import FormulaFields.Proofs.RuleLayers
import Mathlib.Order.Bounds.Basic

/-!
Which lists of operators are accepted as a catalog, and what a catalog knows of its operators. A
place in the list offends when the name there is blank or stands at an earlier place. A list without
such a place is accepted as it is, and every name in it then leads to one operator; a list with one
is refused for the first of them. A table of the places of all names, filled while the list is
checked, comes to the same. Main statement: `Catalog.answers_of_ofList`.
-/
namespace FormulaFields

/-- Some character of the name is not blank. -/
def ShowsInk (name : String) : Prop := ∃ c ∈ name.toList, Text.isBlank c = false

theorem isAllBlank_eq_false_iff {name : String} : Text.isAllBlank name = false ↔ ShowsInk name := by
  simp [Text.isAllBlank, ShowsInk]

namespace Catalog

/-! ### Places that offend -/

/-- The name at a place is blank or stands at an earlier place, so no catalog has it there. -/
def Offends (operators : List Operator) (index : Nat) : Prop :=
  ∃ op, operators[index]? = some op ∧
    (¬ ShowsInk op.name ∨ ∃ earlier < index, operators[earlier]?.map (·.name) = some op.name)

/-- The fault of the first place that offends. A name that is blank is not looked for before it. -/
inductive FirstOffence (operators : List Operator) : CatalogFault → Prop where
  | blankName {index : Nat} {op : Operator} (first : IsLeast {i | Offends operators i} index)
      (found : operators[index]? = some op) (blank : ¬ ShowsInk op.name) :
      FirstOffence operators (.blankName index)
  | duplicateName {index earlier : Nat} {op : Operator}
      (first : IsLeast {i | Offends operators i} index) (found : operators[index]? = some op)
      (shown : ShowsInk op.name) (before : earlier < index)
      (same : operators[earlier]?.map (·.name) = some op.name) :
      FirstOffence operators (.duplicateName op.name)

/-- What stands before a place is sound when nothing there offends. -/
theorem sound_take_iff {operators : List Operator} {index : Nat} :
    Sound (operators.take index) ↔ ∀ earlier < index, ¬ Offends operators earlier := by
  constructor
  · rintro sound earlier before ⟨op, found, blank | ⟨first, ahead, same⟩⟩
    · have member : op ∈ operators.take index :=
        List.mem_of_getElem? ((List.getElem?_take_of_lt before).trans found)
      exact blank (isAllBlank_eq_false_iff.mp (sound.shown op member))
    · -- One name at two places.
      have second : ((operators.take index).map (·.name))[earlier]? = some op.name := by
        rw [List.getElem?_map, List.getElem?_take_of_lt before, found]
        rfl
      have twice : ((operators.take index).map (·.name))[first]? =
          ((operators.take index).map (·.name))[earlier]? := by
        rw [second, List.getElem?_map, List.getElem?_take_of_lt (ahead.trans before), same]
      have within := (List.getElem?_eq_some_iff.mp (twice.trans second)).1
      exact ahead.ne ((List.getElem?_inj within sound.distinct).mp twice)
  · intro clear
    constructor
    · intro op member
      obtain ⟨place, found⟩ := List.mem_iff_getElem?.mp member
      rw [List.getElem?_take, Option.ite_none_right_eq_some] at found
      rw [isAllBlank_eq_false_iff]
      by_contra blank
      exact clear place found.1 ⟨op, found.2, Or.inl blank⟩
    · rw [List.nodup_iff_getElem?_ne_getElem?]
      intro first second ahead within twice
      rw [List.length_map, List.length_take] at within
      have before : second < index := by omega
      have found : operators[second]? = some operators[second] := List.getElem?_eq_getElem _
      refine clear second before ⟨_, found, Or.inr ⟨first, ahead, ?_⟩⟩
      rw [List.getElem?_map, List.getElem?_map, List.getElem?_take_of_lt (ahead.trans before),
        List.getElem?_take_of_lt before, found] at twice
      exact twice

theorem isLeast_offends_iff {operators : List Operator} {index : Nat} :
    IsLeast {place | Offends operators place} index ↔
      Offends operators index ∧ Sound (operators.take index) := by
  rw [sound_take_iff]
  constructor
  · rintro ⟨offends, first⟩
    exact ⟨offends, fun earlier ahead other => (first other).not_gt ahead⟩
  · rintro ⟨offends, clear⟩
    exact ⟨offends, fun place other => not_lt.mp fun ahead => clear place ahead other⟩

private theorem firstOffence_of_refuses {operators : List Operator} {fault : CatalogFault}
    (refused : Refuses operators fault) : FirstOffence operators fault := by
  cases refused with
  | @blankName before rest op split sound blank =>
    have found : operators[before.length]? = some op := by simp [split]
    have whole : operators.take before.length = before := by simp [split]
    have unseen : ¬ ShowsInk op.name := by
      rw [← isAllBlank_eq_false_iff, blank]
      exact nofun
    rw [← whole] at sound
    exact .blankName (isLeast_offends_iff.mpr ⟨⟨op, found, Or.inl unseen⟩, sound⟩) found unseen
  | @duplicateName before rest op split sound shown again =>
    have found : operators[before.length]? = some op := by simp [split]
    have whole : operators.take before.length = before := by simp [split]
    obtain ⟨earlier, same⟩ := List.mem_iff_getElem?.mp again
    have ahead := (List.getElem?_eq_some_iff.mp same).1
    rw [List.length_map] at ahead
    rw [← whole] at sound
    rw [← whole, List.getElem?_map, List.getElem?_take_of_lt ahead] at same
    exact .duplicateName
      (isLeast_offends_iff.mpr ⟨⟨op, found, Or.inr ⟨earlier, ahead, same⟩⟩, sound⟩) found
      (isAllBlank_eq_false_iff.mp shown) ahead same

private theorem refuses_of_firstOffence {operators : List Operator} {fault : CatalogFault}
    (offends : FirstOffence operators fault) : Refuses operators fault := by
  have split {index : Nat} {op : Operator} (found : operators[index]? = some op) :
      operators = operators.take index ++ op :: operators.drop (index + 1) := by
    obtain ⟨within, rfl⟩ := List.getElem?_eq_some_iff.mp found
    rw [List.getElem_cons_drop, List.take_append_drop]
  cases offends with
  | @blankName index op first found blank =>
    have unseen : Text.isAllBlank op.name = true := by
      rwa [← isAllBlank_eq_false_iff, Bool.not_eq_false] at blank
    have within := (List.getElem?_eq_some_iff.mp found).1
    have refused := Refuses.blankName (split found) (isLeast_offends_iff.mp first).2 unseen
    rwa [List.length_take, Nat.min_eq_left within.le] at refused
  | @duplicateName index earlier op first found shown before same =>
    refine .duplicateName (split found) (isLeast_offends_iff.mp first).2
      (isAllBlank_eq_false_iff.mpr shown) (List.mem_iff_getElem?.mpr ⟨earlier, ?_⟩)
    rw [List.getElem?_map, List.getElem?_take_of_lt before, same]

/-- A list is refused for its first place that offends. -/
theorem refuses_iff_firstOffence {operators : List Operator} {fault : CatalogFault} :
    Refuses operators fault ↔ FirstOffence operators fault :=
  ⟨firstOffence_of_refuses, refuses_of_firstOffence⟩

/-! ### A table of places -/

/-- The check of a list that also notes where each name stands; `table` holds the names before the
list, and `index` is the place of its head. -/
def tableAfter (table : NameMap Nat) (index : Nat) :
    List Operator → Except CatalogFault (NameMap Nat)
  | [] => .ok table
  | op :: rest =>
    if Text.isAllBlank op.name then .error (.blankName index)
    else if table.contains op.name then .error (.duplicateName op.name)
    else tableAfter (table.insert op.name index) (index + 1) rest

/-- The places of all names, if the list is accepted. -/
def table (operators : List Operator) : Except CatalogFault (NameMap Nat) :=
  tableAfter ∅ 0 operators

theorem tableAfter_eq {table : NameMap Nat} {seen : NameSet}
    (same : ∀ name, table.contains name = seen.contains name) (index : Nat)
    (operators : List Operator) :
    tableAfter table index operators =
      match faultAfter? seen index operators with
      | some fault => .error fault
      | none => .ok ((operators.zipIdx index).foldl
          (fun table entry => table.insert entry.1.name entry.2) table) := by
  induction operators generalizing table seen index with
  | nil => rfl
  | cons op rest ih =>
    rw [tableAfter, faultAfter?, same op.name]
    split
    · rfl
    · split
      · rfl
      · exact ih (fun name => by
          rw [Std.ExtTreeMap.contains_insert, Std.ExtTreeSet.contains_insert, same]) _

theorem table_eq (operators : List Operator) :
    table operators =
      match fault? operators with
      | some fault => .error fault
      | none => .ok (operators.zipIdx.foldl
          (fun table entry => table.insert entry.1.name entry.2) ∅) :=
  tableAfter_eq (fun name => by simp) 0 operators

private theorem map_fst_zipIdx (operators : List Operator) :
    (operators.zipIdx.map fun entry => (entry.1.name, entry.2)).map (·.1) =
      operators.map (·.name) := by
  conv_rhs => rw [← List.zipIdx_map_fst 0 operators]
  rw [List.map_map, List.map_map]
  rfl

/-- In the table of a list that is accepted, each name stands with the one place that has it. -/
theorem getElem?_table {operators : List Operator} {places : NameMap Nat}
    (accepted : table operators = .ok places) (name : String) (index : Nat) :
    places[name]? = some index ↔ operators[index]?.map (·.name) = some name := by
  rw [table_eq] at accepted
  split at accepted
  · cases accepted
  next clear =>
    have entries : places =
        .ofList (operators.zipIdx.map fun entry => (entry.1.name, entry.2)) := by
      rw [Std.ExtTreeMap.ofList_eq_insertMany_empty, ← NameMap.foldl_insert_eq_insertMany,
        List.foldl_map]
      exact (Except.ok.inj accepted).symm
    have distinct := (fault?_eq_none_iff.mp clear).distinct
    rw [← map_fst_zipIdx, List.Nodup, List.pairwise_map] at distinct
    have held {index : Nat} (named : operators[index]?.map (·.name) = some name) :
        places[name]? = some index := by
      obtain ⟨op, found, rfl⟩ := Option.map_eq_some_iff.mp named
      rw [entries]
      exact Std.ExtTreeMap.getElem?_ofList_of_mem Std.ReflCmp.compare_self
        (distinct.imp fun apart => by simpa using apart)
        (List.mem_map.mpr ⟨(op, index), List.mk_mem_zipIdx_iff_getElem?.mpr found, rfl⟩)
    refine ⟨fun found => ?_, held⟩
    -- A name in the table is in the list, and its place there is the one that the table has.
    have listed : name ∈ operators.map (·.name) := by
      by_contra unlisted
      rw [entries, Std.ExtTreeMap.getElem?_ofList_of_contains_eq_false] at found
      · cases found
      · rwa [map_fst_zipIdx, ← Bool.not_eq_true, List.contains_iff_mem]
    obtain ⟨place, named⟩ := List.mem_iff_getElem?.mp listed
    rw [List.getElem?_map] at named
    rw [held named, Option.some.injEq] at found
    rwa [← found]

/-- Checking with a table refuses what checking refuses. -/
theorem table_eq_error_iff {operators : List Operator} {fault : CatalogFault} :
    table operators = .error fault ↔ ofList operators = .error fault := by
  rw [ofList_eq_error_iff, ← fault?_eq_some_iff, table_eq]
  cases fault? operators <;> simp

/-! ### Answers of a catalog -/

/-- What a catalog knows of the operators that it was made of. -/
structure Answers (operators : List Operator) (c : Catalog) : Prop where
  listed : c.operators = operators
  size : c.size = operators.length
  size_names : c.names.size = operators.length
  mem_names : ∀ name, name ∈ c.names ↔ ∃ op ∈ operators, op.name = name
  contains : ∀ name, c.contains name = true ↔ name ∈ c.names
  found : ∀ name op, c.get? name = some op ↔ op ∈ operators ∧ op.name = name
  absent : ∀ name, c.get? name = none ↔ name ∉ c.names
  /-- A table of places finds the same, and each name has one place in it. -/
  placed : ∃ places, table operators = .ok places ∧
    (∀ name, c.get? name = places[name]?.bind (operators[·]?)) ∧
    ∀ (name : String) (index : Nat), places[name]? = some index ↔
      operators[index]?.map (·.name) = some name

theorem mem_names_iff {c : Catalog} {name : String} :
    name ∈ c.names ↔ ∃ op ∈ c.operators, op.name = name := by
  rw [names, Std.ExtTreeSet.mem_ofList, List.contains_iff_mem, List.mem_map]

theorem size_names (c : Catalog) : c.names.size = c.operators.length := by
  have distinct := c.nodup_names
  rw [names, Std.ExtTreeSet.size_ofList, List.length_map]
  exact distinct.imp fun apart => by simpa using apart

theorem get?_eq_none_iff {c : Catalog} {name : String} : c.get? name = none ↔ name ∉ c.names := by
  rw [mem_names_iff, ← c.contains_iff, contains]
  cases c.get? name <;> simp

/-- The place of a name in the table leads to the operator of that name. -/
theorem exists_table (c : Catalog) : ∃ places, table c.operators = .ok places ∧
    ∀ name, c.get? name = places[name]?.bind (c.operators[·]?) := by
  cases accepted : table c.operators with
  | error fault =>
    rw [table_eq_error_iff, ofList_operators] at accepted
    cases accepted
  | ok places =>
    refine ⟨places, rfl, fun name => ?_⟩
    have stands := getElem?_table accepted name
    cases found : c.get? name with
    | some op =>
      obtain ⟨member, rfl⟩ := get?_eq_some_iff.mp found
      obtain ⟨index, here⟩ := List.mem_iff_getElem?.mp member
      rw [(stands index).mpr (by rw [here]; rfl), Option.bind_some, here]
    | none =>
      have unlisted := mt mem_names_iff.mpr (get?_eq_none_iff.mp found)
      cases placed : places[name]? with
      | none => rfl
      | some index =>
        obtain ⟨op, here, named⟩ := Option.map_eq_some_iff.mp ((stands index).mp placed)
        exact absurd ⟨op, List.mem_of_getElem? here, named⟩ unlisted

theorem answers (c : Catalog) : Answers c.operators c := by
  obtain ⟨places, accepted, found⟩ := c.exists_table
  exact {
    listed := rfl
    size := rfl
    size_names := c.size_names
    mem_names := fun name => mem_names_iff
    contains := fun name => (c.contains_iff name).trans mem_names_iff.symm
    found := fun name op => get?_eq_some_iff
    absent := fun name => get?_eq_none_iff
    placed := ⟨places, accepted, found, getElem?_table accepted⟩ }

theorem exists_ofList_iff {operators : List Operator} :
    (∃ c, ofList operators = .ok c) ↔ Sound operators := by
  rw [← fault?_eq_none_iff]
  constructor
  · rintro ⟨c, accepted⟩
    rw [← operators_of_ofList accepted]
    exact c.faultless
  · intro clear
    exact ⟨_, ofList_operators ⟨operators, clear⟩⟩

/-- Operators are a catalog when every name shows something and no name stands twice. A catalog
then answers for the operators it was made of, and other lists are refused for their first place
that offends. -/
theorem answers_of_ofList (operators : List Operator) :
    ((∃ c, ofList operators = .ok c) ↔
        (∀ op ∈ operators, ShowsInk op.name) ∧ (operators.map (·.name)).Nodup) ∧
      (∀ fault, ofList operators = .error fault ↔ FirstOffence operators fault) ∧
      ∀ c, ofList operators = .ok c → Answers operators c := by
  refine ⟨?_, fun fault => ?_, fun c accepted => ?_⟩
  · rw [exists_ofList_iff]
    simp only [← isAllBlank_eq_false_iff]
    exact ⟨fun sound => ⟨sound.shown, sound.distinct⟩, fun ⟨shown, distinct⟩ => ⟨shown, distinct⟩⟩
  · rw [ofList_eq_error_iff, refuses_iff_firstOffence]
  · rw [← operators_of_ofList accepted]
    exact c.answers

/-- Blanks make names differ, and of two places that offend the first one counts. -/
theorem answers_of_ofList_rank :
    let c : Catalog := ⟨[{ name := "rank" }, { name := " rank" }], rfl⟩
    let refused : List Operator := [{ name := "rank" }, { name := "rank" }, { name := "\u2003" }]
    ofList c.operators = .ok c ∧ c.get? " rank" = some { name := " rank" } ∧
      c.names.size = 2 ∧ FirstOffence refused (.duplicateName "rank") := by
  intro c refused
  have accepted := ofList_operators c
  have answers := (answers_of_ofList c.operators).2.2 c accepted
  refine ⟨accepted, (answers.found _ _).mpr ⟨by simp [c], rfl⟩, answers.size_names, ?_⟩
  exact ((answers_of_ofList refused).2.1 _).mp rfl

end Catalog

end FormulaFields
