import Std.Data.ExtTreeMap
import Std.Data.ExtTreeSet

/-!
Sets of names and maps from names, listed in increasing order by code point. Two sets with the same
members are equal, and so are two maps with the same entries, however they were built.
-/
namespace FormulaFields

abbrev NameSet := Std.ExtTreeSet String

abbrev NameMap (Value : Type) := Std.ExtTreeMap String Value

namespace NameMap

variable {Value : Type}

/-- Of entries inserted in a row the last one with a name counts, and what none of them names stays
as it was. -/
theorem getElem?_foldl_insert (entries : List (String × Value)) (map : NameMap Value)
    (name : String) :
    (entries.foldl (fun map entry => map.insert entry.1 entry.2) map)[name]? =
      (entries.reverse.lookup name).or map[name]? := by
  induction entries generalizing map with
  | nil => rfl
  | cons entry rest ih =>
    obtain ⟨key, value⟩ := entry
    rw [List.foldl_cons, ih, List.reverse_cons, List.lookup_append, Option.or_assoc,
      List.lookup_cons, Std.ExtTreeMap.getElem?_insert]
    by_cases same : key = name
    · simp [same]
    · have other : (name == key) = false := beq_false_of_ne (Ne.symm same)
      simp [same, other]

theorem foldl_insert_eq_insertMany (entries : List (String × Value)) (map : NameMap Value) :
    entries.foldl (fun map entry => map.insert entry.1 entry.2) map = map.insertMany entries := by
  induction entries generalizing map with
  | nil => simp
  | cons entry rest ih => rw [List.foldl_cons, ih, Std.ExtTreeMap.insertMany_cons]

/-- Of two entries with one name the later counts. -/
theorem getElem?_ofList (entries : List (String × Value)) (name : String) :
    (Std.ExtTreeMap.ofList entries : NameMap Value)[name]? = entries.reverse.lookup name := by
  rw [Std.ExtTreeMap.ofList_eq_insertMany_empty, ← foldl_insert_eq_insertMany,
    getElem?_foldl_insert]
  simp

/-- A map is the list of its entries. -/
theorem lookup_reverse_toList (map : NameMap Value) (name : String) :
    map.toList.reverse.lookup name = map[name]? := by
  have distinct := map.distinct_keys_toList
  cases found : map[name]? with
  | some value =>
    have member := Std.ExtTreeMap.mem_toList_iff_getElem?_eq_some.mpr found
    rw [← getElem?_ofList]
    exact Std.ExtTreeMap.getElem?_ofList_of_mem Std.ReflCmp.compare_self distinct member
  | none =>
    rw [List.lookup_eq_none_iff]
    rintro ⟨other, value⟩ member
    apply bne_iff_ne.mpr
    rintro rfl
    rw [List.mem_reverse, Std.ExtTreeMap.mem_toList_iff_getElem?_eq_some, found] at member
    cases member

/-- Inserting all entries of one map into another. -/
theorem getElem?_foldl_insert_map (upper lower : NameMap Value) (name : String) :
    (upper.foldl (fun map name value => map.insert name value) lower)[name]? =
      upper[name]?.or lower[name]? := by
  rw [Std.ExtTreeMap.foldl_eq_foldl_toList, getElem?_foldl_insert, lookup_reverse_toList]

end NameMap

end FormulaFields
