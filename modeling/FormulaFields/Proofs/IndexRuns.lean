import FormulaFields.Usage.Index

/-!
What an index knows after any sequence of steps. A step makes the index anew, from formulas, from
alphas or from sets of fields, or it changes what one id uses. The last step that says something of
an id decides what the index holds for it (`get?_run`), and a look-up finds exactly the ids that
hold one of the fields.
-/
namespace FormulaFields

namespace Alpha

/-- The alpha belongs in an index: it has code, and its type is `regular` in letters of either case
or not stated. -/
def Indexable (a : Alpha) : Prop :=
  a.code.isSome = true ∧
    ∀ kind ∈ a.kind, kind.toList.map Char.toUpper = regularKind.toList.map Char.toUpper

instance : DecidablePred Indexable := fun a =>
  inferInstanceAs (Decidable (a.code.isSome = true ∧ ∀ kind ∈ a.kind, _))

theorem isRegular_iff (a : Alpha) : a.isRegular = true ↔
    ∀ kind ∈ a.kind, kind.toList.map Char.toUpper = regularKind.toList.map Char.toUpper := by
  have upper : regularKind.toList.map Char.toUpper = regularKind.toList := by decide
  rw [upper]
  cases kind : a.kind <;> simp [isRegular, kind]

end Alpha

namespace UsageIndex

/-! ### Entries made in a row -/

theorem get?_empty (id : String) : (∅ : UsageIndex).get? id = none :=
  Std.ExtTreeMap.getElem?_empty

theorem get?_insert (index : UsageIndex) (id other : String) (fields : NameSet) :
    (index.insert id fields).get? other = if id = other then some fields else index.get? other := by
  simp [get?, insert, Std.ExtTreeMap.getElem?_insert]

theorem get?_ofList (entries : List (String × NameSet)) (id : String) :
    (ofList entries).get? id = entries.reverse.lookup id :=
  NameMap.getElem?_ofList entries id

/-- Inserting into an index is inserting into the map of its entries. -/
private theorem entries_foldl_insert (entries : List (String × NameSet)) (index : UsageIndex) :
    (entries.foldl (fun index entry => index.insert entry.1 entry.2) index).entries =
      entries.foldl (fun map entry => map.insert entry.1 entry.2) index.entries := by
  induction entries generalizing index with
  | nil => rfl
  | cons entry rest ih => exact ih (index.insert entry.1 entry.2)

private theorem lookup_map_fields (v : Vocabulary) (formulas : List (String × String))
    (id : String) :
    (formulas.map fun entry => (entry.1, v.fields entry.2)).lookup id =
      (formulas.lookup id).map v.fields := by
  induction formulas with
  | nil => rfl
  | cons entry rest ih =>
    rw [List.map_cons, List.lookup_cons, List.lookup_cons, ih]
    split <;> rfl

/-- Of formulas with one id the last counts. -/
theorem get?_ofFormulas (v : Vocabulary) (formulas : List (String × String)) (id : String) :
    (ofFormulas v formulas).get? id = (formulas.reverse.lookup id).map v.fields := by
  have searched : ofFormulas v formulas =
      (formulas.map fun entry => (entry.1, v.fields entry.2)).foldl
        (fun index entry => index.insert entry.1 entry.2) ∅ := by
    rw [List.foldl_map]
    rfl
  rw [get?, searched, entries_foldl_insert, NameMap.getElem?_foldl_insert, ← List.map_reverse,
    lookup_map_fields]
  exact Option.or_none

/-! ### Searching several formulas at a time -/

/-- The results stand where the members they belong to stand. -/
def Spread.KeepsOrder {Item Result : Type} (spread : Spread Item Result) : Prop :=
  ∀ (f : Item → Result) (items : List Item) (i : Nat), (spread f items)[i]? = items[i]?.map f

theorem keepsOrder_map {Item Result : Type} :
    Spread.KeepsOrder (List.map : Spread Item Result) :=
  fun _ _ _ => List.getElem?_map

/-- How the formulas are spread does not matter as long as their order is kept. -/
theorem ofFormulasBy_eq {spread : Spread (String × String) (String × NameSet)}
    (ordered : Spread.KeepsOrder spread) (v : Vocabulary) (formulas : List (String × String)) :
    ofFormulasBy spread v formulas = ofFormulas v formulas := by
  have inTurn (f : String × String → String × NameSet) : spread f formulas = formulas.map f := by
    apply List.ext_getElem?
    intro i
    rw [ordered f formulas i, List.getElem?_map]
  rw [ofFormulasBy, inTurn, List.foldl_map]
  rfl

/-! ### Indexes of alphas -/

/-- The formula of the last alpha with an id that belongs in an index. -/
def lastFormula? (alphas : List Alpha) (id : String) : Option String :=
  (alphas.reverse.find? fun a => a.id = id ∧ a.Indexable).bind (·.formula?)

private theorem indexed?_of_indexable {a : Alpha} (indexable : a.Indexable) :
    indexed? a = a.formula?.map (a.id, ·) := by
  rw [indexed?, if_pos (a.isRegular_iff.mpr indexable.2)]

private theorem indexed?_eq_none {a : Alpha} (other : ¬ a.Indexable) : indexed? a = none := by
  rw [indexed?]
  split
  next regular =>
    cases code : a.code with
    | none => simp [Alpha.formula?, code]
    | some _ => exact absurd ⟨by simp [code], a.isRegular_iff.mp regular⟩ other
  · rfl

private theorem lookup_filterMap_indexed? (alphas : List Alpha) (id : String) :
    (alphas.filterMap indexed?).lookup id =
      (alphas.find? fun a => a.id = id ∧ a.Indexable).bind (·.formula?) := by
  induction alphas with
  | nil => rfl
  | cons a rest ih =>
    by_cases indexable : a.Indexable
    · obtain ⟨code, stated⟩ := Option.isSome_iff_exists.mp indexable.1
      have entry : indexed? a = some (a.id, code.formula) := by
        rw [indexed?_of_indexable indexable, Alpha.formula?, stated]
        rfl
      rw [List.filterMap_cons_some entry, List.lookup_cons, ih, List.find?_cons]
      by_cases named : a.id = id
      · simp [named, indexable, Alpha.formula?, stated]
      · have other : (id == a.id) = false := beq_false_of_ne (Ne.symm named)
        simp [named, other]
    · rw [List.filterMap_cons_none (indexed?_eq_none indexable), ih]
      simp [indexable]

theorem get?_ofAlphasBy {spread : Spread (String × String) (String × NameSet)}
    (ordered : Spread.KeepsOrder spread) (v : Vocabulary) (alphas : List Alpha) (id : String) :
    (ofAlphasBy spread v alphas).get? id = (lastFormula? alphas id).map v.fields := by
  rw [ofAlphasBy, ofFormulasBy_eq ordered, get?_ofFormulas, ← List.filterMap_reverse,
    lookup_filterMap_indexed?]
  rfl

theorem get?_ofAlphas (v : Vocabulary) (alphas : List Alpha) (id : String) :
    (ofAlphas v alphas).get? id = (lastFormula? alphas id).map v.fields :=
  get?_ofAlphasBy keepsOrder_map v alphas id

/-! ### Looking up fields -/

theorem mem_toList_iff (index : UsageIndex) (id : String) (fields : NameSet) :
    (id, fields) ∈ index.toList ↔ index.get? id = some fields :=
  Std.ExtTreeMap.mem_toList_iff_getElem?_eq_some

/-- The ids are listed once each, in increasing order. -/
theorem pairwise_toList (index : UsageIndex) : (index.toList.map (·.1)).Pairwise (· < ·) := by
  rw [List.pairwise_map]
  refine List.Pairwise.imp ?_ (Std.ExtTreeMap.ordered_keys_toList (t := index.entries))
  intro first second less
  exact compareOfLessAndEq_eq_lt.mp less

/-- A look-up neither misses an id nor invents one. -/
theorem mem_lookup_iff (index : UsageIndex) (fields : List String) (id : String) :
    id ∈ index.lookup fields ↔
      ∃ used, index.get? id = some used ∧ ∃ name ∈ fields, name ∈ used := by
  simp only [lookup, Std.ExtTreeSet.mem_ofList, List.contains_iff_mem, List.mem_map,
    List.mem_filter, List.any_eq_true, Prod.exists]
  constructor
  · rintro ⟨_, used, ⟨entry, name, asked, uses⟩, rfl⟩
    exact ⟨used, (mem_toList_iff index _ used).mp entry, name, asked, uses⟩
  · rintro ⟨used, held, name, asked, uses⟩
    exact ⟨id, used, ⟨(mem_toList_iff index id used).mpr held, name, asked, uses⟩, rfl⟩

/-! ### Steps and runs -/

/-- One step in the life of an index. -/
inductive Step where
  | ofFormulas (formulas : List (String × String))
  /-- As before, with the formulas spread over several searches. -/
  | ofFormulasBy (formulas : List (String × String))
  | ofAlphas (alphas : List Alpha)
  | ofList (entries : List (String × NameSet))
  | insert (id : String) (fields : NameSet)

namespace Step

variable (spread : Spread (String × String) (String × NameSet)) (v : Vocabulary)

def apply (index : UsageIndex) : Step → UsageIndex
  | .ofFormulas formulas => UsageIndex.ofFormulas v formulas
  | .ofFormulasBy formulas => UsageIndex.ofFormulasBy spread v formulas
  | .ofAlphas alphas => UsageIndex.ofAlphasBy spread v alphas
  | .ofList entries => UsageIndex.ofList entries
  | .insert id fields => index.insert id fields

/-- What a step says of an id: nothing, or that it uses some fields, or that it has no entry. A step
that makes the index anew says something of every id. -/
def verdict? (id : String) : Step → Option (Option NameSet)
  | .ofFormulas formulas => some ((formulas.reverse.lookup id).map v.fields)
  | .ofFormulasBy formulas => some ((formulas.reverse.lookup id).map v.fields)
  | .ofAlphas alphas => some ((lastFormula? alphas id).map v.fields)
  | .ofList entries => some (entries.reverse.lookup id)
  | .insert other fields => if other = id then some (some fields) else none

variable {spread} in
/-- A step does to an id what it says of it, and no more. -/
theorem get?_apply (ordered : Spread.KeepsOrder spread) (index : UsageIndex) (step : Step)
    (id : String) :
    (step.apply spread v index).get? id = (step.verdict? v id).getD (index.get? id) := by
  cases step with
  | ofFormulas formulas => exact get?_ofFormulas v formulas id
  | ofFormulasBy formulas =>
    rw [apply, ofFormulasBy_eq ordered]
    exact get?_ofFormulas v formulas id
  | ofAlphas alphas => exact get?_ofAlphasBy ordered v alphas id
  | ofList entries => exact get?_ofList entries id
  | insert other fields =>
    rw [apply, get?_insert, verdict?]
    split <;> rfl

end Step

variable (spread : Spread (String × String) (String × NameSet)) (v : Vocabulary)

def runFrom (index : UsageIndex) (steps : List Step) : UsageIndex :=
  steps.foldl (fun index step => step.apply spread v index) index

/-- The index after some steps that start without entries. -/
def run (steps : List Step) : UsageIndex := runFrom spread v ∅ steps

variable {spread}

/-- The last step that says something of an id decides, and without one the index is as before. -/
theorem get?_runFrom (ordered : Spread.KeepsOrder spread) (index : UsageIndex) (steps : List Step)
    (id : String) :
    (runFrom spread v index steps).get? id =
      (steps.reverse.findSome? (·.verdict? v id)).getD (index.get? id) := by
  induction steps generalizing index with
  | nil => rfl
  | cons step rest ih =>
    have later := ih (step.apply spread v index)
    rw [Step.get?_apply v ordered] at later
    rw [runFrom, List.foldl_cons, List.reverse_cons, List.findSome?_append]
    refine later.trans ?_
    cases rest.reverse.findSome? (·.verdict? v id) with
    | some _ => rfl
    | none => cases said : step.verdict? v id <;> simp [said]

theorem get?_run (ordered : Spread.KeepsOrder spread) (steps : List Step) (id : String) :
    (run spread v steps).get? id = (steps.reverse.findSome? (·.verdict? v id)).getD none := by
  rw [run, get?_runFrom v ordered, get?_empty]

/-- After every run the index holds for each id what the last step that says something of it has
said; it lists the ids once each in increasing order, and a look-up finds exactly those that hold
one of the fields. How the formulas are spread over searches makes no difference. -/
theorem view_run (ordered : Spread.KeepsOrder spread) (steps : List Step) :
    (∀ id, (run spread v steps).get? id = (steps.reverse.findSome? (·.verdict? v id)).getD none) ∧
      (∀ formulas, ofFormulasBy spread v formulas = ofFormulas v formulas) ∧
      ((run spread v steps).toList.map (·.1)).Pairwise (· < ·) ∧
      (∀ id fields, (id, fields) ∈ (run spread v steps).toList ↔
        (run spread v steps).get? id = some fields) ∧
      ∀ fields id, id ∈ (run spread v steps).lookup fields ↔
        ∃ used, (run spread v steps).get? id = some used ∧ ∃ name ∈ fields, name ∈ used :=
  ⟨get?_run v ordered steps, ofFormulasBy_eq ordered v, pairwise_toList _, mem_toList_iff _,
    mem_lookup_iff _⟩

/-- Two searches, each with one half of the members. -/
def inHalves {Item Result : Type} : Spread Item Result := fun f items =>
  (items.take (items.length / 2)).map f ++ (items.drop (items.length / 2)).map f

theorem keepsOrder_inHalves {Item Result : Type} :
    Spread.KeepsOrder (inHalves : Spread Item Result) := by
  intro f items i
  rw [inHalves, ← List.map_append, List.take_append_drop, List.getElem?_map]

/-- Three formulas, of which the last replaces the first, and then other fields for one id. -/
def threeFormulas : List Step :=
  [.insert "C" ∅, .ofFormulasBy [("A", "close"), ("B", "open"), ("A", "volume")],
    .insert "B" (.ofList ["vwap"])]

/-- After these steps look-ups find the later formula and the other fields only. -/
theorem view_run_halves :
    Spread.KeepsOrder (inHalves : Spread (String × String) (String × NameSet)) ∧
      "A" ∈ (run inHalves ⟨∅, ∅, 50⟩ threeFormulas).lookup ["cap", "volume", "volume"] ∧
      "A" ∉ (run inHalves ⟨∅, ∅, 50⟩ threeFormulas).lookup ["close"] ∧
      "B" ∉ (run inHalves ⟨∅, ∅, 50⟩ threeFormulas).lookup ["open"] ∧
      (run inHalves ⟨∅, ∅, 50⟩ threeFormulas).get? "C" = none := by
  obtain ⟨held, _, _, _, found⟩ := view_run ⟨∅, ∅, 50⟩ keepsOrder_inHalves threeFormulas
  have later : (run inHalves ⟨∅, ∅, 50⟩ threeFormulas).get? "A" =
      some (Vocabulary.fields ⟨∅, ∅, 50⟩ "volume") := held "A"
  have other : (run inHalves ⟨∅, ∅, 50⟩ threeFormulas).get? "B" = some (.ofList ["vwap"]) :=
    held "B"
  have volume : "volume" ∈ Vocabulary.fields ⟨∅, ∅, 50⟩ "volume" := by decide +kernel
  have close : "close" ∉ Vocabulary.fields ⟨∅, ∅, 50⟩ "volume" := by decide +kernel
  refine ⟨keepsOrder_inHalves, (found _ _).mpr ⟨_, later, "volume", by simp, volume⟩, ?_, ?_,
    held "C"⟩
  · simp [found, later, close]
  · simp [found, other]

end UsageIndex

end FormulaFields
