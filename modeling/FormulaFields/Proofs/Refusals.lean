import FormulaFields.Operator.Listing
import FormulaFields.Settings.Document
import Mathlib.Data.List.Induction
import Mathlib.Data.String.Basic
import Mathlib.Tactic.Tauto

/-!
Why listings of operators and settings are refused. A listing is refused for its first operator
whose name is blank or was there before, and settings for a depth of zero or else for the first name
whose override has no positions. What is not refused is accepted as it was read. Main statements:
`Catalog.ofText_eq_error_iff` and `Settings.load_eq_error_iff`.
-/
namespace FormulaFields

/-! ### Catalogs -/

namespace Catalog

/-- The operators can be a catalog: every name shows a character, and no name comes twice. -/
structure Sound (operators : List Operator) : Prop where
  shown : ∀ op ∈ operators, Text.isAllBlank op.name = false
  distinct : (operators.map (·.name)).Nodup

/-- The fault of the first operator that a catalog cannot hold behind those before it. -/
inductive Refuses (operators : List Operator) : CatalogFault → Prop where
  | blankName {before rest : List Operator} {op : Operator}
      (split : operators = before ++ op :: rest) (sound : Sound before)
      (blank : Text.isAllBlank op.name = true) :
      Refuses operators (.blankName before.length)
  | duplicateName {before rest : List Operator} {op : Operator}
      (split : operators = before ++ op :: rest) (sound : Sound before)
      (shown : Text.isAllBlank op.name = false) (again : op.name ∈ before.map (·.name)) :
      Refuses operators (.duplicateName op.name)

theorem sound_append_singleton {before : List Operator} {op : Operator} (sound : Sound before)
    (shown : Text.isAllBlank op.name = false) (fresh : op.name ∉ before.map (·.name)) :
    Sound (before ++ [op]) where
  shown := by
    intro other member
    rcases List.mem_append.mp member with earlier | here
    · exact sound.shown other earlier
    · rwa [List.mem_singleton.mp here]
  distinct := by
    rw [List.map_append, List.map_singleton]
    refine List.nodup_append.mpr ⟨sound.distinct, List.pairwise_singleton _ _, ?_⟩
    rintro name earlier _ here rfl
    exact fresh (List.mem_singleton.mp here ▸ earlier)

theorem Refuses.append {operators more : List Operator} {fault : CatalogFault}
    (refused : Refuses operators fault) : Refuses (operators ++ more) fault := by
  cases refused with
  | blankName split sound blank =>
    exact .blankName (by rw [split, List.append_assoc]; rfl) sound blank
  | duplicateName split sound shown again =>
    exact .duplicateName (by rw [split, List.append_assoc]; rfl) sound shown again

/-- There is a first fault, or there is none. -/
theorem sound_or_refuses (operators : List Operator) :
    Sound operators ∨ ∃ fault, Refuses operators fault := by
  -- From the end: the first fault of a shorter list stays the first one.
  induction operators using List.reverseRecOn with
  | nil => exact Or.inl ⟨nofun, List.nodup_nil⟩
  | append_singleton before op ih =>
    rcases ih with sound | ⟨fault, refused⟩
    · cases shown : Text.isAllBlank op.name with
      | true => exact Or.inr ⟨_, .blankName rfl sound shown⟩
      | false =>
        by_cases again : op.name ∈ before.map (·.name)
        · exact Or.inr ⟨_, .duplicateName rfl sound shown again⟩
        · exact Or.inl (sound_append_singleton sound shown again)
    · exact Or.inr ⟨fault, refused.append⟩

/-- Sound operators are passed, and their names are remembered. -/
theorem faultAfter?_append {before : List Operator} (sound : Sound before) (seen : NameSet)
    (fresh : ∀ op ∈ before, op.name ∉ seen) (index : Nat) (rest : List Operator) :
    ∃ all : NameSet, (∀ name, name ∈ all ↔ name ∈ before.map (·.name) ∨ name ∈ seen) ∧
      faultAfter? seen index (before ++ rest) = faultAfter? all (index + before.length) rest := by
  induction before generalizing seen index with
  | nil => exact ⟨seen, by simp, rfl⟩
  | cons op later ih =>
    obtain ⟨shown, laterShown⟩ := List.forall_mem_cons.mp sound.shown
    obtain ⟨apart, distinct⟩ := List.nodup_cons.mp sound.distinct
    obtain ⟨unseen, laterFresh⟩ := List.forall_mem_cons.mp fresh
    have stillFresh : ∀ other ∈ later, other.name ∉ seen.insert op.name := by
      intro other member again
      rcases Std.ExtTreeSet.mem_insert.mp again with same | earlier
      · rw [Std.LawfulEqCmp.compare_eq_iff_eq] at same
        exact apart (List.mem_map.mpr ⟨other, member, same.symm⟩)
      · exact laterFresh other member earlier
    obtain ⟨all, known, passed⟩ := ih ⟨laterShown, distinct⟩ _ stillFresh (index + 1)
    refine ⟨all, fun name => ?_, ?_⟩
    · rw [known, Std.ExtTreeSet.mem_insert, Std.LawfulEqCmp.compare_eq_iff_eq, List.map_cons,
        List.mem_cons, eq_comm (a := name)]
      tauto
    · have absent : seen.contains op.name = false :=
        Bool.eq_false_iff.mpr fun here => unseen (Std.ExtTreeSet.mem_iff_contains.mpr here)
      rw [List.cons_append, faultAfter?, shown, absent, List.length_cons, Nat.add_comm later.length,
        ← Nat.add_assoc]
      exact passed

theorem fault?_eq_none_of_sound {operators : List Operator} (sound : Sound operators) :
    fault? operators = none := by
  obtain ⟨_, _, passed⟩ := faultAfter?_append sound ∅ (by simp) 0 []
  rw [List.append_nil] at passed
  exact passed

theorem fault?_eq_some_of_refuses {operators : List Operator} {fault : CatalogFault}
    (refused : Refuses operators fault) : fault? operators = some fault := by
  cases refused with
  | @blankName before rest op split sound blank =>
    obtain ⟨_, _, passed⟩ := faultAfter?_append sound ∅ (by simp) 0 (op :: rest)
    rw [fault?, split, passed, faultAfter?, if_pos blank, Nat.zero_add]
  | @duplicateName before rest op split sound shown again =>
    obtain ⟨all, known, passed⟩ := faultAfter?_append sound ∅ (by simp) 0 (op :: rest)
    have seen : all.contains op.name = true :=
      Std.ExtTreeSet.mem_iff_contains.mp ((known op.name).mpr (Or.inl again))
    rw [fault?, split, passed, faultAfter?, shown, if_neg Bool.false_ne_true, if_pos seen]

theorem fault?_eq_some_iff {operators : List Operator} {fault : CatalogFault} :
    fault? operators = some fault ↔ Refuses operators fault := by
  refine ⟨fun found => ?_, fault?_eq_some_of_refuses⟩
  rcases sound_or_refuses operators with sound | ⟨other, refused⟩
  · rw [fault?_eq_none_of_sound sound] at found
    cases found
  · rw [fault?_eq_some_of_refuses refused] at found
    cases found
    exact refused

theorem fault?_eq_none_iff {operators : List Operator} :
    fault? operators = none ↔ Sound operators := by
  refine ⟨fun clear => ?_, fault?_eq_none_of_sound⟩
  rcases sound_or_refuses operators with sound | ⟨other, refused⟩
  · exact sound
  · rw [fault?_eq_some_of_refuses refused] at clear
    cases clear

theorem operators_of_ofList {operators : List Operator} {c : Catalog}
    (accepted : ofList operators = .ok c) : c.operators = operators := by
  rw [ofList] at accepted
  split at accepted <;> cases accepted
  rfl

theorem ofList_operators (c : Catalog) : ofList c.operators = .ok c := by
  rw [ofList]
  split
  next fault found =>
    rw [c.faultless] at found
    cases found
  · rfl

theorem ofList_eq_error_iff {operators : List Operator} {fault : CatalogFault} :
    ofList operators = .error fault ↔ Refuses operators fault := by
  rw [← fault?_eq_some_iff, ofList]
  split
  next other found => rw [found, Except.error.injEq, Option.some.injEq]
  next clear => simp [clear]

/-- Why a text is no catalog. -/
inductive Refused (text : String) : CatalogFault → Prop where
  | malformed (undecoded : operatorsOfText? text = none) : Refused text .malformed
  | unsound {operators : List Operator} {fault : CatalogFault}
      (decoded : operatorsOfText? text = some operators) (refused : Refuses operators fault) :
      Refused text fault

theorem ofText_eq_error_iff {text : String} {fault : CatalogFault} :
    ofText text = .error fault ↔ Refused text fault := by
  rw [ofText]
  constructor
  · intro failed
    split at failed
    next operators decoded => exact .unsound decoded (ofList_eq_error_iff.mp failed)
    next undecoded =>
      cases failed
      exact .malformed undecoded
  · rintro (undecoded | ⟨decoded, refused⟩)
    · rw [undecoded]
    · rw [decoded]
      exact ofList_eq_error_iff.mpr refused

theorem ofText_eq_ok_iff {text : String} {c : Catalog} :
    ofText text = .ok c ↔ operatorsOfText? text = some c.operators := by
  rw [ofText]
  constructor
  · intro accepted
    split at accepted
    next operators decoded => rw [decoded, operators_of_ofList accepted]
    · cases accepted
  · intro decoded
    rw [decoded]
    exact c.ofList_operators

end Catalog

/-! ### Settings -/

namespace Settings

theorem positions_ne_nil {overrides : RuleBook} {name : String} {rule : Rule}
    (filled : overrides.toList.all (fun entry => !entry.2.isEmpty) = true)
    (stated : overrides[name]? = some rule) : rule.positions ≠ [] := by
  intro none
  have listed := Std.ExtTreeMap.mem_toList_iff_getElem?_eq_some.mpr stated
  have filled := List.all_eq_true.mp filled (name, rule) listed
  simp [Rule.isEmpty, none] at filled

private theorem first_of_emptyOverride? {overrides : RuleBook} {name : String}
    (found : emptyOverride? overrides = some name) :
    (∃ rule, overrides[name]? = some rule ∧ rule.positions = []) ∧
      ∀ earlier < name, ∀ rule, overrides[earlier]? = some rule → rule.positions ≠ [] := by
  obtain ⟨⟨key, rule⟩, held, same⟩ := Option.map_eq_some_iff.mp found
  obtain rfl : key = name := same
  obtain ⟨empty, before, rest, split, passed⟩ := List.find?_eq_some_iff_append.mp held
  have member : (key, rule) ∈ overrides.toList := List.mem_of_find?_eq_some held
  refine ⟨⟨rule, Std.ExtTreeMap.mem_toList_iff_getElem?_eq_some.mp member, ?_⟩, ?_⟩
  · simpa [Rule.isEmpty] using empty
  · intro earlier less other stated
    have listed := Std.ExtTreeMap.mem_toList_iff_getElem?_eq_some.mpr stated
    have ordered := Std.ExtTreeMap.ordered_keys_toList (t := overrides)
    rw [split] at listed ordered
    rcases List.mem_append.mp listed with here | later
    · simpa [Rule.isEmpty] using passed _ here
    · rcases List.mem_cons.mp later with same | later
      · cases same
        exact absurd less (String.lt_irrefl _)
      · -- Entries are listed in the order of their names.
        have behind := (List.pairwise_cons.mp (List.pairwise_append.mp ordered).2.1).1 _ later
        exact absurd (compareOfLessAndEq_eq_lt.mp behind) (String.lt_asymm less)

/-- The first override without positions is the one whose name comes first. -/
theorem emptyOverride?_eq_some_iff {overrides : RuleBook} {name : String} :
    emptyOverride? overrides = some name ↔
      (∃ rule, overrides[name]? = some rule ∧ rule.positions = []) ∧
        ∀ earlier < name, ∀ rule, overrides[earlier]? = some rule → rule.positions ≠ [] := by
  refine ⟨first_of_emptyOverride?, ?_⟩
  rintro ⟨⟨rule, stated, empty⟩, first⟩
  cases found : emptyOverride? overrides with
  | none =>
    exact absurd empty (positions_ne_nil (all_nonempty_of_emptyOverride?_eq_none found) stated)
  | some other =>
    obtain ⟨⟨otherRule, otherStated, otherEmpty⟩, otherFirst⟩ := first_of_emptyOverride? found
    have notBefore : ¬ other < name := fun less => first other less _ otherStated otherEmpty
    have notBehind : ¬ name < other := fun less => otherFirst name less _ stated empty
    rw [String.le_antisymm (String.not_lt.mp notBehind) (String.not_lt.mp notBefore)]

/-- What is wrong with a document. -/
inductive Refuses (document : SettingsDocument) : SettingsFault → Prop where
  | zeroDepthLimit (zero : document.depthLimit = 0) : Refuses document .zeroDepthLimit
  | emptyOverride {name : String} {rule : Rule} (positive : document.depthLimit ≠ 0)
      (stated : document.overrides[name]? = some rule) (empty : rule.positions = [])
      (first : ∀ earlier < name, ∀ rule, document.overrides[earlier]? = some rule →
        rule.positions ≠ []) :
      Refuses document (.emptyOverride name)

theorem ofDocument_eq_error_iff {document : SettingsDocument} {fault : SettingsFault} :
    ofDocument document = .error fault ↔ Refuses document fault := by
  rw [ofDocument]
  constructor
  · intro failed
    split at failed
    next zero =>
      cases failed
      exact .zeroDepthLimit zero
    next positive =>
      split at failed
      next name found =>
        cases failed
        obtain ⟨⟨rule, stated, empty⟩, first⟩ := emptyOverride?_eq_some_iff.mp found
        exact .emptyOverride positive stated empty first
      · cases failed
  · intro refused
    cases refused with
    | zeroDepthLimit zero => rw [dif_pos zero]
    | emptyOverride positive stated empty first =>
      have found := emptyOverride?_eq_some_iff.mpr ⟨⟨_, stated, empty⟩, first⟩
      rw [dif_neg positive]
      split
      next name again =>
        rw [found] at again
        cases again
        rfl
      next absent =>
        rw [found] at absent
        cases absent

/-- Settings are what their document states, and the overrides in it name positions. -/
theorem of_ofDocument {document : SettingsDocument} {settings : Settings}
    (accepted : ofDocument document = .ok settings) :
    settings.toSettingsDocument = document ∧
      ∀ (name : String) (rule : Rule), document.overrides[name]? = some rule →
        rule.positions ≠ [] := by
  have stated : settings.toSettingsDocument = document := by
    rw [ofDocument] at accepted
    split at accepted
    · cases accepted
    · split at accepted
      · cases accepted
      · cases accepted
        rfl
  subst stated
  exact ⟨rfl, fun name rule => positions_ne_nil settings.overrides_nonempty⟩

/-- A document that states settings is accepted as these settings. -/
theorem ofDocument_toSettingsDocument (settings : Settings) :
    ofDocument settings.toSettingsDocument = .ok settings := by
  rw [ofDocument, dif_neg settings.depthLimit_ne_zero]
  split
  next name found =>
    obtain ⟨⟨rule, stated, empty⟩, -⟩ := emptyOverride?_eq_some_iff.mp found
    exact absurd empty (positions_ne_nil settings.overrides_nonempty stated)
  · rfl

/-- Why there are no settings at a path. -/
inductive Refused (files : Files) (path : String) : SettingsFault → Prop where
  | unreadable {reason : ReadError} (unread : files path = .error reason) :
      Refused files path (.unreadable reason)
  | malformed {text : String} (read : files path = .ok text)
      (undecoded : SettingsDocument.ofText? text = none) : Refused files path .malformed
  | unsound {text : String} {document : SettingsDocument} {fault : SettingsFault}
      (read : files path = .ok text) (decoded : SettingsDocument.ofText? text = some document)
      (refused : Refuses document fault) : Refused files path fault

theorem load_eq_error_iff {files : Files} {path : String} {fault : SettingsFault} :
    load files path = .error fault ↔ Refused files path fault := by
  constructor
  · intro failed
    rw [load] at failed
    split at failed
    next text read =>
      rw [ofText] at failed
      split at failed
      next document decoded =>
        exact .unsound read decoded (ofDocument_eq_error_iff.mp failed)
      next undecoded =>
        cases failed
        exact .malformed read undecoded
    next reason unread =>
      cases failed
      exact .unreadable unread
  · rintro (unread | ⟨read, undecoded⟩ | ⟨read, decoded, refused⟩)
    · simp [load, unread]
    · simp [load, ofText, read, undecoded]
    · simp [load, ofText, read, decoded, ofDocument_eq_error_iff.mpr refused]

theorem load_eq_ok_iff {files : Files} {path : String} {s : Settings} :
    load files path = .ok s ↔ ∃ text, files path = .ok text ∧
      SettingsDocument.ofText? text = some s.toSettingsDocument := by
  constructor
  · intro loaded
    rw [load] at loaded
    split at loaded
    next text read =>
      rw [ofText] at loaded
      split at loaded
      next document decoded =>
        exact ⟨text, read, by rw [decoded, (of_ofDocument loaded).1]⟩
      · cases loaded
    · cases loaded
  · rintro ⟨text, read, decoded⟩
    simp [load, ofText, read, decoded, ofDocument_toSettingsDocument]

private theorem pos_of_readDepthLimit? {text : String} {limit : Nat}
    (read : readDepthLimit? text = some limit) : 0 < limit := by
  simp only [readDepthLimit?, Option.ite_none_right_eq_some, Bool.and_eq_true,
    decide_eq_true_eq] at read
  obtain ⟨-, ⟨positive, -⟩, same⟩ := read
  rwa [Option.some.inj same] at positive

/-- A depth limit in the environment counts, and nothing else is changed. -/
theorem withEnvironment_eq (s : Settings) (stated : Option String) :
    (s.withEnvironment stated).toSettingsDocument =
      { s.toSettingsDocument with
        depthLimit := (stated.bind readDepthLimit?).getD s.depthLimit } := by
  rw [withEnvironment]
  cases read : stated.bind readDepthLimit? with
  | none => rfl
  | some limit =>
    obtain ⟨text, -, limited⟩ := Option.bind_eq_some_iff.mp read
    simp [(pos_of_readDepthLimit? limited).ne']

end Settings

end FormulaFields
