import FormulaFields.Proofs.Cleaning
import FormulaFields.Proofs.JoinedParts
import FormulaFields.Proofs.PrintedStatements
import FormulaFields.Proofs.Uncommenting

/-!
The order of statements that assign nothing. Each is searched on its own, and their sequence is
searched as one expression in which a semicolon separates no operands; so what stands at the edge of
one statement is searched together with the edge of the next. Where this can make no difference, the
order of the statements makes none either. Main statements: `not_orderIrrelevant`, `fields_of_perm`.
-/
namespace FormulaFields

open Formula

namespace Formula

/-! ### Sequences of standalone statements -/

/-- A statement without comments that assigns nothing, and of which nothing reaches into the next
one. -/
structure Standalone (text : String) : Prop extends Contained text where
  inked : Text.isAllBlank text = false
  unassigned : NoneOutside (·.kind == .equals) text
  uncommented : ¬ OpensComment text.toList

instance : DecidablePred Standalone := fun text =>
  decidable_of_iff (Contained text ∧ Text.isAllBlank text = false ∧
      NoneOutside (·.kind == .equals) text ∧ ¬ OpensComment text.toList)
    ⟨fun ⟨contained, inked, unassigned, uncommented⟩ =>
        ⟨contained, inked, unassigned, uncommented⟩,
      fun fine => ⟨fine.toContained, fine.inked, fine.unassigned, fine.uncommented⟩⟩

/-- Statements in a row, as they are joined for the search. -/
def inSequence (statements : List String) : String := "; ".intercalate statements

theorem Standalone.tokens_ne_nil {text : String} (fine : Standalone text) : tokens text ≠ [] := by
  intro none
  have blank := trimmed_isEmpty_of_inked fine.inked
  rw [trimmed_eq, Lexeme.trimmedText_isEmpty (Lexeme.settled_lexemes text)] at blank
  rw [tokens] at none
  rw [none] at blank
  cases blank

variable {statements : List String}

/-- No comment is opened where two statements meet. -/
theorem not_opensComment_inSequence (fine : ∀ s ∈ statements, Standalone s) :
    ¬ OpensComment (inSequence statements).toList := by
  induction statements with
  | nil => decide
  | cons first rest ih =>
    obtain ⟨front, others⟩ := List.forall_mem_cons.mp fine
    cases rest with
    | nil => simpa [inSequence] using front.uncommented
    | cons second more =>
      have text : (inSequence (first :: second :: more)).toList =
          first.toList ++ ';' :: ([] ++ ' ' :: (inSequence (second :: more)).toList) := by
        rw [inSequence, String.intercalate_cons_cons]
        simp [inSequence]
      -- Neither the semicolon nor the space is a character that a comment begins with.
      rw [text]
      intro opens
      rcases opensComment_append_cons (by decide) (by decide) opens with here | behind
      · exact front.uncommented here
      · rcases opensComment_append_cons (by decide) (by decide) behind with nothing | later
        · exact absurd nothing (by decide)
        · exact ih others later

/-- A sequence is cut into its statements. -/
theorem statementTokens_joinTokens {first : String} {rest : List String}
    (fine : ∀ s ∈ first :: rest, Standalone s) :
    statementTokens (joinTokens ((first :: rest).map tokens)) = (first :: rest).map tokens := by
  refine Nesting.pieces_intercalate (fun t : Token => t.kind.shift) _ rfl rfl
    fun part member more => ?_
  have read : part ∈ (first :: rest).map tokens := member
  obtain ⟨s, listed, rfl⟩ := List.mem_map.mp read
  have uncut : Nesting.Uncut (·.kind.shift) (·.kind == .semicolon) 0 (tokens s) :=
    (fine s listed).undivided
  rw [uncut.pieces_append, (fine s listed).level]

theorem Standalone.assignment?_eq_none {text : String} (fine : Standalone text) :
    assignment? (tokens text) = none :=
  Nesting.Uncut.cutFirst?_eq_none fine.unassigned

theorem fragmentTokens_joinTokens (fine : ∀ s ∈ statements, Standalone s) :
    fragmentTokens (joinTokens (statements.map tokens)) = statements.map tokens := by
  cases statements with
  | nil => rfl
  | cons first rest =>
    rw [fragmentTokens, statementTokens_joinTokens fine, List.map_map]
    have values : (first :: rest).map (valueTokens ∘ tokens) = (first :: rest).map tokens := by
      apply List.map_congr_left
      intro s listed
      rw [Function.comp_apply, valueTokens, (fine s listed).assignment?_eq_none]
      rfl
    rw [values, List.filter_eq_self]
    intro ts member
    obtain ⟨s, listed, rfl⟩ := List.mem_map.mp member
    simpa using (fine s listed).tokens_ne_nil

theorem assignedNames_joinTokens (operators : NameSet) (fine : ∀ s ∈ statements, Standalone s) :
    assignedNames operators (joinTokens (statements.map tokens)) = [] := by
  cases statements with
  | nil => rfl
  | cons first rest =>
    rw [assignedNames, statementTokens_joinTokens fine, List.flatMap_eq_nil_iff]
    intro ts member
    obtain ⟨s, listed, rfl⟩ := List.mem_map.mp member
    rw [targetTokens, (fine s listed).assignment?_eq_none]
    rfl

end Formula

namespace Vocabulary

variable (v : Vocabulary) {statements : List String}

theorem fields_inSequence (fine : ∀ s ∈ statements, Standalone s) :
    v.fields (inSequence statements) = v.fieldsOfTokens (joinTokens (statements.map tokens)) := by
  have closed : statements.Pairwise fun s _ => Lexeme.Sealed (lexemes s) :=
    List.pairwise_of_forall_mem_list fun s member _ _ => sealed_of_terminated (fine s member).closed
  have seen : statements.map sight = (statements.map tokens).map (·.map Token.gist) := by
    rw [List.map_map]
    rfl
  rw [fields_eq_sightOf, uncomment_eq_self (not_opensComment_inSequence fine), sightOf,
    String.ofList_toList, inSequence, sight_joined closed, seen, joinTokens_map rfl,
    fieldsOfTokens_gist]

/-- A field of a sequence is found in the whole or in a single statement. -/
theorem mem_fields_inSequence_iff (fine : ∀ s ∈ statements, Standalone s) {name : String} :
    name ∈ v.fields (inSequence statements) ↔
      name ∈ v.scanTokens (v.depthLimit + 1) (joinTokens (statements.map tokens)) ∨
        ∃ s ∈ statements, name ∈ v.scanText s 0 := by
  have own (s : String) : v.scanText s 0 = v.scanTokens (v.depthLimit + 1) (tokens s) :=
    v.scanText_eq s 0
  have candidates : name ∈ v.candidatesOfTokens (joinTokens (statements.map tokens)) ↔
      name ∈ v.scanTokens (v.depthLimit + 1) (joinTokens (statements.map tokens)) ∨
        ∃ s ∈ statements, name ∈ v.scanText s 0 := by
    simp only [candidatesOfTokens, fragmentTokens_joinTokens fine, List.mem_append,
      List.flatMap_map, List.mem_flatMap, own]
  rw [fields_inSequence v fine, mem_fieldsOfTokens_iff, assignedNames_joinTokens _ fine, candidates]
  refine and_iff_left_of_imp fun found => ⟨List.not_mem_nil, ?_⟩
  -- No search reports an operator.
  rcases found with whole | ⟨s, _, single⟩
  · exact (detached_of_mem_scanTokens whole).2.1
  · exact (detached_of_mem_scanTokens (own s ▸ single)).2.1

/-! ### The order of statements -/

/-- In any other order the statements have the same fields. -/
def OrderIrrelevant (statements : List String) : Prop :=
  (∀ s ∈ statements, Standalone s) →
    ∀ other, other.Perm statements → v.fields (inSequence other) = v.fields (inSequence statements)

private theorem not_orderIrrelevant_of_swap {first second : String} (name : String)
    (fine : ∀ s ∈ [first, second], Standalone s)
    (absent : name ∉ v.fieldsOfTokens (joinTokens ([first, second].map tokens)))
    (found : name ∈ v.fieldsOfTokens (joinTokens ([second, first].map tokens))) :
    ¬ v.OrderIrrelevant [first, second] := by
  intro irrelevant
  have perm : [second, first].Perm [first, second] := List.Perm.swap first second []
  have same := irrelevant fine [second, first] perm
  rw [fields_inSequence v fine, fields_inSequence v (by simpa only [perm.mem_iff] using fine)] at same
  exact absent (same ▸ found)

/-- A comparison in brackets at the edge of a statement sends the text of the next one to the search
for names. A call that is not closed hides the calls of the next statement. And a call that reports
nothing one level deeper exposes the names beside it, if no other call reports anything. -/
theorem not_orderIrrelevant :
    ¬ OrderIrrelevant ⟨.ofList ["rank", "group_rank"], ∅, 50⟩
        ["rank(close > open) > cap", "group_rank(volume, sector)"] ∧
      ¬ OrderIrrelevant ⟨.ofList ["g"], ∅, 50⟩ ["g(y, w)", "f(u]"] ∧
      ¬ OrderIrrelevant ⟨.ofList ["g", "h", "k"], ∅, 1⟩ ["c > k(z)", "g(h(x, x = 1), y)"] := by
  refine ⟨?_, ?_, ?_⟩
  · exact not_orderIrrelevant_of_swap _ "sector" (by decide +kernel) (by decide +kernel)
      (by decide +kernel)
  · exact not_orderIrrelevant_of_swap _ "w" (by decide +kernel) (by decide +kernel)
      (by decide +kernel)
  · exact not_orderIrrelevant_of_swap _ "y" (by decide +kernel) (by decide +kernel)
      (by decide +kernel)

/-- In a longer expression the statement is searched one level deeper. If its calls report nothing
there, so that its names are looked at, all of these are reported at the top as well. -/
def Steady (text : String) : Prop := v.CallsReport 1 text ∨ v.scanText text 1 ⊆ v.scanText text 0

instance (text : String) : Decidable (v.Steady text) := inferInstanceAs (Decidable (_ ∨ _))

/-- Statements whose order makes no difference. -/
inductive Orderly (statements : List String) : Prop where
  /-- All comparisons and connectives stand in brackets, so that the sequence is one expression of
  which only the names count. -/
  | flat (undivided : ∀ s ∈ statements, NoneOutside Token.isJoint s)
    (symbol : ∃ s ∈ statements, ¬ Unjoined (tokens s))
  /-- What is joined at the edges of statements yields what it yields apart. -/
  | joinable (joinable : ∀ s ∈ statements, Joinable (tokens s))
    (steady : (∃ s ∈ statements, isCompound (tokens s) = true) →
      ∀ s ∈ statements, isCompound (tokens s) = false → v.Steady s)

variable {v}

private theorem level_tokens (fine : ∀ s ∈ statements, Standalone s) :
    ∀ ts ∈ statements.map tokens, Nesting.level (·.kind.shift) 0 ts = 0 :=
  List.forall_mem_map.mpr fun s member => (fine s member).level

/-- Where all symbols stand in brackets, the sequence yields all of its names that are bound
nowhere. -/
private theorem mem_fields_of_flat (fine : ∀ s ∈ statements, Standalone s)
    (undivided : ∀ s ∈ statements, NoneOutside Token.isJoint s)
    (symbol : ∃ s ∈ statements, ¬ Unjoined (tokens s)) {name : String} :
    name ∈ v.fields (inSequence statements) ↔
      ((∃ s ∈ statements, name ∈ names (tokens s)) ∧ v.Admits name ∧
          ¬ ∃ s ∈ statements, name ∈ boundNames (tokens s)) ∨
        ∃ s ∈ statements, name ∈ v.scanText s 0 := by
  have level := level_tokens fine
  have whole : Undivided (joinTokens (statements.map tokens)) :=
    (undivided_joinTokens_iff level).mpr (List.forall_mem_map.mpr undivided)
  have compound : isCompound (joinTokens (statements.map tokens)) = true := by
    rw [← Bool.not_eq_false, isCompound_eq_false_iff]
    rintro ⟨unjoined, _⟩
    obtain ⟨s, member, joined⟩ := symbol
    exact joined (unjoined_joinTokens_iff.mp unjoined _ (List.mem_map_of_mem member))
  rw [mem_fields_inSequence_iff v fine,
    scanTokens_uncut v compound (parts_eq_singleton_iff.mpr whole), mem_plainNames_iff,
    ← mem_boundNames_iff, names_joinTokens, boundNames_joinTokens]
  simp only [List.flatMap_map, List.mem_flatMap]

private theorem parts_of_simple {ts : List Token} (simple : isCompound ts = false) :
    parts ts = [ts] :=
  parts_eq_singleton_iff.mpr (isCompound_eq_false_iff.mp simple).2

/-- Where no statement is compound, the sequence yields what the statements yield. -/
private theorem mem_fields_of_simple (fine : ∀ s ∈ statements, Standalone s)
    (joinable : ∀ s ∈ statements, Joinable (tokens s))
    (simple : ∀ s ∈ statements, isCompound (tokens s) = false) {name : String} :
    name ∈ v.fields (inSequence statements) ↔ ∃ s ∈ statements, name ∈ v.scanText s 0 := by
  rw [mem_fields_inSequence_iff v fine]
  refine or_iff_right_of_imp fun found => ?_
  have apart : ∀ ts ∈ statements.map tokens, isCompound ts = false := List.forall_mem_map.mpr simple
  have harmless : Harmless (statements.map tokens) := by
    refine ⟨List.forall_mem_map.mpr fun s member => ?_, apart,
      (isCompound_joinTokens_eq_false_iff (level_tokens fine)).mpr apart⟩
    apply (joinable s member).closed
    simp [outerParts, parts_of_simple (simple s member)]
  obtain ⟨ts, listed, yielded⟩ := exists_part_of_mem_scanTokens harmless found
  obtain ⟨s, member, rfl⟩ := List.mem_map.mp listed
  exact ⟨s, member, (v.scanText_eq s 0).symm ▸ yielded⟩

/-- Where some statement is compound, the sequence yields besides what the calls of the other
statements report one level deeper. -/
private theorem mem_fields_of_compound (fine : ∀ s ∈ statements, Standalone s)
    (joinable : ∀ s ∈ statements, Joinable (tokens s))
    (compound : ∃ s ∈ statements, isCompound (tokens s) = true)
    (steady : ∀ s ∈ statements, isCompound (tokens s) = false → v.Steady s) {name : String} :
    name ∈ v.fields (inSequence statements) ↔
      (∃ s ∈ statements, v.CallsReport 1 s ∧ name ∈ v.scanText s 1) ∨
        ∃ s ∈ statements, name ∈ v.scanText s 0 := by
  have level := level_tokens fine
  have joinable' : ∀ ts ∈ statements.map tokens, Joinable ts := List.forall_mem_map.mpr joinable
  obtain ⟨c, cut, divided⟩ := compound
  have whole : isCompound (joinTokens (statements.map tokens)) = true := by
    rw [← Bool.not_eq_false, isCompound_joinTokens_eq_false_iff level]
    intro simple
    rw [simple (tokens c) (List.mem_map_of_mem cut)] at divided
    cases divided
  have own (s : String) (depth : Nat) :
      v.scanText s depth = v.scanTokens (v.depthLimit + 1 - depth) (tokens s) :=
    v.scanText_eq s depth
  rw [mem_fields_inSequence_iff v fine, scanTokens_of_compound whole]
  constructor
  · rintro (joined | single)
    · obtain ⟨ts, listed, part, inside, yielded⟩ := exists_part_of_mem_joined
        (List.ne_nil_of_mem (List.mem_map_of_mem cut)) level joinable' joined
      obtain ⟨s, member, rfl⟩ := List.mem_map.mp listed
      by_cases simple : isCompound (tokens s) = false
      · -- The statement is its own part, one level deeper than alone.
        rw [parts_of_simple simple] at inside
        obtain rfl := List.mem_singleton.mp inside
        have deeper : name ∈ v.scanText s 1 := (own s 1).symm ▸ yielded
        exact (steady s member simple).imp (fun report => ⟨s, member, report, deeper⟩)
          fun kept => ⟨s, member, kept deeper⟩
      · -- Alone too, the statement is searched part by part.
        right
        refine ⟨s, member, ?_⟩
        rw [own, Nat.sub_zero, scanTokens_of_compound (Bool.not_eq_false _ ▸ simple)]
        exact List.mem_flatMap.mpr ⟨part, inside, yielded⟩
    · exact Or.inr single
  · rintro (⟨s, member, report, deeper⟩ | single)
    · -- What the calls report they report in whatever part the statement ends up.
      left
      obtain ⟨simple, within, found⟩ := callsReport_iff.mp report
      obtain ⟨levels, limit⟩ : ∃ levels, v.depthLimit = levels + 1 :=
        ⟨v.depthLimit - 1, by omega⟩
      rw [limit, Nat.add_sub_cancel] at found
      rw [own, Nat.add_sub_cancel, limit, scanTokens_of_simple simple,
        if_neg (by simpa using found)] at deeper
      rw [limit]
      exact mem_joined_of_reported level joinable' (List.mem_map_of_mem member)
        (parts_of_simple simple ▸ List.mem_singleton_self _) simple deeper
    · exact Or.inr single

theorem fields_inSequence_of_perm {other : List String} (fine : ∀ s ∈ statements, Standalone s)
    (orderly : v.Orderly statements) (perm : other.Perm statements) :
    v.fields (inSequence other) = v.fields (inSequence statements) := by
  have same (s : String) : s ∈ other ↔ s ∈ statements := perm.mem_iff
  have fine' : ∀ s ∈ other, Standalone s := by simpa only [same] using fine
  apply Std.ExtTreeSet.ext_mem
  intro name
  cases orderly with
  | flat undivided symbol =>
    rw [mem_fields_of_flat fine undivided symbol,
      mem_fields_of_flat fine' (by simpa only [same] using undivided)
        (by simpa only [same] using symbol)]
    simp only [same]
  | joinable joinable steady =>
    have joinable' : ∀ s ∈ other, Joinable (tokens s) := by simpa only [same] using joinable
    by_cases compound : ∃ s ∈ statements, isCompound (tokens s) = true
    · rw [mem_fields_of_compound fine joinable compound (steady compound),
        mem_fields_of_compound fine' joinable' (by simpa only [same] using compound)
          (by simpa only [same] using steady compound)]
      simp only [same]
    · have simple : ∀ s ∈ statements, isCompound (tokens s) = false := by simpa using compound
      rw [mem_fields_of_simple fine joinable simple,
        mem_fields_of_simple fine' joinable' (by simpa only [same] using simple)]
      simp only [same]

/-- Where no equals sign stands, the levels make no difference to whether calls report anything. -/
theorem reported_eq_nil_iff_of_unbound {levels levels' : Nat} {ts : List Token}
    (unbound : ∀ t ∈ ts, t.kind ≠ .equals) :
    v.reported levels ts = [] ↔ v.reported levels' ts = [] := by
  rw [reported, reported, List.flatMap_eq_nil_iff, List.flatMap_eq_nil_iff]
  apply forall₂_congr
  intro argument chosen
  have within := (detached_of_mem_searched chosen).1.isInfix
  have free : ∀ t ∈ argument, t.kind ≠ .equals := fun t inside => unbound t (within.subset inside)
  rw [scanTokens_eq_nil_iff free, scanTokens_eq_nil_iff free]

/-- A statement is steady if the limit leaves room for it, and if it binds nothing. -/
theorem Steady.of_length_or_unbound {s : String} (simple : isCompound (tokens s) = false)
    (either : (tokens s).length ≤ v.depthLimit ∨
      1 ≤ v.depthLimit ∧ ∀ t ∈ tokens s, t.kind ≠ .equals) : v.Steady s := by
  rcases either with short | ⟨positive, unbound⟩
  · right
    rw [scanText_eq, scanText_eq, Nat.add_sub_cancel, Nat.sub_zero,
      scanTokens_eq_of_length_le v short (Nat.le_succ_of_le short)]
    exact List.Subset.refl _
  · by_cases report : v.CallsReport 1 s
    · exact Or.inl report
    · right
      obtain ⟨levels, limit⟩ : ∃ levels, v.depthLimit = levels + 1 :=
        ⟨v.depthLimit - 1, by omega⟩
      -- No call reports anything on either level, so all plain names are reported on both.
      have silent : v.reported levels (tokens s) = [] := by
        by_contra found
        refine report (callsReport_iff.mpr ⟨simple, positive, ?_⟩)
        rwa [limit, Nat.add_sub_cancel]
      have silent' : v.reported (levels + 1) (tokens s) = [] :=
        (reported_eq_nil_iff_of_unbound unbound).mp silent
      rw [scanText_eq, scanText_eq, limit, Nat.add_sub_cancel, Nat.sub_zero,
        scanTokens_of_simple simple, scanTokens_of_simple simple, silent, silent']
      exact List.Subset.refl _

/-- The fields of a statement alone. -/
theorem mem_fields_of_standalone {s : String} (fine : Standalone s) {name : String} :
    name ∈ v.fields s ↔ name ∈ v.scanText s 0 := by
  have single : inSequence [s] = s := by simp [inSequence]
  have alone : ∀ other ∈ [s], Standalone other := List.forall_mem_singleton.mpr fine
  have fields : name ∈ v.fields (inSequence [s]) ↔ _ := mem_fields_inSequence_iff v alone
  rw [single, List.map_singleton, joinTokens_singleton] at fields
  rw [fields, scanText_eq]
  simp [scanText_eq]

/-- A field can be one and stands in some statement without an equals sign behind it. -/
theorem exists_free_of_mem_fields (fine : ∀ s ∈ statements, Standalone s) {name : String}
    (found : name ∈ v.fields (inSequence statements)) :
    v.Admits name ∧ ∃ s ∈ statements, name ∈ freeNames (tokens s) := by
  rcases (mem_fields_inSequence_iff v fine).mp found with whole | ⟨s, member, single⟩
  · obtain ⟨stands, admitted⟩ := detached_of_mem_scanTokens whole
    rw [← mem_freeNames_iff, freeNames_joinTokens, List.flatMap_map, List.mem_flatMap] at stands
    exact ⟨admitted, stands⟩
  · rw [scanText_eq] at single
    obtain ⟨stands, admitted⟩ := detached_of_mem_scanTokens single
    exact ⟨admitted, s, member, mem_freeNames_iff.mpr stands⟩

/-- Statements whose edges yield together what they yield apart have the same fields in every
order. In any order, they have all the fields that they have alone, and no others than names that
can be fields and stand in them without an equals sign behind. -/
theorem fields_of_perm (v : Vocabulary) (statements : List String)
    (fine : ∀ s ∈ statements, Standalone s) :
    (v.Orderly statements → ∀ other, other.Perm statements →
        v.fields (inSequence other) = v.fields (inSequence statements)) ∧
      (∀ s ∈ statements, isCompound (tokens s) = false →
        ((tokens s).length ≤ v.depthLimit ∨
          1 ≤ v.depthLimit ∧ ∀ t ∈ tokens s, t.kind ≠ .equals) → v.Steady s) ∧
      (∀ s ∈ statements, ∀ name ∈ v.fields s, name ∈ v.fields (inSequence statements)) ∧
      ∀ name ∈ v.fields (inSequence statements),
        v.Admits name ∧ ∃ s ∈ statements, name ∈ freeNames (tokens s) := by
  refine ⟨fun orderly other => fields_inSequence_of_perm fine orderly,
    fun s _ => Steady.of_length_or_unbound, fun s member name found => ?_,
    fun name => exists_free_of_mem_fields fine⟩
  rw [mem_fields_of_standalone (fine s member)] at found
  exact (mem_fields_inSequence_iff v fine).mpr (Or.inr ⟨s, member, found⟩)

/-- The comparison in brackets stands between two others, and so it meets no other statement. -/
theorem fields_of_perm_group_rank :
    let v : Vocabulary := ⟨.ofList ["rank", "group_rank"], ∅, 50⟩
    let statements := ["group_rank(volume, sector)", "rank(close) > cap && f(a > b) < limit",
      "g(scale = 2) + open"]
    (∀ s ∈ statements, Standalone s) ∧ v.Orderly statements ∧
      v.fields
          "g(scale = 2) + open; rank(close) > cap && f(a > b) < limit; group_rank(volume, sector)" =
        v.fields
          "group_rank(volume, sector); rank(close) > cap && f(a > b) < limit; g(scale = 2) + open" := by
  intro v statements
  have fine : ∀ s ∈ statements, Standalone s := by decide +kernel
  have joinable : ∀ s ∈ statements, Joinable (tokens s) := by decide +kernel
  have short : ∀ s ∈ statements, (tokens s).length ≤ v.depthLimit := by decide +kernel
  obtain ⟨same, steady, _⟩ := fields_of_perm v statements fine
  have orderly : v.Orderly statements :=
    .joinable joinable fun _ s member simple => steady s member simple (Or.inl (short s member))
  exact ⟨fine, orderly, same orderly statements.reverse (List.reverse_perm statements)⟩

end Vocabulary

end FormulaFields
