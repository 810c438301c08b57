import FormulaFields.Proofs.IndexRuns
import FormulaFields.Report

/-!
An alpha that is asked for by its id, and its entry in the index of the same listing. The check
takes the first alpha that is listed with the id; the index keeps the last one that belongs in it.
The two agree where these state one formula, and a listing that repeats an id can keep them apart.
-/
namespace FormulaFields

open UsageIndex (lastFormula?)

/-- The name that is looked up in a listing: the id in a link, or else the whole input. -/
def Reference.name : Reference → String
  | .alpha id => id
  | .formula text => text

theorem strayLink?_eq_some_iff {platform input id : String} {alphas : List Alpha} :
    strayLink? platform input alphas = some id ↔
      Reference.ofInput platform input = .alpha id ∧ formulaOf? alphas id = none := by
  rw [strayLink?]
  cases Reference.ofInput platform input with
  | formula text => simp
  | alpha other =>
    rw [Option.ite_none_right_eq_some, Option.isNone_iff_eq_none, Option.some.injEq,
      Reference.alpha.injEq]
    constructor
    · rintro ⟨unlisted, rfl⟩
      exact ⟨rfl, unlisted⟩
    · rintro ⟨rfl, unlisted⟩
      exact ⟨unlisted, rfl⟩

namespace Subject

variable {platform input : String} {alphas : List Alpha}

theorem ofInput_of_listed {formula : String}
    (listed : formulaOf? alphas (Reference.ofInput platform input).name = some formula) :
    ofInput platform input alphas = ⟨some (Reference.ofInput platform input).name, formula⟩ := by
  rw [ofInput]
  cases asked : Reference.ofInput platform input <;> rw [asked] at listed <;>
    simp only [Reference.name] at listed ⊢ <;> rw [listed]

theorem ofInput_of_unlisted
    (unlisted : formulaOf? alphas (Reference.ofInput platform input).name = none) :
    ofInput platform input alphas = ⟨none, Text.trimmed input⟩ := by
  rw [ofInput]
  cases asked : Reference.ofInput platform input <;> rw [asked] at unlisted <;>
    simp only [Reference.name] at unlisted ⊢ <;> rw [unlisted]

/-- A stray link is taken for a formula. -/
theorem ofInput_of_strayLink {id : String} (stray : strayLink? platform input alphas = some id) :
    ofInput platform input alphas = ⟨none, Text.trimmed input⟩ := by
  obtain ⟨link, unlisted⟩ := strayLink?_eq_some_iff.mp stray
  exact ofInput_of_unlisted (by rw [link]; exact unlisted)

/-- Where the input names a listed alpha, the first one with its id states the formula. -/
theorem formulaOf?_of_alpha {id : String}
    (named : (ofInput platform input alphas).alpha = some id) :
    formulaOf? alphas id = some (ofInput platform input alphas).formula := by
  cases stated : formulaOf? alphas (Reference.ofInput platform input).name with
  | none =>
    rw [ofInput_of_unlisted stated] at named
    cases named
  | some formula =>
    rw [ofInput_of_listed stated] at named ⊢
    obtain rfl := Option.some.inj named
    exact stated

end Subject

/-! ### Checks of listed alphas -/

variable {v : Vocabulary} {platform input id : String} {alphas : List Alpha}

/-- The listed alphas that match a check are those whose entry shares a field with it. -/
theorem mem_matching_check_iff {matching : NameSet}
    (listed : (check v platform (some alphas) input).matching = some matching) :
    id ∈ matching ↔ ∃ used, (UsageIndex.ofAlphas v alphas).get? id = some used ∧
      ∃ name ∈ (check v platform (some alphas) input).fields, name ∈ used := by
  obtain rfl := Option.some.inj listed
  rw [UsageIndex.mem_lookup_iff]
  simp only [Std.ExtTreeSet.mem_toList]
  rfl

/-- The first alpha with an id is an alpha with that id. -/
private theorem exists_of_formulaOf? {formula : String}
    (stated : formulaOf? alphas id = some formula) :
    ∃ a ∈ alphas, a.id = id ∧ a.formula? = some formula := by
  obtain ⟨a, found, code⟩ := Option.bind_eq_some_iff.mp stated
  exact ⟨a, List.mem_of_find?_eq_some found, by simpa using List.find?_some found, code⟩

private theorem exists_of_lastFormula? {formula : String}
    (kept : lastFormula? alphas id = some formula) :
    ∃ a ∈ alphas, a.id = id ∧ a.formula? = some formula := by
  obtain ⟨a, found, code⟩ := Option.bind_eq_some_iff.mp kept
  have named := List.find?_some found
  simp only [decide_eq_true_eq] at named
  exact ⟨a, List.mem_reverse.mp (List.mem_of_find?_eq_some found), named.1, code⟩

/-- The check and the index would have the same fields for an alpha, so that it would match its own
check whenever it uses a field. -/
def AlphasAgree : Prop :=
  ∀ (v : Vocabulary) (platform : String) (alphas : List Alpha) (input id : String)
    (used : NameSet), (check v platform (some alphas) input).alpha = some id →
      (UsageIndex.ofAlphas v alphas).get? id = some used →
        (check v platform (some alphas) input).fields = used ∧
          ∀ matching ∈ (check v platform (some alphas) input).matching,
            (id ∈ matching ↔ (check v platform (some alphas) input).fields ≠ ∅)

/-- Two alphas with one id. -/
def repeatedAlphas : List Alpha :=
  [⟨"A", some "REGULAR", some ⟨"close", none⟩⟩, ⟨"A", some "REGULAR", some ⟨"open", none⟩⟩]

/-- Of two alphas with one id the check takes the first and the index the second. -/
theorem not_alphasAgree : ¬ AlphasAgree := by
  intro agree
  have entry := UsageIndex.get?_ofAlphas ⟨∅, ∅, defaultDepthLimit⟩ repeatedAlphas "A"
  have same := (agree ⟨∅, ∅, defaultDepthLimit⟩ defaultPlatform repeatedAlphas "A" "A" _
    (by decide +kernel) (entry.trans rfl)).1
  exact absurd (congrArg (·.contains "close") same) (by decide +kernel)

/-- The check has the fields of the first alpha with the id, and the index those of the last one
that belongs in it. The alpha matches its own check exactly where the two share a field. Where they
state one formula, as they do unless alphas with that id differ in it, the fields are the same, and
the alpha matches itself whenever it uses a field. -/
theorem check_of_alpha {used : NameSet}
    (resolved : (check v platform (some alphas) input).alpha = some id)
    (entry : (UsageIndex.ofAlphas v alphas).get? id = some used) :
    ∃ stated kept matching, formulaOf? alphas id = some stated ∧
      lastFormula? alphas id = some kept ∧
      (check v platform (some alphas) input).fields = v.fields stated ∧ used = v.fields kept ∧
      (check v platform (some alphas) input).matching = some matching ∧
      (id ∈ matching ↔ ∃ name ∈ v.fields stated, name ∈ v.fields kept) ∧
      (stated = kept → (check v platform (some alphas) input).fields = used ∧
        (id ∈ matching ↔ (check v platform (some alphas) input).fields ≠ ∅)) ∧
      ((∀ a ∈ alphas, ∀ b ∈ alphas, a.id = id → b.id = id → a.formula? = b.formula?) →
        stated = kept) := by
  have stated : formulaOf? alphas id = some (Subject.ofInput platform input alphas).formula :=
    Subject.formulaOf?_of_alpha resolved
  have fields : (check v platform (some alphas) input).fields =
      v.fields (Subject.ofInput platform input alphas).formula := rfl
  obtain ⟨kept, last, rfl⟩ : ∃ kept, lastFormula? alphas id = some kept ∧ v.fields kept = used := by
    rw [UsageIndex.get?_ofAlphas] at entry
    exact Option.map_eq_some_iff.mp entry
  obtain ⟨matching, listed⟩ : ∃ matching,
      (check v platform (some alphas) input).matching = some matching := ⟨_, rfl⟩
  have shared : id ∈ matching ↔
      ∃ name ∈ v.fields (Subject.ofInput platform input alphas).formula, name ∈ v.fields kept := by
    rw [mem_matching_check_iff listed, entry, fields]
    simp
  refine ⟨_, kept, matching, stated, last, fields, rfl, listed, shared, ?_, fun alike => ?_⟩
  · rintro rfl
    refine ⟨rfl, ?_⟩
    rw [shared, fields, Ne, Std.ExtTreeSet.eq_empty_iff_forall_not_mem]
    simp
  · obtain ⟨a, member, named, code⟩ := exists_of_formulaOf? stated
    obtain ⟨b, other, same, code'⟩ := exists_of_lastFormula? last
    exact Option.some.inj (code.symm.trans ((alike a member b other named same).trans code'))

/-- A listing in which another alpha comes first and one alpha is stated twice. -/
def mixedAlphas : List Alpha :=
  [⟨"S", some "SUPER", some ⟨"open", none⟩⟩, ⟨"A", none, some ⟨"close", none⟩⟩,
    ⟨"A", some "Regular", some ⟨"close", some "again"⟩⟩]

/-- The alpha, asked for by its link, is among those that match. -/
theorem check_of_alpha_link :
    (check ⟨∅, ∅, 50⟩ defaultPlatform (some mixedAlphas)
        " https://platform.worldquantbrain.com/alpha/A/?tab=pnl ").alpha = some "A" ∧
      (UsageIndex.ofAlphas ⟨∅, ∅, 50⟩ mixedAlphas).get? "A" =
        some (Vocabulary.fields ⟨∅, ∅, 50⟩ "close") ∧
      ∃ matching, (check ⟨∅, ∅, 50⟩ defaultPlatform (some mixedAlphas)
        " https://platform.worldquantbrain.com/alpha/A/?tab=pnl ").matching = some matching ∧
        "A" ∈ matching := by
  have resolved : (check ⟨∅, ∅, 50⟩ defaultPlatform (some mixedAlphas)
      " https://platform.worldquantbrain.com/alpha/A/?tab=pnl ").alpha = some "A" := by
    decide +kernel
  have entry : (UsageIndex.ofAlphas ⟨∅, ∅, 50⟩ mixedAlphas).get? "A" =
      some (Vocabulary.fields ⟨∅, ∅, 50⟩ "close") :=
    UsageIndex.get?_ofAlphas ⟨∅, ∅, 50⟩ mixedAlphas "A"
  obtain ⟨stated, kept, matching, first, last, _, _, listed, shared, _⟩ :=
    check_of_alpha resolved entry
  obtain rfl : "close" = stated := Option.some.inj first
  obtain rfl : "close" = kept := Option.some.inj last
  have used : "close" ∈ Vocabulary.fields ⟨∅, ∅, 50⟩ "close" := by decide +kernel
  exact ⟨resolved, entry, matching, listed, shared.mpr ⟨"close", used, used⟩⟩

end FormulaFields
