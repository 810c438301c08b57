import FormulaFields.Proofs.ListedAlphas
import FormulaFields.Proofs.RuleBooks
import FormulaFields.Proofs.Runs

/-!
The line that no other alpha uses the fields of a check. It is printed where no alpha matches at
all, and the alpha that was asked for is among those that can match, so as a rule it hides the line.
Main statement: `noOthers_printed_iff`.
-/
namespace FormulaFields

/-- The line that names the alpha that was asked for. -/
def Report.noOthers (id : String) : String :=
  "No other alpha uses these fields (current: " ++ id ++ ")"

namespace UsageIndex

/-- The entry of an id, if it has one, holds none of the fields. -/
def Avoids (index : UsageIndex) (id : String) (fields : NameSet) : Prop :=
  ∀ used, index.get? id = some used → ∀ name ∈ fields, name ∉ used

theorem avoids_of_get?_eq_none {index : UsageIndex} {id : String} (absent : index.get? id = none)
    (fields : NameSet) : index.Avoids id fields := by
  intro used entry
  rw [absent] at entry
  cases entry

end UsageIndex

/-! ### Lines of a report -/

namespace Report

theorem head?_append {c : Char} {s : String} (first : s.toList.head? = some c) (t : String) :
    (s ++ t).toList.head? = some c := by
  rw [String.toList_append, List.head?_append, first]
  rfl

theorem head?_noOthers (id : String) : (noOthers id).toList.head? = some 'N' := by
  have first : "No other alpha uses these fields (current: ".toList.head? = some 'N' := by
    decide +kernel
  exact head?_append (head?_append first id) ")"

theorem noOthers_ne {id line : String} {c : Char} (first : line.toList.head? = some c)
    (other : c ≠ 'N') : noOthers id ≠ line := by
  rintro rfl
  exact other (Option.some.inj (first.symm.trans (head?_noOthers id)))

/-- The number of fields stands on a line with another end. -/
theorem noOthers_ne_count (id : String) (n : Nat) : noOthers id ≠ toString n ++ " field(s):" := by
  have last (s : String) {t : String} {c : Char} (ends : t.toList.getLast? = some c) :
      (s ++ t).toList.getLast? = some c := by
    rw [String.toList_append, List.getLast?_append, ends]
    rfl
  intro same
  have closing : (noOthers id).toList.getLast? = some ')' := last _ rfl
  rw [same, last (toString n) (c := ':') rfl] at closing
  exact absurd closing (by decide)

theorem mem_matchLines_iff {platform id : String} {names : NameSet} :
    noOthers id ∈ matchLines platform names (some id) ↔ names = ∅ := by
  rw [matchLines]
  split
  next empty =>
    exact iff_of_true (List.mem_singleton_self _) (Std.ExtTreeSet.isEmpty_iff.mp empty)
  next filled =>
    refine iff_of_false (fun member => ?_) (mt Std.ExtTreeSet.isEmpty_iff.mpr filled)
    -- The title and the lines of the alphas begin with other characters.
    rcases List.mem_cons.mp member with title | listed
    · exact noOthers_ne (c := 'A') (by decide +kernel) (by decide) title
    · obtain ⟨other, _, line⟩ := List.mem_map.mp listed
      have indented : (("  " ++ other) ++ "  ").toList.head? = some ' ' :=
        head?_append (head?_append rfl _) _
      exact noOthers_ne (head?_append indented _) (by decide) line.symm

end Report

namespace FieldReport

/-- Of the lines of a report only the last can be this one. -/
theorem mem_lines_iff {r : FieldReport} {platform id : String} {names : NameSet}
    (alpha : r.alpha = some id) (matching : r.matching = some names) :
    Report.noOthers id ∈ r.lines platform ↔ names = ∅ := by
  have title : Report.noOthers id ≠ "alpha " ++ id :=
    Report.noOthers_ne (Report.head?_append (c := 'a') rfl _) (by decide)
  have field : ∀ name, Report.noOthers id ≠ "  " ++ name :=
    fun name => Report.noOthers_ne (Report.head?_append (c := ' ') rfl _) (by decide)
  have others : Report.noOthers id ∉ (r.alpha.map ("alpha " ++ ·)).toList ++
      [toString r.fields.size ++ " field(s):"] ++ r.fields.toList.map ("  " ++ ·) := by
    rw [alpha, List.mem_append, List.mem_append]
    rintro ((first | second) | listed)
    · exact title (by simpa using first)
    · exact Report.noOthers_ne_count id _ (List.mem_singleton.mp second)
    · obtain ⟨name, _, line⟩ := List.mem_map.mp listed
      exact field name line.symm
  rw [lines, List.mem_append, or_iff_right others, matching, alpha]
  exact Report.mem_matchLines_iff

end FieldReport

/-! ### Checks -/

section

variable {v : Vocabulary} {platform input id : String} {alphas : List Alpha}

/-- The line stands where no alpha shares a field, the one that was asked for included. -/
theorem noOthers_mem_lines_check_iff
    (resolved : (check v platform (some alphas) input).alpha = some id) :
    Report.noOthers id ∈ (check v platform (some alphas) input).lines platform ↔
      ∀ other, (UsageIndex.ofAlphas v alphas).Avoids other
        (check v platform (some alphas) input).fields := by
  obtain ⟨matching, listed⟩ : ∃ matching,
      (check v platform (some alphas) input).matching = some matching := ⟨_, rfl⟩
  rw [FieldReport.mem_lines_iff resolved listed, Std.ExtTreeSet.eq_empty_iff_forall_not_mem]
  refine forall_congr' fun other => ?_
  rw [mem_matching_check_iff listed, UsageIndex.Avoids]
  simp only [not_exists, not_and]

end

namespace CommandLine

private theorem closeArguments_done :
    (run closeFiles bareEnvironment closeArguments).code = 0 := by
  decide +kernel

/-- The alpha that is asked for uses the field, and it is the only one with an entry. -/
private theorem check_closeSession :
    let report := check closeSession.vocabulary closeSession.settings.platform
      (some [closeAlpha]) "A"
    report.alpha = some "A" ∧ "close" ∈ report.fields ∧
      (UsageIndex.ofAlphas closeSession.vocabulary [closeAlpha]).get? "A" = some report.fields ∧
      ∀ other ≠ "A",
        (UsageIndex.ofAlphas closeSession.vocabulary [closeAlpha]).get? other = none := by
  intro report
  refine ⟨by decide +kernel, by decide +kernel, ?_, fun other apart => ?_⟩
  · have kept : UsageIndex.lastFormula? [closeAlpha] "A" = some "close" := by decide +kernel
    have subject : Subject.ofInput closeSession.settings.platform "A" [closeAlpha] =
        ⟨some "A", "close"⟩ := by decide +kernel
    rw [UsageIndex.get?_ofAlphas, kept]
    simp only [report, check, Option.getD_some, subject, Option.map_some]
  · have absent : UsageIndex.lastFormula? [closeAlpha] other = none := by
      simp [UsageIndex.lastFormula?, closeAlpha, Ne.symm apart]
    rw [UsageIndex.get?_ofAlphas, absent]
    rfl

/-- The line would be printed where no alpha but the one that was asked for shares a field. -/
def OthersDecided : Prop :=
  ∀ (files : Files) (env : Environment) (arguments : List String) (i : Invocation)
    (input id : String) (s : Session) (alphas : List Alpha),
    Invocation.ofArguments env arguments = .ok i → i.json = false → i.command = .check input →
      (run files env arguments).code = 0 → s.Loads files env i → s.listing = some alphas →
        (check s.vocabulary s.settings.platform s.listing input).alpha = some id →
          (Report.noOthers id ∈
              (check s.vocabulary s.settings.platform s.listing input).lines s.settings.platform ↔
            ∀ other ≠ id, (UsageIndex.ofAlphas s.vocabulary alphas).Avoids other
              (check s.vocabulary s.settings.platform s.listing input).fields)

/-- The alpha that was asked for is among those that match, and so the line is not printed though no
other alpha is listed. -/
theorem not_othersDecided : ¬ OthersDecided := by
  intro decided
  have done := closeArguments_done
  obtain ⟨i, asked, text, checks, config, operators, alphas⟩ := closeArguments_asked
  obtain ⟨s, _, loads, _⟩ := Invocation.exists_answer_of_run (run_eq_of_asked asked ▸ done)
  obtain rfl := eq_closeSession_of_loads loads config operators alphas
  obtain ⟨resolved, used, entry, others⟩ := check_closeSession
  have line := decided closeFiles bareEnvironment closeArguments i "A" "A" closeSession [closeAlpha]
    asked text checks done loads rfl
  have printed := (line resolved).mpr fun other apart =>
    UsageIndex.avoids_of_get?_eq_none (others other apart) _
  exact (noOthers_mem_lines_check_iff resolved).mp printed "A" _ entry "close" used used

/-- A check for text prints the lines of its report, each with a newline at its end, and no others
unless one of them holds a newline itself. The line that no other alpha uses the fields is among
them exactly where no alpha shares a field and the entry of the alpha that was asked for does not
either. So it is right where that alpha has no entry, and where its entry has the fields of the
report, as it does unless ids are repeated, the line is printed only if there are no fields. -/
theorem noOthers_printed_iff {files : Files} {reasons : Reasons} {env : Environment}
    {arguments : List String} {i : Invocation} {input : String}
    (asked : Invocation.ofArguments env arguments = .ok i) (text : i.json = false)
    (checks : i.command = .check input) (done : (run files env arguments reasons).code = 0) :
    ∃ (s : Session) (report : FieldReport), s.Loads files env i ∧
      report = check s.vocabulary s.settings.platform s.listing input ∧
      (run files env arguments reasons).stdout =
        Report.ofLines (report.lines s.settings.platform) ∧
      Report.IsText (run files env arguments reasons).stdout
        (report.lines s.settings.platform) ∧
      (∀ line ∈ report.lines s.settings.platform,
        Report.HasLine (run files env arguments reasons).stdout line) ∧
      ((∀ line ∈ report.lines s.settings.platform, '\n' ∉ line.toList) →
        ∀ line, '\n' ∉ line.toList →
          (Report.HasLine (run files env arguments reasons).stdout line ↔
            line ∈ report.lines s.settings.platform)) ∧
      ∀ alphas id, s.listing = some alphas → report.alpha = some id →
        (Report.noOthers id ∈ report.lines s.settings.platform ↔
          (∀ other ≠ id, (UsageIndex.ofAlphas s.vocabulary alphas).Avoids other report.fields) ∧
            (UsageIndex.ofAlphas s.vocabulary alphas).Avoids id report.fields) ∧
        ((UsageIndex.ofAlphas s.vocabulary alphas).get? id = none →
          (Report.noOthers id ∈ report.lines s.settings.platform ↔
            ∀ other ≠ id, (UsageIndex.ofAlphas s.vocabulary alphas).Avoids other report.fields)) ∧
        ((UsageIndex.ofAlphas s.vocabulary alphas).get? id = some report.fields →
          (Report.noOthers id ∈ report.lines s.settings.platform ↔ report.fields = ∅)) := by
  rw [run_eq_of_asked asked] at done ⊢
  obtain ⟨s, output, loads, answered, ended⟩ := Invocation.exists_answer_of_run done
  rw [text, checks, Session.answer_check, Except.ok.injEq] at answered
  have stdout : (i.run files reasons env).stdout = Report.ofLines
      ((check s.vocabulary s.settings.platform s.listing input).lines s.settings.platform) := by
    rw [ended, ← answered]
    rfl
  refine ⟨s, _, loads, rfl, stdout, Report.isText_iff.mpr stdout, fun line member => ?_,
    fun plain line own => ?_, ?_⟩
  · rw [stdout]
    exact Report.hasLine_ofLines member
  · rw [stdout]
    exact Report.hasLine_ofLines_iff plain own
  intro alphas id listed resolved
  rw [listed] at resolved ⊢
  have split : Report.noOthers id ∈ (check s.vocabulary s.settings.platform (some alphas)
      input).lines s.settings.platform ↔
      (∀ other ≠ id, (UsageIndex.ofAlphas s.vocabulary alphas).Avoids other
        (check s.vocabulary s.settings.platform (some alphas) input).fields) ∧
      (UsageIndex.ofAlphas s.vocabulary alphas).Avoids id
        (check s.vocabulary s.settings.platform (some alphas) input).fields := by
    rw [noOthers_mem_lines_check_iff resolved]
    refine ⟨fun all => ⟨fun other _ => all other, all id⟩, fun ⟨others, own⟩ other => ?_⟩
    by_cases same : other = id
    · exact same ▸ own
    · exact others other same
  refine ⟨split, fun absent => ?_, fun entry => ?_⟩
  · rw [split, and_iff_left (UsageIndex.avoids_of_get?_eq_none absent _)]
  · rw [split, Std.ExtTreeSet.eq_empty_iff_forall_not_mem]
    constructor
    · rintro ⟨-, own⟩ name member
      exact own _ entry name member member
    · intro empty
      exact ⟨fun _ _ _ _ name member => absurd member (empty name),
        fun _ _ name member => absurd member (empty name)⟩

/-- Of the one alpha that is listed no other shares the field, and still another line is printed. -/
theorem noOthers_printed_iff_close :
    ∃ i, Invocation.ofArguments bareEnvironment closeArguments = .ok i ∧ i.json = false ∧
      i.command = .check "A" ∧ (run closeFiles bareEnvironment closeArguments).code = 0 ∧
      Report.HasLine (run closeFiles bareEnvironment closeArguments).stdout
        "Alphas using these fields:" ∧
      ¬ Report.HasLine (run closeFiles bareEnvironment closeArguments).stdout
        (Report.noOthers "A") := by
  have done := closeArguments_done
  obtain ⟨i, asked, text, checks, config, operators, alphas⟩ := closeArguments_asked
  refine ⟨i, asked, text, checks, done, ?_⟩
  obtain ⟨s, report, loads, same, _, _, shown, only, extent⟩ :=
    noOthers_printed_iff asked text checks done
  obtain rfl := eq_closeSession_of_loads loads config operators alphas
  obtain ⟨resolved, used, entry, _⟩ := check_closeSession
  subst same
  obtain ⟨-, -, own⟩ := extent [closeAlpha] "A" rfl resolved
  refine ⟨shown _ (by decide +kernel), ?_⟩
  rw [only (by decide +kernel) _ (by decide +kernel), own entry,
    Std.ExtTreeSet.eq_empty_iff_forall_not_mem]
  exact fun empty => empty "close" used

end CommandLine

end FormulaFields
