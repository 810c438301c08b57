import FormulaFields.Proofs.Stages

/-!
Runs of the program. The first stage that fails ends a run with its failure and nothing else. When
none fails the run ends well and prints the report of its command. Main statement:
`run_of_accepted`.
-/
namespace FormulaFields.CommandLine

namespace Invocation

variable {files : Files} {reasons : Reasons} {env : Environment} {i : Invocation} {stage : Stage}
  {failure : Failure}

/-- The first stage that fails ends the run. -/
theorem run_of_fails (fails : stage.Fails files i failure) (reached : stage.Reached files i) :
    i.run files reasons env =
      { code := 1, stderr := "Error: " ++ failure.message files reasons ++ "\n" } := by
  have ended : (Session.start files env i).bind (·.outcome i) = .error failure := by
    -- The last stage fails on a session that was loaded, every other one while it is loaded.
    by_cases last : stage = .alphasNamed
    · subst last
      obtain ⟨s, started⟩ := Stage.exists_session reached
      have silent := Stage.answer_eq_error (Session.loads_of_start started) fails
      rw [started]
      exact Session.outcome_eq_error_iff.mpr silent
    · rw [Stage.start_eq_error fails reached last]
      rfl
  rw [run, ended]
  rfl

/-- A run without a failure loads a session and prints its answer. -/
theorem exists_answer_of_run (done : (i.run files reasons env).code = 0) :
    ∃ (s : Session) (text : String), s.Loads files env i ∧
      s.answer i.json i.command = .ok text ∧
      i.run files reasons env =
        { code := 0, stdout := text, warnings := s.warnings i.command } := by
  cases ended : (Session.start files env i).bind (·.outcome i) with
  | error failure =>
    rw [run, ended] at done
    cases done
  | ok outcome =>
    obtain ⟨s, started, left⟩ := bind_eq_ok.mp ended
    obtain ⟨text, answered, left⟩ := bind_eq_ok.mp left
    cases left
    exact ⟨s, text, Session.loads_of_start started, answered, by rw [run, ended]⟩

/-- A run in which no stage fails ends well. -/
theorem code_of_clear (clear : ∀ stage failure, ¬ Stage.Fails files i stage failure) :
    (i.run files reasons env).code = 0 := by
  obtain ⟨s, started⟩ : ∃ s, Session.start files env i = .ok s :=
    Stage.exists_session fun stage _ => clear stage
  have loads := Session.loads_of_start started
  -- A check always has an answer, and a lookup where alphas are named.
  obtain ⟨text, answered⟩ : ∃ text, s.answer i.json i.command = .ok text := by
    cases asked : i.command with
    | check input => exact ⟨_, rfl⟩
    | lookup fields =>
      cases named : i.path? .alphas with
      | none => exact absurd (.alphasNamed asked named) (clear .alphasNamed .alphasNotGiven)
      | some path =>
        obtain ⟨_, alphas, _, _, listed⟩ := loads.listing path named
        rw [Session.answer, listed]
        exact ⟨_, rfl⟩
  have ended : (Session.start files env i).bind (·.outcome i) =
      .ok { code := 0, stdout := text, warnings := s.warnings i.command } := by
    rw [started]
    exact Session.outcome_of_answer answered
  rw [run, ended]

theorem code_eq_zero_iff :
    (i.run files reasons env).code = 0 ↔ ∀ stage failure, ¬ Stage.Fails files i stage failure := by
  refine ⟨fun done stage failure fails => ?_, code_of_clear⟩
  -- The stage need not be the one that the run ends with: that is the first that fails.
  obtain ⟨first, fault, sooner, reached⟩ := Stage.exists_first fails
  rw [run_of_fails sooner reached] at done
  cases done

end Invocation

theorem run_eq_of_asked {files : Files} {reasons : Reasons} {env : Environment}
    {arguments : List String} {i : Invocation}
    (asked : Invocation.ofArguments env arguments = .ok i) :
    run files env arguments reasons = i.run files reasons env := by
  rw [run, asked]

/-- A run warns of a link exactly if it checks one whose id leads to no formula of a listed alpha,
and then it names no alpha. -/
theorem strayLink_mem_warnings_iff {files : Files} {reasons : Reasons} {env : Environment}
    {arguments : List String} {i : Invocation}
    (asked : Invocation.ofArguments env arguments = .ok i)
    (done : (run files env arguments reasons).code = 0) (id : String) :
    ∃ s : Session, s.Loads files env i ∧
      (.strayLink id ∈ (run files env arguments reasons).warnings ↔
        ∃ input, i.command = .check input ∧
          Reference.ofInput s.settings.platform input = .alpha id ∧
          formulaOf? (s.listing.getD []) id = none) ∧
      ∀ input, i.command = .check input →
        .strayLink id ∈ (run files env arguments reasons).warnings →
          (check s.vocabulary s.settings.platform s.listing input).alpha = none := by
  rw [run_eq_of_asked asked] at done ⊢
  obtain ⟨s, text, loads, _, ended⟩ := Invocation.exists_answer_of_run done
  refine ⟨s, loads, ?_⟩
  rw [ended]
  cases i.command with
  | lookup fields => simp [Session.warnings]
  | check input =>
    have warns : .strayLink id ∈ s.warnings (.check input) ↔
        strayLink? s.settings.platform input (s.listing.getD []) = some id := by
      simp [Session.warnings]
    refine ⟨?_, ?_⟩
    · simp only [warns, strayLink?_eq_some_iff, Command.check.injEq, exists_eq_left']
    · rintro _ same stray
      cases same
      exact congrArg Subject.alpha (Subject.ofInput_of_strayLink (warns.mp stray))

/-- Arguments that ask for a run say what it follows, and can be read in one way only. The run ends
with the fault of the first stage that fails, and with the report of its command if none does. -/
theorem run_of_accepted (files : Files) (reasons : Reasons) {env : Environment}
    {arguments : List String} {i : Invocation}
    (asked : Invocation.ofArguments env arguments = .ok i) :
    (∃ parts, Says arguments parts ∧ (∀ other, Says arguments other → other = parts) ∧
      i.Follows env parts) ∧
    (∀ stage failure, Stage.Fails files i stage failure → stage.Reached files i →
      run files env arguments reasons =
        { code := 1, stderr := "Error: " ++ failure.message files reasons ++ "\n" }) ∧
    ((∀ stage failure, ¬ Stage.Fails files i stage failure) →
      (run files env arguments reasons).code = 0 ∧
        ∃ s : Session, s.Loads files env i ∧
          s.Reports i.json i.command (run files env arguments reasons).stdout) := by
  rw [run_eq_of_asked asked]
  refine ⟨?_, fun stage failure => Invocation.run_of_fails, fun clear => ?_⟩
  · obtain ⟨parts, said, follows⟩ := exists_says asked
    exact ⟨parts, said, fun other again => again.unique said, follows⟩
  · have done : (i.run files reasons env).code = 0 := Invocation.code_of_clear clear
    obtain ⟨s, text, loads, answered, ended⟩ := Invocation.exists_answer_of_run done
    rw [ended]
    exact ⟨rfl, s, loads, Session.reports_iff.mpr answered⟩

/-- An environment that names operators and nothing else. -/
def operatorsEnvironment : Environment where
  path? option := if option = .operators then some "variable.json" else none
  depthLimit := some "7"

def bareEnvironment : Environment := ⟨fun _ => none, none⟩

/-- No operators, and the text as the listing of alphas. -/
def filesWith (listing : String) : Files := fun path =>
  if path = "operators.json" then .ok "[]"
  else if path = "alphas.json" then .ok listing
  else .error .missing

/-- One alpha that uses one field. -/
def closeAlpha : Alpha := ⟨"A", none, some ⟨"close", none⟩⟩

def closeListing : String := "[\x7b\"id\":\"A\",\"regular\":\x7b\"code\":\"close\"\x7d\x7d]"

def closeFiles : Files := filesWith closeListing

def closeArguments : List String :=
  ["--operators", "operators.json", "--alphas", "alphas.json", "check", "A"]

def emptyCatalog : Catalog := ⟨[], rfl⟩

/-- What is loaded from the files. -/
def closeSession : Session where
  settings := .default
  vocabulary := .ofCatalog emptyCatalog .default
  listing := some [closeAlpha]

theorem closeArguments_asked :
    ∃ i, Invocation.ofArguments bareEnvironment closeArguments = .ok i ∧ i.json = false ∧
      i.command = .check "A" ∧ i.path? .config = none ∧
      i.path? .operators = some "operators.json" ∧ i.path? .alphas = some "alphas.json" :=
  ⟨_, rfl, rfl, rfl, rfl, rfl, rfl⟩

theorem eq_closeSession_of_loads {i : Invocation} {s : Session}
    (loads : s.Loads closeFiles bareEnvironment i) (config : i.path? .config = none)
    (operators : i.path? .operators = some "operators.json")
    (alphas : i.path? .alphas = some "alphas.json") : s = closeSession := by
  obtain ⟨settings, vocabulary, listing⟩ := s
  obtain ⟨⟨base, _, default, stated⟩, vocabularyLoads, lists, _⟩ := loads
  obtain ⟨path, text, catalog, named, held, decoded, made⟩ := vocabularyLoads
  obtain rfl := default config
  obtain rfl : settings = .default := by
    cases settings
    cases stated
    rfl
  obtain rfl := Option.some.inj (operators.symm.trans named)
  obtain rfl : "[]" = text := Except.ok.inj held
  obtain rfl : catalog = emptyCatalog := by
    cases catalog
    cases decoded
    rfl
  obtain rfl : vocabulary = .ofCatalog emptyCatalog .default := made
  -- The listing is decoded by evaluation, on its own: the session is too large to be evaluated.
  obtain ⟨text, items, held, decoded, listed⟩ := lists _ alphas
  obtain rfl : closeListing = text := Except.ok.inj held
  obtain rfl : listing = some items := listed
  have one : AlphaListing.ofText? closeListing = some [closeAlpha] := by decide +kernel
  obtain rfl := Option.some.inj (one.symm.trans decoded)
  rfl

/-- The path behind the command counts, and it is read before any alphas are. What is no listing of
alphas is refused in the words of the reader. Without a failure the report is printed. -/
theorem run_of_accepted_stages :
    let arguments :=
      ["--operators", "first.json", "check", "close", "--operators=last.json", "--alphas", "a"]
    let reasons : Reasons := { Reasons.plain with alphas := fun text => "unclosed " ++ text }
    (∃ i, Invocation.ofArguments operatorsEnvironment arguments = .ok i ∧
      i.path? .operators = some "last.json" ∧
      run (fun _ => .error .missing) operatorsEnvironment arguments reasons =
        { code := 1
          stderr := "Error: reading last.json: No such file or directory (os error 2)\n" }) ∧
    run (filesWith "[1") bareEnvironment closeArguments reasons =
      { code := 1
        stderr := "Error: loading alphas from alphas.json: " ++
          "invalid catalog json: unclosed [1: unclosed [1\n" } ∧
    (run closeFiles bareEnvironment closeArguments reasons).code = 0 ∧
      (run closeFiles bareEnvironment closeArguments reasons).stdout =
        "alpha A\n1 field(s):\n  close\nAlphas using these fields:\n" ++
          "  A  https://platform.worldquantbrain.com/alpha/A\n" := by
  intro arguments reasons
  obtain ⟨i, asked, text, checks, config, operators, alphas⟩ := closeArguments_asked
  refine ⟨⟨_, rfl, rfl, ?_⟩, ?_, ?_⟩
  · have named : Invocation.ofArguments operatorsEnvironment arguments = .ok _ := rfl
    obtain ⟨-, failing, -⟩ := run_of_accepted (fun _ => .error .missing) reasons named
    refine (failing .operatorsRead (.unreadable "last.json" .missing) (.operatorsRead rfl rfl)
      ?_).trans (by decide +kernel)
    intro earlier before failure fails
    cases fails with
    | settings named => cases named
    | operatorsNamed unnamed => cases unnamed
    | _ => exact absurd before (by decide)
  · obtain ⟨-, failing, -⟩ := run_of_accepted (filesWith "[1") reasons asked
    have undecoded : AlphaListing.ofText? "[1" = none := by decide +kernel
    refine (failing .alphasListed (.alphas "alphas.json") (.alphasListed alphas rfl undecoded)
      ?_).trans (by decide +kernel)
    intro earlier before failure fails
    cases fails with
    | settings named => cases config.symm.trans named
    | operatorsNamed unnamed => cases operators.symm.trans unnamed
    | operatorsRead named unread =>
      cases operators.symm.trans named
      cases unread
    | operatorsListed named read refused =>
      cases operators.symm.trans named
      cases read
      have accepted : Catalog.ofText "[]" = .ok emptyCatalog := Catalog.ofText_eq_ok_iff.mpr rfl
      cases accepted.symm.trans (Catalog.ofText_eq_error_iff.mpr refused)
    | alphasRead named unread =>
      cases alphas.symm.trans named
      cases unread
    | _ => exact absurd before (by decide)
  · obtain ⟨-, -, clear⟩ := run_of_accepted closeFiles reasons asked
    have done : (run closeFiles bareEnvironment closeArguments reasons).code = 0 := by
      decide +kernel
    rw [run_eq_of_asked asked, Invocation.code_eq_zero_iff] at done
    obtain ⟨done, s, loads, reports⟩ := clear done
    obtain rfl := eq_closeSession_of_loads loads config operators alphas
    rw [text, checks, Session.reports_iff] at reports
    have answered : closeSession.answer false (.check "A") =
        .ok ("alpha A\n1 field(s):\n  close\nAlphas using these fields:\n" ++
          "  A  https://platform.worldquantbrain.com/alpha/A\n") := by
      decide +kernel
    exact ⟨done, Except.ok.inj (reports.symm.trans answered)⟩

end FormulaFields.CommandLine
