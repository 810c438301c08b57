import FormulaFields.CommandLine.Session
import FormulaFields.Proofs.CommandLines
import FormulaFields.Proofs.Refusals
import FormulaFields.Proofs.ReportTexts

/-!
The stages of a run. Each can fail, on its own file or for want of a path, and of those that fail
there is a first one. While none does, a session is loaded off the files, and what it answers to a
command is the report of the command. Main statements: `Stage.start_eq_error`,
`Session.loads_of_start` and `Session.reports_iff`.
-/
namespace FormulaFields.CommandLine

/-! ### Failures -/

/-- What a run does before it reports, in this order. -/
inductive Stage where
  | settings
  | operatorsNamed
  | operatorsRead
  | operatorsListed
  | alphasRead
  | alphasListed
  | alphasNamed
  deriving DecidableEq, Repr

namespace Stage

def place : Stage → Nat
  | .settings => 1
  | .operatorsNamed => 2
  | .operatorsRead => 3
  | .operatorsListed => 4
  | .alphasRead => 5
  | .alphasListed => 6
  | .alphasNamed => 7

/-- How a stage fails, whatever the other stages do. -/
inductive Fails (files : Files) (i : Invocation) : Stage → Failure → Prop where
  | settings {path : String} {fault : SettingsFault} (named : i.path? .config = some path)
      (refused : Settings.Refused files path fault) : Fails files i .settings (.settings path fault)
  | operatorsNamed (unnamed : i.path? .operators = none) :
      Fails files i .operatorsNamed .operatorsNotGiven
  | operatorsRead {path : String} {reason : ReadError} (named : i.path? .operators = some path)
      (unread : files path = .error reason) : Fails files i .operatorsRead (.unreadable path reason)
  | operatorsListed {path text : String} {fault : CatalogFault}
      (named : i.path? .operators = some path) (read : files path = .ok text)
      (refused : Catalog.Refused text fault) :
      Fails files i .operatorsListed (.operators path fault)
  | alphasRead {path : String} {reason : ReadError} (named : i.path? .alphas = some path)
      (unread : files path = .error reason) : Fails files i .alphasRead (.unreadable path reason)
  | alphasListed {path text : String} (named : i.path? .alphas = some path)
      (read : files path = .ok text) (undecoded : AlphaListing.ofText? text = none) :
      Fails files i .alphasListed (.alphas path)
  | alphasNamed {fields : List String} (asked : i.command = .lookup fields)
      (unnamed : i.path? .alphas = none) : Fails files i .alphasNamed .alphasNotGiven

end Stage

/-! ### Reports -/

/-- The text is a report: for JSON the document alone, in its indented layout, and else the
lines. -/
inductive Shows (document : Json.Value → Prop) (told : List String → Prop) :
    Bool → String → Prop where
  | document {v : Json.Value} {text : String} (holds : document v)
      (read : Json.read? text = some v) (layout : text = v.indented ++ "\n") :
      Shows document told true text
  | lines {lines : List String} {text : String} (holds : told lines)
      (written : Report.IsText text lines) : Shows document told false text

theorem shows_iff {document : Json.Value → Prop} {told : List String → Prop} {v : Json.Value}
    {lines : List String} (valued : ∀ other, document other ↔ other = v)
    (lined : ∀ others, told others ↔ others = lines) (legible : v.isLegible = true)
    {json : Bool} {text : String} :
    Shows document told json text ↔ text = printed json v lines := by
  constructor
  · intro shown
    cases shown with
    | document holds _ layout =>
      rw [layout, (valued _).mp holds]
      rfl
    | lines holds written =>
      rw [Report.isText_iff.mp written, (lined _).mp holds]
      rfl
  · rintro rfl
    cases json with
    | false => exact .lines ((lined _).mpr rfl) (Report.isText_iff.mpr rfl)
    | true => exact .document ((valued _).mpr rfl) (Json.read?_indented legible) rfl

theorem shows_fieldReport_iff {report : FieldReport} {platform : String} {json : Bool}
    {text : String} :
    Shows report.IsDocument (report.Tells platform) json text ↔
      text = printed json report.toValue (report.lines platform) :=
  shows_iff (fun _ => FieldReport.isDocument_iff) (fun _ => FieldReport.tells_iff)
    report.isLegible_toValue

theorem shows_matchReport_iff {report : MatchReport} {platform : String} {json : Bool}
    {text : String} :
    Shows report.IsDocument (report.Tells platform) json text ↔
      text = printed json report.toValue (report.lines platform) :=
  shows_iff (fun _ => MatchReport.isDocument_iff) (fun _ => MatchReport.tells_iff)
    report.isLegible_toValue

/-! ### Readers -/

section

variable {Fault Other Value Result : Type} {x : Except Fault Value}

theorem bind_eq_error {next : Value → Except Fault Result} {fault : Fault} :
    x >>= next = .error fault ↔
      x = .error fault ∨ ∃ value, x = .ok value ∧ next value = .error fault := by
  cases x <;> simp [bind, Except.bind]

theorem mapError_eq_ok {wrap : Fault → Other} {value : Value} :
    x.mapError wrap = .ok value ↔ x = .ok value := by
  cases x <;> simp [Except.mapError]

theorem mapError_eq_error {wrap : Fault → Other} {other : Other} :
    x.mapError wrap = .error other ↔ ∃ fault, x = .error fault ∧ wrap fault = other := by
  cases x <;> simp [Except.mapError]

theorem exists_ok (clear : ∀ fault, x ≠ .error fault) : ∃ value, x = .ok value := by
  cases x with
  | ok value => exact ⟨value, rfl⟩
  | error fault => exact absurd rfl (clear fault)

end

namespace Session

variable {files : Files} {env : Environment} {i : Invocation} {failure : Failure} {s : Session}

theorem readSettings_eq_error_iff :
    readSettings files (i.path? .config) = .error failure ↔
      Stage.settings.Fails files i failure := by
  constructor
  · intro failed
    cases named : i.path? .config with
    | none =>
      rw [named] at failed
      cases failed
    | some path =>
      rw [named] at failed
      obtain ⟨fault, refused, rfl⟩ := mapError_eq_error.mp failed
      exact .settings named (Settings.load_eq_error_iff.mp refused)
  · intro fails
    cases fails with
    | settings named refused =>
      rw [named]
      exact mapError_eq_error.mpr ⟨_, Settings.load_eq_error_iff.mpr refused, rfl⟩

theorem readCatalog_eq_error_iff :
    readCatalog files (i.path? .operators) = .error failure ↔
      Stage.operatorsNamed.Fails files i failure ∨ Stage.operatorsRead.Fails files i failure ∨
        Stage.operatorsListed.Fails files i failure := by
  constructor
  · intro failed
    cases named : i.path? .operators with
    | none =>
      rw [named] at failed
      cases failed
      exact Or.inl (.operatorsNamed named)
    | some path =>
      rw [named] at failed
      rcases bind_eq_error.mp failed with unread | ⟨text, read, unlisted⟩
      · obtain ⟨reason, missing, rfl⟩ := mapError_eq_error.mp unread
        exact Or.inr (Or.inl (.operatorsRead named missing))
      · obtain ⟨fault, refused, rfl⟩ := mapError_eq_error.mp unlisted
        exact Or.inr (Or.inr (.operatorsListed named (mapError_eq_ok.mp read)
          (Catalog.ofText_eq_error_iff.mp refused)))
  · rintro (fails | fails | fails)
    · cases fails with
      | operatorsNamed unnamed =>
        rw [unnamed]
        rfl
    · cases fails with
      | operatorsRead named unread =>
        rw [named]
        exact bind_eq_error.mpr (Or.inl (mapError_eq_error.mpr ⟨_, unread, rfl⟩))
    · cases fails with
      | operatorsListed named read refused =>
        rw [named]
        refine bind_eq_error.mpr (Or.inr ⟨_, mapError_eq_ok.mpr read, ?_⟩)
        exact mapError_eq_error.mpr ⟨_, Catalog.ofText_eq_error_iff.mpr refused, rfl⟩

theorem readListing_eq_error_iff :
    readListing files (i.path? .alphas) = .error failure ↔
      Stage.alphasRead.Fails files i failure ∨ Stage.alphasListed.Fails files i failure := by
  constructor
  · intro failed
    cases named : i.path? .alphas with
    | none =>
      rw [named] at failed
      cases failed
    | some path =>
      rw [named] at failed
      rcases bind_eq_error.mp failed with unread | ⟨text, read, unlisted⟩
      · obtain ⟨reason, missing, rfl⟩ := mapError_eq_error.mp unread
        exact Or.inl (.alphasRead named missing)
      · cases decoded : AlphaListing.ofText? text with
        | some alphas =>
          rw [decoded] at unlisted
          cases unlisted
        | none =>
          rw [decoded] at unlisted
          cases unlisted
          exact Or.inr (.alphasListed named (mapError_eq_ok.mp read) decoded)
  · rintro (fails | fails)
    · cases fails with
      | alphasRead named unread =>
        rw [named]
        exact bind_eq_error.mpr (Or.inl (mapError_eq_error.mpr ⟨_, unread, rfl⟩))
    · cases fails with
      | alphasListed named read undecoded =>
        rw [named]
        refine bind_eq_error.mpr (Or.inr ⟨_, mapError_eq_ok.mpr read, ?_⟩)
        rw [undecoded]

/-- What a run works with: the settings are the default ones or those in the file, but for a depth
limit in the environment, and the catalog and the listing are read off the files that are named. -/
structure Loads (files : Files) (env : Environment) (i : Invocation) (s : Session) : Prop where
  settings : ∃ base : Settings,
    (∀ path, i.path? .config = some path → ∃ text, files path = .ok text ∧
      SettingsDocument.ofText? text = some base.toSettingsDocument) ∧
    (i.path? .config = none → base = .default) ∧
    s.settings.toSettingsDocument =
      { base.toSettingsDocument with
        depthLimit := (env.depthLimit.bind Settings.readDepthLimit?).getD base.depthLimit }
  vocabulary : ∃ path text catalog, i.path? .operators = some path ∧ files path = .ok text ∧
    Catalog.operatorsOfText? text = some catalog.operators ∧
    s.vocabulary = .ofCatalog catalog s.settings
  listing : ∀ path, i.path? .alphas = some path → ∃ text alphas, files path = .ok text ∧
    AlphaListing.ofText? text = some alphas ∧ s.listing = some alphas
  unlisted : i.path? .alphas = none → s.listing = none

theorem loads_of_start (started : start files env i = .ok s) : s.Loads files env i := by
  obtain ⟨base, read, started⟩ := bind_eq_ok.mp started
  obtain ⟨catalog, listed, started⟩ := bind_eq_ok.mp started
  obtain ⟨listing, alphas, started⟩ := bind_eq_ok.mp started
  cases started
  constructor
  · refine ⟨base, fun path named => ?_, fun unnamed => ?_, base.withEnvironment_eq _⟩
    · rw [named] at read
      exact Settings.load_eq_ok_iff.mp (mapError_eq_ok.mp read)
    · rw [unnamed] at read
      cases read
      rfl
  · cases named : i.path? .operators with
    | none =>
      rw [named] at listed
      cases listed
    | some path =>
      rw [named] at listed
      obtain ⟨text, read, listed⟩ := bind_eq_ok.mp listed
      exact ⟨path, text, catalog, rfl, mapError_eq_ok.mp read,
        Catalog.ofText_eq_ok_iff.mp (mapError_eq_ok.mp listed), rfl⟩
  · intro path named
    rw [named] at alphas
    obtain ⟨text, read, alphas⟩ := bind_eq_ok.mp alphas
    cases decoded : AlphaListing.ofText? text with
    | none =>
      rw [decoded] at alphas
      cases alphas
    | some items =>
      rw [decoded] at alphas
      cases alphas
      exact ⟨text, items, mapError_eq_ok.mp read, decoded, rfl⟩
  · intro unnamed
    rw [unnamed] at alphas
    cases alphas
    rfl

theorem Loads.listing_eq_none_iff (loads : s.Loads files env i) :
    s.listing = none ↔ i.path? .alphas = none := by
  refine ⟨fun unlisted => ?_, loads.unlisted⟩
  cases named : i.path? .alphas with
  | none => rfl
  | some path =>
    obtain ⟨_, _, _, _, listed⟩ := loads.listing path named
    rw [unlisted] at listed
    cases listed

/-- The text is the report of the command. -/
inductive Reports (s : Session) (json : Bool) : Command → String → Prop where
  | check (input : String) {text : String} {report : FieldReport}
      (same : report = FormulaFields.check s.vocabulary s.settings.platform s.listing input)
      (shown : Shows report.IsDocument (report.Tells s.settings.platform) json text) :
      Reports s json (.check input) text
  | lookup (fields : List String) {text : String} {alphas : List Alpha} {report : MatchReport}
      (listed : s.listing = some alphas)
      (same : report = FormulaFields.lookup s.vocabulary alphas fields)
      (shown : Shows report.IsDocument (report.Tells s.settings.platform) json text) :
      Reports s json (.lookup fields) text

theorem answer_check (s : Session) (json : Bool) (input : String) :
    let report := FormulaFields.check s.vocabulary s.settings.platform s.listing input
    s.answer json (.check input) =
      .ok (printed json report.toValue (report.lines s.settings.platform)) :=
  rfl

theorem answer_lookup {alphas : List Alpha} (listed : s.listing = some alphas) (json : Bool)
    (fields : List String) :
    let report := FormulaFields.lookup s.vocabulary alphas fields
    s.answer json (.lookup fields) =
      .ok (printed json report.toValue (report.lines s.settings.platform)) := by
  rw [answer, listed]

/-- What a command prints is its report, and there is no other text of it. -/
theorem reports_iff {json : Bool} {command : Command} {text : String} :
    s.Reports json command text ↔ s.answer json command = .ok text := by
  constructor
  · intro reports
    cases reports with
    | check input same shown =>
      rw [answer_check, ← same, shows_fieldReport_iff.mp shown]
    | lookup fields listed same shown =>
      rw [answer_lookup listed, ← same, shows_matchReport_iff.mp shown]
  · intro answered
    cases command with
    | check input =>
      rw [answer_check, Except.ok.injEq] at answered
      exact .check input rfl (shows_fieldReport_iff.mpr answered.symm)
    | lookup fields =>
      cases listed : s.listing with
      | none =>
        rw [answer, listed] at answered
        cases answered
      | some alphas =>
        rw [answer_lookup listed, Except.ok.injEq] at answered
        exact .lookup fields listed rfl (shows_matchReport_iff.mpr answered.symm)

theorem outcome_of_answer {text : String} (answered : s.answer i.json i.command = .ok text) :
    s.outcome i = .ok { code := 0, stdout := text, warnings := s.warnings i.command } := by
  rw [outcome, answered]
  rfl

theorem outcome_eq_error_iff :
    s.outcome i = .error failure ↔ s.answer i.json i.command = .error failure := by
  rw [outcome]
  cases s.answer i.json i.command <;> simp [bind, Except.bind, pure, Except.pure]

end Session

/-! ### The first failure -/

namespace Stage

variable {files : Files} {env : Environment} {i : Invocation} {stage : Stage} {failure : Failure}

/-- No stage before this one fails. -/
def Reached (files : Files) (i : Invocation) (stage : Stage) : Prop :=
  ∀ earlier : Stage, earlier.place < stage.place → ∀ failure, ¬ earlier.Fails files i failure

/-- Of the stages that fail one is the first. -/
theorem exists_first (fails : stage.Fails files i failure) :
    ∃ first failure, Fails files i first failure ∧ first.Reached files i := by
  induction place : stage.place using Nat.strong_induction_on generalizing stage failure with
  | _ n ih =>
    by_cases reached : stage.Reached files i
    · exact ⟨stage, failure, fails, reached⟩
    · simp only [Reached, not_forall, not_not] at reached
      obtain ⟨earlier, before, other, sooner⟩ := reached
      exact ih earlier.place (place ▸ before) sooner rfl

theorem exists_settings (reached : stage.Reached files i) (behind : settings.place < stage.place) :
    ∃ base, Session.readSettings files (i.path? .config) = .ok base :=
  exists_ok fun _ failed =>
    reached .settings behind _ (Session.readSettings_eq_error_iff.mp failed)

theorem exists_catalog (reached : stage.Reached files i)
    (behind : operatorsListed.place < stage.place) :
    ∃ catalog, Session.readCatalog files (i.path? .operators) = .ok catalog := by
  apply exists_ok
  intro failure failed
  simp only [place] at behind
  rcases Session.readCatalog_eq_error_iff.mp failed with fails | fails | fails
  · exact reached .operatorsNamed (by simp only [place]; omega) _ fails
  · exact reached .operatorsRead (by simp only [place]; omega) _ fails
  · exact reached .operatorsListed (by simp only [place]; omega) _ fails

theorem exists_listing (reached : alphasNamed.Reached files i) :
    ∃ listing, Session.readListing files (i.path? .alphas) = .ok listing := by
  apply exists_ok
  intro failure failed
  rcases Session.readListing_eq_error_iff.mp failed with fails | fails
  · exact reached .alphasRead (by decide) _ fails
  · exact reached .alphasListed (by decide) _ fails

/-- What can only be wanting when all files are read is a listing to look into. -/
theorem exists_session (reached : alphasNamed.Reached files i) :
    ∃ s, Session.start files env i = .ok s := by
  obtain ⟨base, settings⟩ := exists_settings reached (by decide)
  obtain ⟨catalog, listed⟩ := exists_catalog reached (by decide)
  obtain ⟨listing, alphas⟩ := exists_listing reached
  rw [Session.start, settings, listed, alphas]
  exact ⟨_, rfl⟩

theorem start_eq_error_of_catalog (reached : stage.Reached files i)
    (behind : settings.place < stage.place)
    (failed : Session.readCatalog files (i.path? .operators) = .error failure) :
    Session.start files env i = .error failure := by
  obtain ⟨base, settings⟩ := exists_settings reached behind
  rw [Session.start, settings, failed]
  rfl

theorem start_eq_error_of_listing (reached : stage.Reached files i)
    (behind : operatorsListed.place < stage.place)
    (failed : Session.readListing files (i.path? .alphas) = .error failure) :
    Session.start files env i = .error failure := by
  obtain ⟨base, settings⟩ := exists_settings reached (lt_trans (by decide) behind)
  obtain ⟨catalog, listed⟩ := exists_catalog reached behind
  rw [Session.start, settings, listed, failed]
  rfl

/-- A stage that is reached and fails ends the loading, unless it is the one behind it. -/
theorem start_eq_error (fails : stage.Fails files i failure) (reached : stage.Reached files i)
    (loading : stage ≠ .alphasNamed) : Session.start files env i = .error failure := by
  cases stage with
  | settings =>
    rw [Session.start, Session.readSettings_eq_error_iff.mpr fails]
    rfl
  | operatorsNamed =>
    have failed := Session.readCatalog_eq_error_iff.mpr (Or.inl fails)
    exact start_eq_error_of_catalog reached (by decide) failed
  | operatorsRead =>
    have failed := Session.readCatalog_eq_error_iff.mpr (Or.inr (Or.inl fails))
    exact start_eq_error_of_catalog reached (by decide) failed
  | operatorsListed =>
    have failed := Session.readCatalog_eq_error_iff.mpr (Or.inr (Or.inr fails))
    exact start_eq_error_of_catalog reached (by decide) failed
  | alphasRead =>
    have failed := Session.readListing_eq_error_iff.mpr (Or.inl fails)
    exact start_eq_error_of_listing reached (by decide) failed
  | alphasListed =>
    have failed := Session.readListing_eq_error_iff.mpr (Or.inr fails)
    exact start_eq_error_of_listing reached (by decide) failed
  | alphasNamed => exact absurd rfl loading

theorem answer_eq_error {s : Session} (loads : s.Loads files env i)
    (fails : alphasNamed.Fails files i failure) :
    s.answer i.json i.command = .error failure := by
  cases fails with
  | alphasNamed asked unnamed => simp [Session.answer, asked, loads.unlisted unnamed]

end Stage

end FormulaFields.CommandLine
