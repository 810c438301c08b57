import FormulaFields.Proofs.Runs

/-!
Reports as JSON. What a run prints is one document, from which the report can be read: its texts as
they are, its sets of names in order. Main statement: `read?_stdout`.
-/
namespace FormulaFields.CommandLine

/-- A run for JSON prints the report as one document. Of a check it holds the alpha that the input
names, the fields in order, and the alphas that match in order, unless no listing is given; of a
lookup the fields as the command line has them, and the alphas that match in order. -/
theorem read?_stdout {files : Files} {reasons : Reasons} {env : Environment}
    {arguments : List String} {i : Invocation}
    (asked : Invocation.ofArguments env arguments = .ok i) (json : i.json = true)
    (done : (run files env arguments reasons).code = 0) :
    ∃ (parts : List Part) (s : Session), Says arguments parts ∧ i.Follows env parts ∧
      s.Loads files env i ∧
      (∀ input, i.command = .check input →
        ∃ (report : FieldReport) (fields : List String) (matching : Option (List String)),
          report = check s.vocabulary s.settings.platform s.listing input ∧
          Json.read? (run files env arguments reasons).stdout = some (.record
            [("alpha_id", report.alpha.elim .null .text), ("fields", .texts fields),
              ("matching_alphas", matching.elim .null .texts)]) ∧
          NameSet.Lists fields report.fields ∧
          (matching = none ↔ i.path? .alphas = none) ∧
          ∀ ids, matching = some ids →
            ∃ names, report.matching = some names ∧ NameSet.Lists ids names) ∧
      (∀ fields, i.command = .lookup fields →
        ∃ (alphas : List Alpha) (report : MatchReport) (ids : List String),
          s.listing = some alphas ∧ report = lookup s.vocabulary alphas fields ∧
          Json.read? (run files env arguments reasons).stdout = some (.record
            [("fields", .texts fields), ("matching_alphas", .texts ids)]) ∧
          NameSet.Lists ids report.matching) := by
  rw [run_eq_of_asked asked] at done ⊢
  obtain ⟨parts, said, follows⟩ := exists_says asked
  obtain ⟨s, text, loads, answered, ended⟩ := Invocation.exists_answer_of_run done
  refine ⟨parts, s, said, follows, loads, fun input checks => ?_, fun fields looks => ?_⟩
  · rw [json, checks, ← Session.reports_iff] at answered
    cases answered with
    | @check _ _ report same shown =>
      cases shown with
      | document holds read _ =>
        obtain ⟨fields, matching, rfl, listed, unlisted, each⟩ := holds
        have matched : report.matching = none ↔ s.listing = none := by
          rw [same, check, Option.map_eq_none_iff]
        rw [matched, loads.listing_eq_none_iff] at unlisted
        rw [ended]
        exact ⟨report, fields, matching, same, read, listed, unlisted, each⟩
  · rw [json, looks, ← Session.reports_iff] at answered
    cases answered with
    | @lookup _ _ alphas report listed same shown =>
      cases shown with
      | document holds read _ =>
        obtain ⟨ids, rfl, each⟩ := holds
        -- A lookup repeats its fields as they are given.
        have given : report.fields = fields := by rw [same, lookup]
        rw [given] at read
        rw [ended]
        exact ⟨alphas, report, ids, listed, same, read, each⟩

/-- A listing of one alpha, in whose id all characters are escaped. -/
def escapedListing : String :=
  "[\x7b\"id\":\"\\\"\\u0007\\\\\",\"regular\":\x7b\"code\":\"close\"\x7d\x7d]"

def escapedFiles : Files := filesWith escapedListing

def filesEnvironment : Environment where
  path?
    | .operators => some "operators.json"
    | .alphas => some "alphas.json"
    | .config => none
  depthLimit := none

/-- The id is read from the document as it is in the listing. -/
theorem read?_stdout_escaped :
    ∃ i, Invocation.ofArguments filesEnvironment ["--json", "check", "\"\x07\\"] = .ok i ∧
      i.json = true ∧
      (run escapedFiles filesEnvironment ["--json", "check", "\"\x07\\"]).code = 0 ∧
      ∃ fields ids, Json.read?
          (run escapedFiles filesEnvironment ["--json", "check", "\"\x07\\"]).stdout =
        some (.record [("alpha_id", .text "\"\x07\\"), ("fields", .texts fields),
          ("matching_alphas", .texts ids)]) := by
  have done : (run escapedFiles filesEnvironment ["--json", "check", "\"\x07\\"]).code = 0 := by
    decide +kernel
  refine ⟨_, rfl, rfl, done, ?_⟩
  obtain ⟨parts, s, _, _, loads, checks, _⟩ := read?_stdout rfl rfl done
  obtain ⟨report, fields, matching, same, read, _, absent, _⟩ := checks _ rfl
  obtain ⟨base, _, default, stated⟩ := loads.settings
  have platform : s.settings.platform = defaultPlatform := by
    rw [stated, default rfl]
    rfl
  -- What the document says of the alpha depends on the settings and on the listing alone.
  obtain ⟨text, alphas, held, decoded, listed⟩ := loads.listing "alphas.json" rfl
  obtain rfl : escapedListing = text := Except.ok.inj held
  have one : AlphaListing.ofText? escapedListing =
      some [⟨"\"\x07\\", none, some ⟨"close", none⟩⟩] := by decide +kernel
  obtain rfl := Option.some.inj (one.symm.trans decoded)
  have named : (Subject.ofInput defaultPlatform "\"\x07\\"
      [⟨"\"\x07\\", none, some ⟨"close", none⟩⟩]).alpha = some "\"\x07\\" := by decide +kernel
  have alpha : report.alpha = some "\"\x07\\" := by
    rw [same, platform, listed]
    exact named
  obtain ⟨ids, rfl⟩ := Option.ne_none_iff_exists'.mp fun none => nomatch absent.mp none
  rw [alpha] at read
  exact ⟨fields, ids, read⟩

end FormulaFields.CommandLine
