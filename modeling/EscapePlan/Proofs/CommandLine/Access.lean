import EscapePlan.Proofs.CommandLine.Spelling

/-!
# Which files a run may open

Arguments make up a command to analyze if and only if they spell one whose paths do not climb; the
command then has the paths as they are written.  So no run can tell what stands in a file on a
climbing path.
-/

namespace EscapePlan

theorem SafePath.exists_text_iff {text : String} :
    (∃ path : SafePath, path.text = text) ↔ ¬ Path.Climbs text := by
  rw [← Path.parent_mem_components_iff]
  exact ⟨fun ⟨path, same⟩ => same ▸ path.stays, fun stays => ⟨⟨text, stays⟩, rfl⟩⟩

namespace Command

theorem ofConfigArguments_ne_analyze {arguments : List String} {file : SafePath}
    {config : Option SafePath} {format : OutputFormat} :
    ofConfigArguments arguments ≠ .ok (.analyze file config format) := by
  cases arguments with
  | nil => nofun
  | cons argument rest =>
      rw [ofConfigArguments]
      split
      next => split <;> nofun
      next => nofun
      next => nofun
      next => nofun
      next => nofun

/-- A command to analyze is what some spelling of its parts asks for. -/
theorem ofArguments_eq_analyze_iff {arguments : List String} {file : SafePath}
    {config : Option SafePath} {format : OutputFormat} :
    ofArguments arguments = .ok (.analyze file config format) ↔
      ∃ rest form, arguments = "analyze" :: rest ∧
        Requests rest (some file.text) (config.map (·.text)) form ∧ form.getD .text = format := by
  have settled : AnalyzeDraft.Settled {} := rfl
  constructor
  · intro reads
    obtain ⟨rest, rfl⟩ : ∃ rest, arguments = "analyze" :: rest := by
      unfold ofArguments at reads
      split at reads
      next rest => cases reads
      next rest => exact ⟨rest, rfl⟩
      next rest => exact absurd reads ofConfigArguments_ne_analyze
      all_goals cases reads
    obtain ⟨_, _, spelledForm, form, requests, joins, sameForm⟩ :=
      AnalyzeDraft.exists_requests_of_read settled reads
    rw [← AnalyzeDraft.none_joined_iff.1 joins.file, ← AnalyzeDraft.none_joined_iff.1 joins.config,
      ← AnalyzeDraft.none_joined_iff.1 joins.form] at requests
    exact ⟨rest, form, rfl, requests, sameForm⟩
  · rintro ⟨rest, form, rfl, requests, rfl⟩
    exact AnalyzeDraft.read_of_requests requests settled ⟨.after _, .after _, .after _⟩

/-- A command depends on no files but its own. -/
theorem run_congr {contents others : String → FileContent} {command : Command}
    (agree : ∀ path ∈ command.files, contents path.text = others path.text) :
    command.run contents = command.run others := by
  cases command with
  | config => rfl
  | analyze file config format =>
      have sameFile : contents file.text = others file.text :=
        agree file (List.mem_append_right _ (List.mem_singleton.2 rfl))
      have sameConfig : loadConfig contents config = loadConfig others config := by
        cases config with
        | none => rfl
        | some path =>
            rw [loadConfig, loadConfig, agree path (List.mem_append_left _ (List.mem_singleton.2 rfl))]
      rw [run, run, runAnalyze, runAnalyze, sameFile, sameConfig]

/-- The analysis of a file is asked for if and only if some spelling of it asks for it and no path
climbs; the paths are taken as they are written. -/
theorem exists_analyze_iff {arguments : List String} {file : String} {config : Option String}
    {format : OutputFormat} :
    (∃ path settings, ofArguments arguments = .ok (.analyze path settings format) ∧
        path.text = file ∧ settings.map (·.text) = config) ↔
      (∃ rest form, arguments = "analyze" :: rest ∧ Requests rest (some file) config form ∧
        form.getD .text = format) ∧
      ¬ Path.Climbs file ∧ ∀ path ∈ config, ¬ Path.Climbs path := by
  constructor
  · rintro ⟨path, settings, reads, rfl, rfl⟩
    refine ⟨ofArguments_eq_analyze_iff.1 reads, path.not_climbs, fun text listed => ?_⟩
    obtain ⟨given, -, rfl⟩ := Option.map_eq_some_iff.1 listed
    exact given.not_climbs
  · rintro ⟨spelled, stays, configStays⟩
    obtain ⟨path, rfl⟩ := SafePath.exists_text_iff.2 stays
    obtain ⟨settings, rfl⟩ : ∃ settings : Option SafePath, settings.map (·.text) = config := by
      cases config with
      | none => exact ⟨none, rfl⟩
      | some text =>
          obtain ⟨given, rfl⟩ := SafePath.exists_text_iff.2 (configStays text rfl)
          exact ⟨some given, rfl⟩
    exact ⟨path, settings, ofArguments_eq_analyze_iff.2 spelled, rfl, rfl⟩

end Command

/-- A run cannot tell what stands in files on climbing paths. -/
theorem runProgram_congr {contents others : String → FileContent} {arguments : List String}
    (agree : ∀ path, ¬ Path.Climbs path → contents path = others path) :
    runProgram contents arguments = runProgram others arguments := by
  rw [runProgram, runProgram]
  split
  next command _ => exact Command.run_congr fun path _ => agree path.text path.not_climbs
  next => rfl

/-- However the analysis of a file is asked for, its paths are the texts that are written, and none
of them climbs.  So no file on a climbing path is of any account.  Refused are the climbing paths,
and no others. -/
theorem climbing_paths_stay_closed (arguments : List String) :
    (∀ (file : String) (config : Option String) (format : OutputFormat),
      (∃ path settings, Command.ofArguments arguments = .ok (.analyze path settings format) ∧
          path.text = file ∧ settings.map (·.text) = config) ↔
        (∃ rest form, arguments = "analyze" :: rest ∧ Requests rest (some file) config form ∧
          form.getD .text = format) ∧
        ¬ Path.Climbs file ∧ ∀ path ∈ config, ¬ Path.Climbs path) ∧
    (∀ contents others : String → FileContent,
      (∀ path, ¬ Path.Climbs path → contents path = others path) →
        runProgram contents arguments = runProgram others arguments) ∧
    ∀ text, (SafePath.ofText text = .error (SafePath.refusal text) ↔ Path.Climbs text) ∧
      ((∃ path, SafePath.ofText text = .ok path ∧ path.text = text) ↔ ¬ Path.Climbs text) := by
  refine ⟨fun file config format => Command.exists_analyze_iff,
    fun contents others => runProgram_congr, fun text => ⟨SafePath.ofText_eq_error_iff text, ?_⟩⟩
  rw [← SafePath.exists_text_iff]
  exact exists_congr fun path => and_iff_right_of_imp SafePath.ofText_eq_ok_iff.2

/-- After a double dash even a text that begins with dashes is a path, and a configuration that is
attached may be called `...`.  What stands in `../x` is of no account. -/
theorem climbing_paths_stay_closed_after_dash :
    (∃ path settings, Command.ofArguments ["analyze", "--config=...", "--", "--a..b/x"] =
        .ok (.analyze path settings .text) ∧
      path.text = "--a..b/x" ∧ settings.map (·.text) = some "...") ∧
    runProgram (fun _ => .error .missing) ["analyze", "--config=...", "--", "--a..b/x"] =
      runProgram (fun path => if path = "../x" then .ok .empty else .error .missing)
        ["analyze", "--config=...", "--", "--a..b/x"] := by
  have stays := climbing_paths_stay_closed ["analyze", "--config=...", "--", "--a..b/x"]
  constructor
  · have requests : Requests ["--config=...", "--", "--a..b/x"] (some "--a..b/x") (some "...") none :=
      @Requests.attachedConfig _ _ "..." _ .dashFile
    exact (stays.1 _ _ _).2 ⟨⟨_, none, rfl, requests, rfl⟩, by decide, by decide⟩
  · refine stays.2.1 _ _ fun path notClimbing => ?_
    rw [if_neg]
    rintro rfl
    exact notClimbing (by decide)

example : Path.Climbs "a//../b" ∧ Path.Climbs "/.." ∧ ¬ Path.Climbs "a..b/.../..x/." := by decide

end EscapePlan
