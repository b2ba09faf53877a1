import EscapePlan.CommandLine.Program
import EscapePlan.Proofs.CommandLine.Paths

/-!
# How an analysis is asked for

`Requests` says which arguments ask for the analysis of a file: the file may stand anywhere, also after
a double dash, and options may come in any order, each with its value behind it or attached to it.
Just these arguments are read as a command to analyze, and the command has the paths as they are
written.  None of them climbs, so what stands in files on climbing paths is of no account.
-/

namespace EscapePlan

/-! ## Forms of arguments -/

/-- An argument that is no option: it does not begin with a dash, unless it is a lone one. -/
def IsPlain (argument : String) : Prop :=
  ∀ rest, argument.toList = '-' :: rest → rest = []

namespace ArgumentForm

theorem of_eq_plain_iff {argument : String} : of argument = .plain ↔ IsPlain argument := by
  rw [of, IsPlain]
  split
  next same => simp [same]
  next rest _ same =>
    refine iff_of_false ?_ fun plain => ?_
    · dsimp only
      split <;> nofun
    · cases plain _ same
  next letter rest _ _ same =>
    refine iff_of_false nofun fun plain => ?_
    cases plain _ same
  next _ _ noDash =>
    refine iff_of_true rfl fun rest same => ?_
    cases rest with
    | nil => rfl
    | cons letter rest => exact absurd same (noDash letter rest)

theorem eq_of_doubleDash {argument : String} (form : of argument = .doubleDash) :
    argument = "--" := by
  rw [of] at form
  split at form
  next same => exact String.toList_inj.1 same
  next =>
    dsimp only at form
    split at form <;> contradiction
  next => contradiction
  next => contradiction

/-- An option is written after two dashes, and the value attached to it after an equals sign. -/
theorem eq_of_long {argument name : String} {attached : Option String}
    (form : of argument = .long name attached) :
    argument = "--" ++ name ++ attached.elim "" ("=" ++ ·) := by
  rw [of] at form
  split at form
  next => contradiction
  next rest _ same =>
    have parts := List.takeWhile_append_dropWhile (p := (· ≠ '=')) (l := rest)
    have first := List.head?_dropWhile_not (· ≠ '=') rest
    apply String.toList_inj.1
    dsimp only at form
    split at form
    next equals value behind =>
      rw [behind] at parts first
      cases form
      simp at first
      subst first
      simp only [same, String.toList_append, String.toList_ofList, Option.elim]
      exact congrArg ('-' :: '-' :: ·) parts.symm
    next behind =>
      rw [behind, List.append_nil] at parts
      cases form
      simp only [same, String.toList_append, String.toList_ofList, Option.elim]
      exact congrArg ('-' :: '-' :: ·) (parts.symm.trans (List.append_nil _).symm)
  next => contradiction
  next => contradiction

/-- An option of a name without an equals sign, written with a value attached to it. -/
theorem of_attached {name : List Char} (noEquals : '=' ∉ name) (letters : name ≠ [])
    (value : String) :
    of ("--" ++ String.ofList name ++ "=" ++ value) = .long (String.ofList name) (some value) := by
  have before : ∀ char ∈ name, decide (char ≠ '=') = true := fun char listed =>
    decide_eq_true fun same => noEquals (same ▸ listed)
  have takes : (name ++ '=' :: value.toList).takeWhile (· ≠ '=') = name := by
    rw [List.takeWhile_append_of_pos before, List.takeWhile_cons_of_neg (by simp), List.append_nil]
  have drops : (name ++ '=' :: value.toList).dropWhile (· ≠ '=') = '=' :: value.toList := by
    rw [List.dropWhile_append_of_pos before, List.dropWhile_cons_of_neg (by simp)]
  have chars : ("--" ++ String.ofList name ++ "=" ++ value).toList =
      '-' :: '-' :: (name ++ '=' :: value.toList) := by
    simp only [String.toList_append, String.toList_ofList, List.append_assoc]
    rfl
  obtain ⟨first, rest, rfl⟩ := List.exists_cons_of_ne_nil letters
  rw [List.cons_append] at takes drops
  simp only [of, chars, List.cons_append, takes, drops, String.ofList_toList]

end ArgumentForm

theorem OutputFormat.ofName?_eq_some_iff {name : String} {form : OutputFormat} :
    ofName? name = some form ↔ form.name = name := by
  cases form <;> simp only [ofName?, List.find?, OutputFormat.name] <;> grind

/-! ## Spellings -/

/-- Arguments spell a file, the path of a configuration and the form of the output, as far as these
are given. -/
inductive Requests : List String → Option String → Option String → Option OutputFormat → Prop where
  | nil : Requests [] none none none
  | file {rest : List String} {file : String} {config : Option String} {form : Option OutputFormat} :
      IsPlain file → Requests rest none config form → Requests (file :: rest) (some file) config form
  | config {rest : List String} {file : Option String} {path : String}
      {form : Option OutputFormat} :
      IsPlain path → Requests rest file none form →
      Requests ("--config" :: path :: rest) file (some path) form
  | attachedConfig {rest : List String} {file : Option String} {path : String}
      {form : Option OutputFormat} :
      Requests rest file none form → Requests (("--config=" ++ path) :: rest) file (some path) form
  | format {rest : List String} {file config : Option String} {form : OutputFormat} :
      Requests rest file config none →
      Requests ("--format" :: form.name :: rest) file config (some form)
  | attachedFormat {rest : List String} {file config : Option String} {form : OutputFormat} :
      Requests rest file config none →
      Requests (("--format=" ++ form.name) :: rest) file config (some form)
  | dash : Requests ["--"] none none none
  /-- After a double dash a file may be called anything. -/
  | dashFile {file : String} : Requests ["--", file] (some file) none none

/-! ## What a draft takes -/

namespace AnalyzeDraft

/-- A draft takes what has come, once that has been checked. -/
inductive Takes (draft : AnalyzeDraft) : Unchecked → AnalyzeDraft → Prop where
  | file (path : SafePath) : Takes draft (.file path.text) { draft with file := some path }
  | config (path : SafePath) : draft.config = none →
      Takes draft (.option .config (some path.text)) { draft with config := some path }
  | format (form : OutputFormat) : draft.format = none →
      Takes draft (.option .format (some form.name)) { draft with format := some form }

variable {draft next : AnalyzeDraft} {afterDash : Bool} {argument : String}
  {arguments : List String} {command : Command} {given : Unchecked}

theorem checkPath_eq_ok_iff {value : String} {path : SafePath} :
    checkPath value = .ok path ↔ path.text = value := by
  rw [← SafePath.ofText_eq_ok_iff, checkPath]
  cases SafePath.ofText value with
  | error fault => exact iff_of_false nofun nofun
  | ok found =>
      have outcome : (Except.ok found).mapError ArgumentError.refusedPath = .ok found := rfl
      rw [outcome, Except.ok.injEq, Except.ok.injEq]

theorem setOption_eq_ok_iff {option : ValueOption} {value : Option String} :
    draft.setOption option value = .ok next ↔ draft.Takes (.option option value) next := by
  constructor
  · intro set
    cases value with
    | none => cases option <;> cases set
    | some value =>
        cases option with
        | config =>
            rw [setOption] at set
            split at set
            next => cases set
            next vacant =>
              rcases checked : checkPath value with fault | path
              · rw [checked] at set
                cases set
              · rw [checked] at set
                cases set
                rw [← checkPath_eq_ok_iff.1 checked]
                exact .config path (by simpa using vacant)
        | format =>
            rw [setOption] at set
            split at set
            next => cases set
            next vacant =>
              split at set
              next => cases set
              next form named =>
                cases set
                rw [← OutputFormat.ofName?_eq_some_iff.1 named]
                exact .format form (by simpa using vacant)
  · intro takes
    cases takes with
    | config path vacant =>
        rw [setOption, vacant, checkPath_eq_ok_iff.2 rfl]
        rfl
    | format form vacant =>
        rw [setOption, vacant, OutputFormat.ofName?_eq_some_iff.2 rfl]
        rfl

/-- Nothing is left unchecked. -/
def Settled (draft : AnalyzeDraft) : Prop :=
  draft.unchecked = none

theorem Takes.settled (takes : draft.Takes given next) (settled : draft.Settled) : next.Settled := by
  cases takes <;> exact settled

theorem Settled.settle (settled : draft.Settled) : draft.settle = .ok draft := by
  rw [AnalyzeDraft.settle, settled]
  exact congrArg Except.ok (by rw [← settled])

/-- A settled draft after something has come. -/
def awaiting (draft : AnalyzeDraft) (given : Unchecked) : AnalyzeDraft :=
  { draft with unchecked := some given }

theorem settle_awaiting_iff (settled : draft.Settled) :
    (draft.awaiting given).settle = .ok next ↔ draft.Takes given next := by
  have same : { draft with unchecked := none } = draft := by rw [← settled]
  cases given with
  | option option value =>
      rw [← setOption_eq_ok_iff]
      exact iff_of_eq (congrArg (·.setOption option value = .ok next) same)
  | file value =>
      have settles : (draft.awaiting (.file value)).settle =
          (checkPath value).map fun path => { draft with file := some path, unchecked := none } := by
        show (checkPath value >>= fun path => pure _) = _
        cases checkPath value <;> rfl
      rw [settles]
      constructor
      · intro took
        rcases checked : checkPath value with fault | path
        · rw [checked] at took
          cases took
        · rw [checked] at took
          cases took
          rw [← checkPath_eq_ok_iff.1 checked, ← settled]
          exact .file path
      · intro takes
        cases takes with
        | file path =>
            rw [checkPath_eq_ok_iff.2 rfl, ← settled]
            rfl

/-! ## Reading on -/

/-- Reads the arguments that are left. -/
def read (draft : AnalyzeDraft) (afterDash : Bool) (arguments : List String) :
    Except ArgumentError Command := do
  (← draft.addArguments afterDash arguments).finish

/-- What is unchecked can be checked: it is no option without its value. -/
def Whole (draft : AnalyzeDraft) : Prop :=
  ∀ option, draft.unchecked ≠ some (.option option none)

variable {fault : ArgumentError}

theorem addArgument_plain (plain : IsPlain argument) (whole : draft.Whole) :
    draft.addArgument argument = draft.addFile argument := by
  rw [addArgument, ArgumentForm.of_eq_plain_iff.2 plain]
  dsimp only
  split
  next option same => exact absurd same (whole option)
  next => rfl

/-- Nothing is read on from what cannot be checked. -/
theorem addFile_ne_ok (fails : draft.settle = .error fault) : draft.addFile argument ≠ .ok next := by
  rw [addFile, fails]
  split <;> nofun

theorem addArgument_ne_ok (fails : draft.settle = .error fault)
    (checked : IsPlain argument → draft.Whole) (noDash : argument ≠ "--") :
    draft.addArgument argument ≠ .ok next := by
  rw [addArgument, fails]
  split
  next =>
    split
    · nofun
    · nofun
    · nofun
    · split <;> nofun
  next => split <;> nofun
  next noLong noShort =>
    have plain : IsPlain argument := by
      rw [← ArgumentForm.of_eq_plain_iff]
      cases form : ArgumentForm.of argument with
      | doubleDash => exact absurd (ArgumentForm.eq_of_doubleDash form) noDash
      | long name attached => exact absurd form (noLong name attached)
      | short letter => exact absurd form (noShort letter)
      | plain => rfl
    split
    next option same => exact absurd same (checked plain option)
    next => exact addFile_ne_ok fails

theorem finish_ne_ok (fails : draft.settle = .error fault) : draft.finish ≠ .ok command := by
  rw [finish, fails]
  nofun

theorem read_nil : draft.read afterDash [] = draft.finish := by
  cases afterDash <;> rfl

theorem read_true_cons : draft.read true (argument :: arguments) =
    draft.addFile argument >>= (·.read true arguments) := by
  rw [read, addArguments]
  cases draft.addFile argument <;> rfl

theorem read_dash : draft.read false ("--" :: arguments) = draft.read true arguments := rfl

theorem read_false_cons (noDash : argument ≠ "--") : draft.read false (argument :: arguments) =
    draft.addArgument argument >>= (·.read false arguments) := by
  rw [read, addArguments, if_neg noDash]
  cases draft.addArgument argument <;> rfl

theorem read_true_ne_ok (fails : draft.settle = .error fault) :
    draft.read true arguments ≠ .ok command := by
  intro reads
  cases arguments with
  | nil => exact finish_ne_ok fails (read_nil ▸ reads)
  | cons argument rest =>
      rw [read_true_cons] at reads
      rcases added : draft.addFile argument with fault | next
      · rw [added] at reads
        cases reads
      · exact addFile_ne_ok fails added

theorem read_ne_ok (fails : draft.settle = .error fault) (whole : draft.Whole) :
    draft.read afterDash arguments ≠ .ok command := by
  intro reads
  cases afterDash with
  | true => exact read_true_ne_ok fails reads
  | false =>
      rcases arguments with - | ⟨argument, rest⟩
      · exact finish_ne_ok fails (read_nil ▸ reads)
      · by_cases dash : argument = "--"
        · subst dash
          exact read_true_ne_ok fails (read_dash ▸ reads)
        · rw [read_false_cons dash] at reads
          rcases added : draft.addArgument argument with fault | next
          · rw [added] at reads
            cases reads
          · exact addArgument_ne_ok fails (fun _ => whole) dash added

/-! What has come may as well have been checked at once. -/

section

variable (settled : draft.Settled) (takes : draft.Takes given next)
include settled takes

theorem hasFile_awaiting : (draft.awaiting given).hasFile = next.hasFile := by
  have none_ : draft.unchecked = none := settled
  cases takes <;> simp [hasFile, awaiting, none_]

omit settled in
theorem whole_awaiting : (draft.awaiting given).Whole := by
  rintro option ⟨⟩
  cases takes

theorem addFile_awaiting : (draft.awaiting given).addFile argument = next.addFile argument := by
  rw [addFile, addFile, hasFile_awaiting settled takes, (settle_awaiting_iff settled).2 takes,
    (takes.settled settled).settle]

theorem addArgument_awaiting :
    (draft.awaiting given).addArgument argument = next.addArgument argument := by
  have nothing : next.unchecked = none := takes.settled settled
  have whole := whole_awaiting takes
  rw [addArgument, addArgument, (settle_awaiting_iff settled).2 takes,
    (takes.settled settled).settle, addFile_awaiting settled takes, nothing]
  split
  next => rfl
  next => rfl
  next =>
    dsimp only
    split
    next option same => exact absurd same (whole option)
    next => rfl

theorem read_awaiting :
    (draft.awaiting given).read afterDash arguments = next.read afterDash arguments := by
  have finish_ : (draft.awaiting given).finish = next.finish := by
    rw [finish, finish, (settle_awaiting_iff settled).2 takes, (takes.settled settled).settle]
  have afterwards (rest : List String) :
      (draft.awaiting given).read true rest = next.read true rest := by
    cases rest with
    | nil => rw [read_nil, read_nil, finish_]
    | cons argument rest =>
        rw [read_true_cons, read_true_cons, addFile_awaiting settled takes]
  cases afterDash with
  | true => exact afterwards arguments
  | false =>
      rcases arguments with - | ⟨argument, rest⟩
      · rw [read_nil, read_nil, finish_]
      · by_cases dash : argument = "--"
        · subst dash
          exact afterwards rest
        · rw [read_false_cons dash, read_false_cons dash, addArgument_awaiting settled takes]

end

/-- What has come is read on from if and only if it can be taken. -/
theorem read_awaiting_iff (settled : draft.Settled) (whole : (draft.awaiting given).Whole) :
    (draft.awaiting given).read afterDash arguments = .ok command ↔
      ∃ next, draft.Takes given next ∧ next.read afterDash arguments = .ok command := by
  constructor
  · intro reads
    rcases settles : (draft.awaiting given).settle with fault | next
    · exact absurd reads (read_ne_ok settles whole)
    · have takes := (settle_awaiting_iff settled).1 settles
      exact ⟨next, takes, read_awaiting settled takes ▸ reads⟩
  · rintro ⟨next, takes, reads⟩
    exact (read_awaiting settled takes).trans reads

/-! ## Arguments, one after the other -/

section

variable (settled : draft.Settled)
include settled

/-- A plain argument is the file, if none has come. -/
theorem read_plain_iff (plain : IsPlain argument) :
    draft.read false (argument :: arguments) = .ok command ↔
      draft.file = none ∧ ∃ next, draft.Takes (.file argument) next ∧
        next.read false arguments = .ok command := by
  have noDash : argument ≠ "--" := by
    rintro rfl
    cases plain _ rfl
  have whole : draft.Whole := fun option same => by cases settled.symm.trans same
  have present : draft.hasFile = draft.file.isSome := by
    rw [hasFile, show draft.unchecked = none from settled, Bool.or_false]
  rw [read_false_cons noDash, addArgument_plain plain whole, addFile, present, settled.settle]
  cases draft.file with
  | some file => exact iff_of_false nofun fun both => nomatch both.1
  | none =>
      rw [and_iff_right rfl]
      exact read_awaiting_iff settled nofun

/-- An option that stands apart takes the plain argument behind it. -/
theorem read_option_iff {name : String} {option : ValueOption}
    (form : ArgumentForm.of argument = .long name none)
    (known : ValueOption.ofName? name = some option) :
    draft.read false (argument :: arguments) = .ok command ↔
      ∃ value rest, arguments = value :: rest ∧ IsPlain value ∧
        ∃ next, draft.Takes (.option option (some value)) next ∧
          next.read false rest = .ok command := by
  have noDash : argument ≠ "--" := by
    rintro rfl
    cases form
  have added : draft.addArgument argument = .ok (draft.awaiting (.option option none)) := by
    rw [addArgument, form]
    dsimp only
    rw [known, settled.settle]
    rfl
  have fails : ∃ fault, (draft.awaiting (.option option none)).settle = .error fault := by
    cases option <;> exact ⟨_, rfl⟩
  have filled {value : String} (plain : IsPlain value) :
      (draft.awaiting (.option option none)).addArgument value =
        .ok (draft.awaiting (.option option (some value))) := by
    rw [addArgument, ArgumentForm.of_eq_plain_iff.2 plain]
    rfl
  have takesFrom (value : String) (rest : List String) :
      (draft.awaiting (.option option (some value))).read false rest = .ok command ↔
        ∃ next, draft.Takes (.option option (some value)) next ∧ next.read false rest = .ok command :=
    read_awaiting_iff settled (by rintro _ ⟨⟩)
  rcases fails with ⟨fault, fails⟩
  rw [read_false_cons noDash, added]
  show (draft.awaiting (.option option none)).read false arguments = .ok command ↔ _
  constructor
  · intro reads
    rcases arguments with - | ⟨value, rest⟩
    · exact absurd (read_nil ▸ reads) (finish_ne_ok fails)
    · by_cases dash : value = "--"
      · subst dash
        exact absurd (read_dash ▸ reads) (read_true_ne_ok fails)
      · rw [read_false_cons dash] at reads
        by_cases plain : IsPlain value
        · rw [filled plain] at reads
          exact ⟨value, rest, rfl, plain, (takesFrom value rest).1 reads⟩
        · rcases more : (draft.awaiting (.option option none)).addArgument value with fault | next
          · rw [more] at reads
            cases reads
          · exact absurd more (addArgument_ne_ok fails (fun isPlain => absurd isPlain plain) dash)
  · rintro ⟨value, rest, rfl, plain, taken⟩
    have noDash : value ≠ "--" := by
      rintro rfl
      cases plain _ rfl
    rw [read_false_cons noDash, filled plain]
    exact (takesFrom value rest).2 taken

/-- An option with a value attached takes it. -/
theorem read_attached_iff {name value : String} {option : ValueOption}
    (form : ArgumentForm.of argument = .long name (some value))
    (known : ValueOption.ofName? name = some option) :
    draft.read false (argument :: arguments) = .ok command ↔
      ∃ next, draft.Takes (.option option (some value)) next ∧
        next.read false arguments = .ok command := by
  have noDash : argument ≠ "--" := by
    rintro rfl
    cases form
  have added : draft.addArgument argument = draft.setOption option (some value) := by
    rw [addArgument, form]
    dsimp only
    rw [known, settled.settle]
    rfl
  rw [read_false_cons noDash, added]
  constructor
  · intro reads
    rcases set : draft.setOption option (some value) with fault | next
    · rw [set] at reads
      cases reads
    · rw [set] at reads
      exact ⟨next, setOption_eq_ok_iff.1 set, reads⟩
  · rintro ⟨next, takes, reads⟩
    rw [setOption_eq_ok_iff.2 takes]
    exact reads

/-- Nothing else is read as part of a command to analyze. -/
theorem exists_option_of_read (noDash : argument ≠ "--") (noPlain : ¬ IsPlain argument)
    (reads : draft.read false (argument :: arguments) = .ok command) :
    ∃ name attached option, ArgumentForm.of argument = .long name attached ∧
      ValueOption.ofName? name = some option := by
  rw [read_false_cons noDash] at reads
  rcases added : draft.addArgument argument with fault | next
  · rw [added] at reads
    cases reads
  · cases form : ArgumentForm.of argument with
    | doubleDash => exact absurd (ArgumentForm.eq_of_doubleDash form) noDash
    | plain => exact absurd (ArgumentForm.of_eq_plain_iff.1 form) noPlain
    | short letter =>
        rw [addArgument, form, settled.settle] at added
        dsimp only at added
        split at added <;> cases added
    | long name attached =>
        cases known : ValueOption.ofName? name with
        | some option => exact ⟨name, attached, option, rfl, known⟩
        | none =>
            rw [addArgument, form, settled.settle] at added
            dsimp only at added
            rw [known] at added
            cases attached with
            | some value => cases added
            | none =>
                dsimp only at added
                split at added <;> cases added

/-- After a double dash there is nothing but the file. -/
theorem read_true_iff : draft.read true arguments = .ok command ↔
    arguments = [] ∧ draft.finish = .ok command ∨
      ∃ file, arguments = [file] ∧ draft.file = none ∧
        ∃ next, draft.Takes (.file file) next ∧ next.finish = .ok command := by
  have present : draft.hasFile = draft.file.isSome := by
    rw [hasFile, show draft.unchecked = none from settled, Bool.or_false]
  rcases arguments with - | ⟨file, rest⟩
  · rw [read_nil]
    simp
  · have added : draft.addFile file =
        if draft.file.isSome then .error .unknownArgument else .ok (draft.awaiting (.file file)) := by
      rw [addFile, present, settled.settle]
      rfl
    rw [read_true_cons, added]
    cases draft.file with
    | some old => exact iff_of_false nofun (by simp)
    | none =>
        have takesFrom : (draft.awaiting (.file file)).read true rest = .ok command ↔
            ∃ next, draft.Takes (.file file) next ∧ next.read true rest = .ok command :=
          read_awaiting_iff settled nofun
        show (draft.awaiting (.file file)).read true rest = .ok command ↔ _
        rw [takesFrom]
        constructor
        · rintro ⟨next, takes, reads⟩
          have full : next.hasFile = true := by cases takes; rfl
          rcases rest with - | ⟨surplus, rest⟩
          · rw [read_nil] at reads
            exact .inr ⟨file, rfl, rfl, next, takes, reads⟩
          · rw [read_true_cons, addFile, full] at reads
            cases reads
        · rintro (⟨none_, -⟩ | ⟨file, ⟨⟩, -, next, takes, finishes⟩)
          · cases none_
          · exact ⟨next, takes, read_nil.trans finishes⟩

theorem finish_eq_ok_iff {file : SafePath} {config : Option SafePath} {format : OutputFormat} :
    draft.finish = .ok (.analyze file config format) ↔
      draft.file = some file ∧ draft.config = config ∧ draft.format.getD .text = format := by
  rw [finish, settled.settle]
  cases given : draft.file with
  | none => exact iff_of_false (by simp [bind, Except.bind, given]) nofun
  | some found => simp [bind, Except.bind, pure, Except.pure, given]

end

/-! ## Drafts and spellings -/

/-- Something is given in one of two places at most. -/
inductive Joined {α : Type} : Option α → Option α → Option α → Prop where
  | before (one : Option α) : Joined one none one
  | after (other : Option α) : Joined none other other

/-- What a draft holds and what arguments spell make up what a target holds. -/
structure Joins (draft : AnalyzeDraft) (file config : Option String) (form : Option OutputFormat)
    (target : AnalyzeDraft) : Prop where
  file : Joined (draft.file.map (·.text)) file (target.file.map (·.text))
  config : Joined (draft.config.map (·.text)) config (target.config.map (·.text))
  form : Joined draft.format form target.format

section

variable {α : Type} {one other both : Option α} {value : α} {path : String}
  {file config : Option String} {form : Option OutputFormat} {target : AnalyzeDraft}

theorem joined_none_iff : Joined one none both ↔ both = one :=
  ⟨fun joined => by cases joined <;> rfl, fun same => same ▸ .before _⟩

theorem none_joined_iff : Joined none other both ↔ both = other :=
  ⟨fun joined => by cases joined <;> rfl, fun same => same ▸ .after _⟩

theorem joined_some_iff : Joined one (some value) both ↔ one = none ∧ both = some value :=
  ⟨fun joined => by cases joined; exact ⟨rfl, rfl⟩, fun ⟨vacant, same⟩ =>
    vacant ▸ same ▸ .after _⟩

theorem some_joined_iff : Joined (some value) other both ↔ other = none ∧ both = some value :=
  ⟨fun joined => by cases joined; exact ⟨rfl, rfl⟩, fun ⟨vacant, same⟩ =>
    vacant ▸ same ▸ .before _⟩

/-- A file that is spelled may as well be taken first. -/
theorem joins_file_iff : draft.Joins (some path) config form target ↔
    draft.file = none ∧ ∃ next, draft.Takes (.file path) next ∧
      next.Joins none config form target := by
  constructor
  · rintro ⟨joinsFile, joinsConfig, joinsForm⟩
    rw [joined_some_iff, Option.map_eq_none_iff, Option.map_eq_some_iff] at joinsFile
    obtain ⟨vacant, taken, held, rfl⟩ := joinsFile
    exact ⟨vacant, _, .file taken, by rw [held]; exact .before _, joinsConfig, joinsForm⟩
  · rintro ⟨vacant, next, ⟨taken⟩, joinsFile, joinsConfig, joinsForm⟩
    refine ⟨?_, joinsConfig, joinsForm⟩
    rw [vacant, joined_none_iff.1 joinsFile]
    exact .after _

theorem joins_config_iff : draft.Joins file (some path) form target ↔
    ∃ next, draft.Takes (.option .config (some path)) next ∧ next.Joins file none form target := by
  constructor
  · rintro ⟨joinsFile, joinsConfig, joinsForm⟩
    rw [joined_some_iff, Option.map_eq_none_iff, Option.map_eq_some_iff] at joinsConfig
    obtain ⟨vacant, taken, held, rfl⟩ := joinsConfig
    exact ⟨_, .config taken vacant, joinsFile, by rw [held]; exact .before _, joinsForm⟩
  · rintro ⟨next, takes, joinsFile, joinsConfig, joinsForm⟩
    cases takes with
    | config taken vacant =>
        refine ⟨joinsFile, ?_, joinsForm⟩
        rw [vacant, joined_none_iff.1 joinsConfig]
        exact .after _

theorem joins_format_iff {spelled : OutputFormat} :
    draft.Joins file config (some spelled) target ↔
      ∃ next, draft.Takes (.option .format (some spelled.name)) next ∧
        next.Joins file config none target := by
  constructor
  · rintro ⟨joinsFile, joinsConfig, joinsForm⟩
    obtain ⟨vacant, held⟩ := joined_some_iff.1 joinsForm
    exact ⟨_, .format spelled vacant, joinsFile, joinsConfig, by rw [held]; exact .before _⟩
  · rintro ⟨next, takes, joinsFile, joinsConfig, joinsForm⟩
    generalize named : Unchecked.option .format (some spelled.name) = given at takes
    cases takes with
    | file | config => cases named
    | format taken vacant =>
        obtain rfl : spelled = taken := by
          have found := OutputFormat.ofName?_eq_some_iff.2 (by simpa using named.symm)
          exact Option.some.inj ((OutputFormat.ofName?_eq_some_iff.2 rfl).symm.trans found)
        refine ⟨joinsFile, joinsConfig, ?_⟩
        rw [vacant, joined_none_iff.1 joinsForm]
        exact .after _

/-! What has been taken is not spelled again. -/

theorem Takes.joins_file (takes : draft.Takes (.file path) next) (vacant : draft.file = none)
    (joins : next.Joins file config form target) :
    file = none ∧ draft.Joins (some path) config form target := by
  obtain rfl : file = none := by
    cases takes
    exact (some_joined_iff.1 joins.file).1
  exact ⟨rfl, joins_file_iff.2 ⟨vacant, next, takes, joins⟩⟩

theorem Takes.joins_config (takes : draft.Takes (.option .config (some path)) next)
    (joins : next.Joins file config form target) :
    config = none ∧ draft.Joins file (some path) form target := by
  obtain rfl : config = none := by
    cases takes
    exact (some_joined_iff.1 joins.config).1
  exact ⟨rfl, joins_config_iff.2 ⟨next, takes, joins⟩⟩

theorem Takes.joins_format {name : String} (takes : draft.Takes (.option .format (some name)) next)
    (joins : next.Joins file config form target) :
    form = none ∧ ∃ spelled : OutputFormat,
      name = spelled.name ∧ draft.Joins file config (some spelled) target := by
  cases takes with
  | format spelled vacant =>
      obtain rfl : form = none := (some_joined_iff.1 joins.form).1
      exact ⟨rfl, spelled, rfl, joins_format_iff.2 ⟨_, .format spelled vacant, joins⟩⟩

end

/-! ## What is read is spelled -/

theorem eq_of_ofName? {name : String} {option : ValueOption}
    (known : ValueOption.ofName? name = some option) :
    option = .config ∧ name = "config" ∨ option = .format ∧ name = "format" := by
  unfold ValueOption.ofName? at known
  split at known <;> simp_all

variable {file : SafePath} {config : Option SafePath} {format : OutputFormat}

/-- What a draft becomes if the command to analyze is to come of it. -/
def outcome (file : SafePath) (config : Option SafePath) (form : Option OutputFormat) :
    AnalyzeDraft :=
  { file := some file, config, format := form }

/-- The arguments that are left are read if they spell what the draft lacks. -/
theorem read_of_requests {spelledFile spelledConfig : Option String}
    {spelledForm form : Option OutputFormat}
    (requests : Requests arguments spelledFile spelledConfig spelledForm) (settled : draft.Settled)
    (joins : draft.Joins spelledFile spelledConfig spelledForm (outcome file config form)) :
    draft.read false arguments = .ok (.analyze file config (form.getD .text)) := by
  have finishes {draft : AnalyzeDraft} (settled : draft.Settled)
      (joins : draft.Joins none none none (outcome file config form)) :
      draft.finish = .ok (.analyze file config (form.getD .text)) := by
    have textOf := SafePath.text_injective
    obtain ⟨joinsFile, joinsConfig, joinsForm⟩ := joins
    refine (finish_eq_ok_iff settled).2 ⟨?_, ?_, ?_⟩
    · exact (Option.map_injective textOf (joined_none_iff.1 joinsFile)).symm
    · exact (Option.map_injective textOf (joined_none_iff.1 joinsConfig)).symm
    · rw [← joined_none_iff.1 joinsForm]
      rfl
  induction requests generalizing draft with
  | nil => exact read_nil.trans (finishes settled joins)
  | file plain _ inductionHypothesis =>
      obtain ⟨vacant, next, takes, joins⟩ := joins_file_iff.1 joins
      exact (read_plain_iff settled plain).2
        ⟨vacant, next, takes, inductionHypothesis (takes.settled settled) joins⟩
  | config plain _ inductionHypothesis =>
      obtain ⟨next, takes, joins⟩ := joins_config_iff.1 joins
      exact (read_option_iff settled rfl rfl).2
        ⟨_, _, rfl, plain, next, takes, inductionHypothesis (takes.settled settled) joins⟩
  | attachedConfig _ inductionHypothesis =>
      obtain ⟨next, takes, joins⟩ := joins_config_iff.1 joins
      exact (read_attached_iff settled
        (@ArgumentForm.of_attached "config".toList (by decide) nofun _) rfl).2
        ⟨next, takes, inductionHypothesis (takes.settled settled) joins⟩
  | @format _ _ _ spelled _ inductionHypothesis =>
      obtain ⟨next, takes, joins⟩ := joins_format_iff.1 joins
      have plain : IsPlain spelled.name := by cases spelled <;> rintro _ ⟨⟩
      exact (read_option_iff settled rfl rfl).2
        ⟨_, _, rfl, plain, next, takes, inductionHypothesis (takes.settled settled) joins⟩
  | attachedFormat _ inductionHypothesis =>
      obtain ⟨next, takes, joins⟩ := joins_format_iff.1 joins
      exact (read_attached_iff settled
        (@ArgumentForm.of_attached "format".toList (by decide) nofun _) rfl).2
        ⟨next, takes, inductionHypothesis (takes.settled settled) joins⟩
  | dash =>
      rw [read_dash, read_true_iff settled]
      exact .inl ⟨rfl, finishes settled joins⟩
  | dashFile =>
      obtain ⟨vacant, next, takes, joins⟩ := joins_file_iff.1 joins
      rw [read_dash, read_true_iff settled]
      exact .inr ⟨_, rfl, vacant, next, takes, finishes (takes.settled settled) joins⟩

/-- The arguments that are left spell what the draft lacks if they are read. -/
theorem exists_requests_of_read (settled : draft.Settled)
    (reads : draft.read false arguments = .ok (.analyze file config format)) :
    ∃ spelledFile spelledConfig spelledForm form,
      Requests arguments spelledFile spelledConfig spelledForm ∧
      draft.Joins spelledFile spelledConfig spelledForm (outcome file config form) ∧
      form.getD .text = format := by
  have joinsOf {draft : AnalyzeDraft} (settled : draft.Settled)
      (finishes : draft.finish = .ok (.analyze file config format)) :
      draft.Joins none none none (outcome file config draft.format) ∧
        draft.format.getD .text = format := by
    obtain ⟨sameFile, sameConfig, sameForm⟩ := (finish_eq_ok_iff settled).1 finishes
    exact ⟨⟨by rw [sameFile]; exact .before _, by rw [sameConfig]; exact .before _, .before _⟩,
      sameForm⟩
  -- the induction is on how many arguments are left: an option may take two of them
  induction bound : arguments.length using Nat.strongRecOn generalizing draft arguments with
  | ind length inductionHypothesis =>
  subst bound
  rcases arguments with - | ⟨argument, rest⟩
  · obtain ⟨joins, sameForm⟩ := joinsOf settled (read_nil ▸ reads)
    exact ⟨_, _, _, _, .nil, joins, sameForm⟩
  · have shorter : rest.length < (argument :: rest).length := Nat.lt_succ_self _
    by_cases dash : argument = "--"
    · subst dash
      rw [read_dash, read_true_iff settled] at reads
      rcases reads with ⟨rfl, finishes⟩ | ⟨spelled, rfl, vacant, next, takes, finishes⟩
      · obtain ⟨joins, sameForm⟩ := joinsOf settled finishes
        exact ⟨_, _, _, _, .dash, joins, sameForm⟩
      · obtain ⟨joins, sameForm⟩ := joinsOf (takes.settled settled) finishes
        exact ⟨_, _, _, _, .dashFile, joins_file_iff.2 ⟨vacant, next, takes, joins⟩, sameForm⟩
    · by_cases plain : IsPlain argument
      · obtain ⟨vacant, next, takes, reads⟩ := (read_plain_iff settled plain).1 reads
        obtain ⟨_, _, _, _, requests, joins, sameForm⟩ :=
          inductionHypothesis _ shorter (takes.settled settled) reads rfl
        obtain ⟨rfl, before⟩ := takes.joins_file vacant joins
        exact ⟨_, _, _, _, .file plain requests, before, sameForm⟩
      · obtain ⟨name, attached, option, isLong, known⟩ :=
          exists_option_of_read settled dash plain reads
        have written := ArgumentForm.eq_of_long isLong
        rcases attached with - | value
        · obtain ⟨value, later, rfl, plain, next, takes, reads⟩ :=
            (read_option_iff settled isLong known).1 reads
          obtain ⟨_, _, _, _, requests, joins, sameForm⟩ :=
            inductionHypothesis _ (Nat.lt_of_succ_lt shorter) (takes.settled settled) reads rfl
          rcases eq_of_ofName? known with ⟨rfl, rfl⟩ | ⟨rfl, rfl⟩
          · obtain ⟨rfl, before⟩ := takes.joins_config joins
            rw [written]
            exact ⟨_, _, _, _, .config plain requests, before, sameForm⟩
          · obtain ⟨rfl, spelled, rfl, before⟩ := takes.joins_format joins
            rw [written]
            exact ⟨_, _, _, _, .format requests, before, sameForm⟩
        · obtain ⟨next, takes, reads⟩ := (read_attached_iff settled isLong known).1 reads
          obtain ⟨_, _, _, _, requests, joins, sameForm⟩ :=
            inductionHypothesis _ shorter (takes.settled settled) reads rfl
          rcases eq_of_ofName? known with ⟨rfl, rfl⟩ | ⟨rfl, rfl⟩
          · obtain ⟨rfl, before⟩ := takes.joins_config joins
            rw [written]
            exact ⟨_, _, _, _, .attachedConfig requests, before, sameForm⟩
          · obtain ⟨rfl, spelled, rfl, before⟩ := takes.joins_format joins
            rw [written]
            exact ⟨_, _, _, _, .attachedFormat requests, before, sameForm⟩

end AnalyzeDraft

end EscapePlan
