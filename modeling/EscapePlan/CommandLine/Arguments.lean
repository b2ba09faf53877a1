import EscapePlan.CommandLine.SafePath

/-!
# Arguments of the command line

The first argument names a command.  The command `analyze` takes a file and two options,
each with a value that follows it or is attached to it by an equals sign; after a double
dash every argument is a plain one.

A value is checked only when the next option or plain argument comes, or at the end.
Thus an argument that nothing is known about is the first thing to be complained about,
even if a value before it is not acceptable.
-/

namespace EscapePlan

/-- In which form the result is written. -/
inductive OutputFormat where
  | text
  | json
  deriving DecidableEq, Repr

namespace OutputFormat

/-- The name of a form. -/
def name : OutputFormat → String
  | .text => "text"
  | .json => "json"

/-- The form of a name. -/
def ofName? (name : String) : Option OutputFormat :=
  [OutputFormat.text, .json].find? (·.name = name)

end OutputFormat

/-- What the program is asked for. -/
inductive Command where
  | analyze (file : SafePath) (config : Option SafePath) (format : OutputFormat)
  | config
  deriving DecidableEq, Repr

/-- What help is about. -/
inductive HelpTopic where
  | program
  | analyze
  | config
  | help
  deriving DecidableEq, Repr

/-- Why arguments do not make up a command; a call for help is such a reason too. -/
inductive ArgumentError where
  | unknownArgument
  | unknownCommand
  | missingFile
  /-- An option has no value, or a value that is not one of those possible. -/
  | invalidValue
  /-- A path leads upwards. -/
  | refusedPath (refusal : String)
  /-- An option is given twice. -/
  | repeated
  /-- A value is attached to an option that takes none. -/
  | surplusValue
  | noCommand
  | help (topic : HelpTopic)
  | version
  deriving DecidableEq, Repr

/-- What an argument looks like. -/
inductive ArgumentForm where
  | doubleDash
  /-- An option of several letters, and the value attached to it. -/
  | long (name : String) (value : Option String)
  /-- Options of one letter each, the first of which is given. -/
  | short (letter : Char)
  | plain
  deriving DecidableEq, Repr

namespace ArgumentForm

/-- The form of an argument.  A lone dash is a plain argument. -/
def of (argument : String) : ArgumentForm :=
  match argument.toList with
  | ['-', '-'] => .doubleDash
  | '-' :: '-' :: rest =>
      let name := String.ofList (rest.takeWhile (· ≠ '='))
      match rest.dropWhile (· ≠ '=') with
      | _ :: value => .long name (some (String.ofList value))
      | [] => .long name none
  | '-' :: letter :: _ => .short letter
  | _ => .plain

end ArgumentForm

/-- An option with a value. -/
inductive ValueOption where
  | config
  | format
  deriving DecidableEq, Repr

namespace ValueOption

/-- The option of a name. -/
def ofName? : String → Option ValueOption
  | "config" => some .config
  | "format" => some .format
  | _ => none

end ValueOption

/-- What has come but has not been checked yet. -/
inductive Unchecked where
  | file (value : String)
  /-- An option, and its value once that has come. -/
  | option (option : ValueOption) (value : Option String)
  deriving DecidableEq, Repr

/-- What is known of the command `analyze` while its arguments are read. -/
structure AnalyzeDraft where
  file : Option SafePath := none
  config : Option SafePath := none
  format : Option OutputFormat := none
  unchecked : Option Unchecked := none

namespace AnalyzeDraft

/-- Takes a path. -/
def checkPath (value : String) : Except ArgumentError SafePath :=
  (SafePath.ofText value).mapError .refusedPath

/-- Gives an option its value. -/
def setOption (draft : AnalyzeDraft) (option : ValueOption) (value : Option String) :
    Except ArgumentError AnalyzeDraft := do
  match option, value with
  | _, none => throw .invalidValue
  | .config, some value =>
      if draft.config.isSome then throw .repeated
      else return { draft with config := some (← checkPath value) }
  | .format, some value =>
      if draft.format.isSome then throw .repeated
      else
        match OutputFormat.ofName? value with
        | none => throw .invalidValue
        | some format => return { draft with format := some format }

/-- Checks what has not been checked yet. -/
def settle (draft : AnalyzeDraft) : Except ArgumentError AnalyzeDraft := do
  let settled := { draft with unchecked := none }
  match draft.unchecked with
  | none => return settled
  | some (.file value) => return { settled with file := some (← checkPath value) }
  | some (.option option value) => settled.setOption option value

/-- Whether a file has come, checked or not. -/
def hasFile (draft : AnalyzeDraft) : Bool :=
  draft.file.isSome ||
    match draft.unchecked with
    | some (.file _) => true
    | _ => false

/-- Takes a plain argument, which can only be the file. -/
def addFile (draft : AnalyzeDraft) (value : String) : Except ArgumentError AnalyzeDraft := do
  if draft.hasFile then throw .unknownArgument
  else return { ← draft.settle with unchecked := some (.file value) }

/-- Takes an argument before any double dash, other than a double dash itself. -/
def addArgument (draft : AnalyzeDraft) (argument : String) :
    Except ArgumentError AnalyzeDraft := do
  match ArgumentForm.of argument with
  | .long name attached =>
      match ValueOption.ofName? name, attached with
      | some option, none =>
          return { ← draft.settle with unchecked := some (.option option none) }
      | some option, some value => (← draft.settle).setOption option (some value)
      | none, some _ => throw (if name = "help" then .surplusValue else .unknownArgument)
      | none, none =>
          if name = "help" then
            let _ ← draft.settle
            throw (.help .analyze)
          else throw .unknownArgument
  | .short letter =>
      if letter = 'h' then
        let _ ← draft.settle
        throw (.help .analyze)
      else throw .unknownArgument
  | _ =>
      match draft.unchecked with
      | some (.option option none) =>
          return { draft with unchecked := some (.option option (some argument)) }
      | _ => draft.addFile argument

/-- Takes arguments; the flag says whether a double dash has come. -/
def addArguments (draft : AnalyzeDraft) :
    (afterDash : Bool) → List String → Except ArgumentError AnalyzeDraft
  | _, [] => .ok draft
  | true, argument :: arguments => do
      (← draft.addFile argument).addArguments true arguments
  | false, argument :: arguments =>
      if argument = "--" then draft.addArguments true arguments
      else do (← draft.addArgument argument).addArguments false arguments

/-- The command that a draft makes up once its arguments have been read. -/
def finish (draft : AnalyzeDraft) : Except ArgumentError Command := do
  let draft ← draft.settle
  match draft.file with
  | none => throw .missingFile
  | some file => return .analyze file draft.config (draft.format.getD .text)

end AnalyzeDraft

namespace Command

/-- Reads the arguments of the command `analyze`. -/
def ofAnalyzeArguments (arguments : List String) : Except ArgumentError Command := do
  (← AnalyzeDraft.addArguments {} false arguments).finish

/-- Reads the arguments of the command `config`, which takes none. -/
def ofConfigArguments : List String → Except ArgumentError Command
  | [] => .ok .config
  | argument :: arguments =>
      match ArgumentForm.of argument with
      | .doubleDash => if arguments.isEmpty then .ok .config else .error .unknownArgument
      | .long "help" none => .error (.help .config)
      | .long "help" (some _) => .error .surplusValue
      | .short 'h' => .error (.help .config)
      | _ => .error .unknownArgument

/-- The commands that may be asked about. -/
def topic? : String → Option HelpTopic
  | "analyze" => some .analyze
  | "config" => some .config
  | "help" => some .help
  | _ => none

/-- What a call for help is about. -/
def helpRequest : List String → ArgumentError
  | [] => .help .program
  | [name] =>
      match topic? name with
      | some topic => .help topic
      | none => .unknownCommand
  | _ => .unknownCommand

/-- The error of an argument that stands where a command is wanted. -/
def notCommand (argument : String) : ArgumentError :=
  match ArgumentForm.of argument with
  | .long "help" none => .help .program
  | .long "version" none => .version
  | .long "help" (some _) => .surplusValue
  | .long "version" (some _) => .surplusValue
  | .short 'h' => .help .program
  | .short 'V' => .version
  | .long _ _ => .unknownArgument
  | .short _ => .unknownArgument
  | _ => .unknownCommand

/-- Reads the arguments of the program.  After a double dash no command can follow. -/
def ofArguments : List String → Except ArgumentError Command
  | [] => .error .noCommand
  | "analyze" :: arguments => ofAnalyzeArguments arguments
  | "config" :: arguments => ofConfigArguments arguments
  | "help" :: arguments => .error (helpRequest arguments)
  | "--" :: [] => .error .noCommand
  | "--" :: argument :: _ =>
      .error (if (topic? argument).isSome then .unknownArgument else .unknownCommand)
  | argument :: _ => .error (notCommand argument)

end Command

end EscapePlan
