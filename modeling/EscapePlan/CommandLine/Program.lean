import EscapePlan.CommandLine.Help
import EscapePlan.Placement.Report
import EscapePlan.Source.Basic

/-!
# The program

A run of the program is a function of its arguments and of what reading its files came
to.  The configuration is loaded before the tree, so a fault of the former is reported
even if the latter has one too.

The time that the analysis took is known only after the run; what is printed is therefore
a function of it.
-/

namespace EscapePlan

/-- How a run ends. -/
structure Outcome where
  exitCode : UInt32
  /-- What is printed, given how many microseconds the analysis took. -/
  output : Nat → String
  /-- What is reported apart from the output. -/
  complaint : String

namespace Outcome

/-- A run that succeeds. -/
def success (output : Nat → String) : Outcome :=
  ⟨0, output, ""⟩

/-- A run that fails. -/
def failure (exitCode : UInt32) (complaint : String) : Outcome :=
  ⟨exitCode, fun _ => "", complaint⟩

/-- A run that fails since something cannot be loaded. -/
def loadFailure (what path : String) (error : LoadError) : Outcome :=
  failure 1 <| unlines
    [ "Error: failed to load " ++ what ++ " '" ++ path ++ "'",
      "",
      "Caused by:",
      "    " ++ error.message?.getD ("malformed input '" ++ path ++ "'") ]

/-- A run that stops since the sizes on a frame cannot be added up. -/
def overflow : Outcome :=
  failure 101 (unlines ["attempt to add with overflow"])

/-- A run whose arguments do not make up a command.  Being asked for help or for the
version is no failure. -/
def ofArgumentError : ArgumentError → Outcome
  | .help topic => success fun _ => topic.text
  | .version => success fun _ => versionText
  | .noCommand => failure 2 HelpTopic.program.text
  | error => failure 2 (unlines ["error: " ++ error.message])

end Outcome

/-- A placement in the form that is asked for. -/
def Placement.render (placement : Placement) (source : String) (format : OutputFormat)
    (micros : Nat) : String :=
  match format with
  | .text => placement.report micros
  | .json => (placement.toJson source micros).print ++ "\n"

namespace Command

/-- The files that a command reads. -/
def files : Command → List SafePath
  | .analyze file settings _ => settings.toList ++ [file]
  | .config => []

/-- The configuration of an analysis: the default one, unless a path is given. -/
def loadConfig (contents : String → FileContent) : Option SafePath → Except Outcome Config
  | none => .ok {}
  | some path =>
      (Config.load path.text (contents path.text)).mapError
        (Outcome.loadFailure "config" path.text)

/-- Analyzes the tree in a file. -/
def runAnalyze (contents : String → FileContent) (file : SafePath)
    (settings : Option SafePath) (format : OutputFormat) : Except Outcome Outcome := do
  let config ← loadConfig contents settings
  let tree ← (Tree.load file.text (contents file.text)).mapError
    (Outcome.loadFailure "syntax tree" file.text)
  match Placement.ofTree? config tree with
  | none => .error .overflow
  | some placement => return .success (placement.render file.text format)

/-- Carries out a command, given what reading files came to. -/
def run (contents : String → FileContent) : Command → Outcome
  | .config => .success fun _ => Config.toToml {}
  | .analyze file settings format =>
      match runAnalyze contents file settings format with
      | .ok outcome => outcome
      | .error outcome => outcome

end Command

/-- A run of the program. -/
def runProgram (contents : String → FileContent) (arguments : List String) : Outcome :=
  match Command.ofArguments arguments with
  | .ok command => command.run contents
  | .error error => .ofArgumentError error

end EscapePlan
