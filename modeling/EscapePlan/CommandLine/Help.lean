import EscapePlan.CommandLine.Arguments

/-!
# Help texts

What the program says about itself and its commands.  An error in the arguments is
worded in one line.
-/

namespace EscapePlan

/-- The name of the program. -/
def programName : String :=
  "stackify"

/-- The version of the program. -/
def programVersion : String :=
  "0.1.0"

/-- Lines as a text. -/
def unlines (lines : List String) : String :=
  String.join (lines.map (· ++ "\n"))

namespace HelpTopic

/-- What a command does. -/
def summary : HelpTopic → String
  | .program => "Escape analysis and allocation placement for serialized syntax trees"
  | .analyze => "Analyze a syntax tree (`.json`, `.yaml`, `.yml`) and print placement decisions"
  | .config => "Print the default optimizer configuration as TOML"
  | .help => "Print this message or the help of the given subcommand(s)"

/-- How a command is called. -/
def usage : HelpTopic → String
  | .program => "<COMMAND>"
  | .analyze => "analyze [OPTIONS] <FILE>"
  | .config => "config"
  | .help => "help [COMMAND]..."

/-- The arguments and options of a command. -/
def details : HelpTopic → List String
  | .program =>
      [ "Commands:",
        "  analyze  " ++ HelpTopic.analyze.summary,
        "  config   " ++ HelpTopic.config.summary,
        "  help     " ++ HelpTopic.help.summary,
        "",
        "Options:",
        "  -h, --help     Print help",
        "  -V, --version  Print version" ]
  | .analyze =>
      [ "Arguments:",
        "  <FILE>  ",
        "",
        "Options:",
        "      --config <FILE>    Optimizer configuration (`.toml`, `.yaml`, `.yml`, `.json`)",
        "      --format <FORMAT>  [default: text] [possible values: text, json]",
        "  -h, --help             Print help" ]
  | .config =>
      [ "Options:",
        "  -h, --help  Print help" ]
  | .help =>
      [ "Arguments:",
        "  [COMMAND]...  Print help for the subcommand(s)" ]

/-- The help text of a topic. -/
def text (topic : HelpTopic) : String :=
  unlines
    (topic.summary :: "" :: ("Usage: " ++ programName ++ " " ++ topic.usage) :: "" ::
      topic.details)

end HelpTopic

/-- What the program says about its version. -/
def versionText : String :=
  unlines [programName ++ " " ++ programVersion]

namespace ArgumentError

/-- The wording of an error in the arguments. -/
def message : ArgumentError → String
  | .unknownArgument => "unexpected argument found"
  | .unknownCommand => "unrecognized subcommand"
  | .missingFile => "the following required arguments were not provided: <FILE>"
  | .invalidValue => "a value is required, or one of the possible values"
  | .refusedPath refusal => refusal
  | .repeated => "the argument cannot be used multiple times"
  | .surplusValue => "unexpected value for an argument that takes none"
  | .noCommand => "a command is required"
  | .help _ => "help was requested"
  | .version => "the version was requested"

end ArgumentError

end EscapePlan
