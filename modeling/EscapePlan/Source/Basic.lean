import EscapePlan.Source.Path
import EscapePlan.Source.Yaml

/-!
# Trees and configurations in files

The extension of a path says how its file is written.  What reading the file came to is
given from outside; loading decides what to make of it.  A file that cannot be read is a
fault of its own, whatever its extension.
-/

namespace EscapePlan

/-- Why the bytes of a file are not at hand. -/
inductive ReadFailure where
  | missing
  | directory
  /-- The bytes are no text. -/
  | notText
  /-- Any other reason, in the words of the operating system. -/
  | other (reason : String)
  deriving DecidableEq, Repr

namespace ReadFailure

/-- The wording of a failure. -/
def text : ReadFailure → String
  | .missing => "No such file or directory (os error 2)"
  | .directory => "Is a directory (os error 21)"
  | .notText => "stream did not contain valid UTF-8"
  | .other reason => reason

end ReadFailure

/-- What reading a file came to. -/
abbrev FileContent := Except ReadFailure ByteArray

namespace FileContent

/-- The text of a file. -/
def text : FileContent → Except ReadFailure String
  | .error failure => .error failure
  | .ok bytes =>
      match String.fromUTF8? bytes with
      | some text => .ok text
      | none => .error .notText

end FileContent

/-- Why something could not be loaded from a path. -/
inductive LoadError where
  | unreadable (path : String) (failure : ReadFailure)
  | malformed (path : String) (fault : Fault)
  | unsupported (path : String) (extension : Option String)

namespace LoadError

/-- The wording of an error.  A fault in the notation of a file has no wording of its
own. -/
def message? : LoadError → Option String
  | .unreadable path failure => some ("failed to read '" ++ path ++ "': " ++ failure.text)
  | .malformed path fault =>
      fault.message?.map fun message => "malformed input '" ++ path ++ "': " ++ message
  | .unsupported path (some extension) =>
      some ("unsupported file extension '." ++ extension ++ "' for '" ++ path ++ "'")
  | .unsupported path none =>
      some ("cannot infer format of '" ++ path ++ "' without an extension")

end LoadError

/-- Loads what a path leads to, given how a text is read whose path has a certain
extension. -/
def load {α : Type} (reader? : String → Option (String → Except Fault α)) (path : String)
    (content : FileContent) : Except LoadError α := do
  let text ← content.text.mapError (.unreadable path)
  let extension := Path.extension? path
  match extension.bind reader? with
  | none => throw (.unsupported path extension)
  | some read => (read text).mapError (.malformed path)

namespace Tree

/-- How a tree is read from a file with a certain extension. -/
def reader? : String → Option (String → Except Fault Tree)
  | "json" => some ofText
  | "yaml" => some ofYaml
  | "yml" => some ofYaml
  | _ => none

/-- Loads a tree. -/
def load (path : String) (content : FileContent) : Except LoadError Tree :=
  EscapePlan.load reader? path content

end Tree

namespace Config

/-- How a configuration is read from a file with a certain extension. -/
def reader? : String → Option (String → Except Fault Config)
  | "toml" => some ofToml
  | "yaml" => some ofYaml
  | "yml" => some ofYaml
  | "json" => some shape.ofText
  | _ => none

/-- Loads a configuration. -/
def load (path : String) (content : FileContent) : Except LoadError Config :=
  EscapePlan.load reader? path content

end Config

end EscapePlan
