import EscapePlan.Config.Basic
import EscapePlan.Json.Shape
import EscapePlan.Toml.Reader

/-!
# Configurations as texts

A configuration is a table of its fields; the default sizes are a table within it.
Every field may be missing, in a document and among the default sizes alike, and
unknown fields are ignored.  `Config.toToml` writes all fields and `Config.ofToml`
reads them back.

Where an array stands for the default sizes, TOML lets it have more items than
there are sizes, and JSON does not; this is the one difference between the shapes.
-/

namespace EscapePlan

namespace DefaultSizes

/-- A field that holds a number of bytes. -/
def sizeField (name : String) (fallback : UInt32) : Field UInt32 :=
  ⟨name, Draft.decodeUInt32, some fallback⟩

/-- The shape of the default sizes. -/
def shape : Shape DefaultSizes where
  title := "struct DefaultSizes"
  fields := .cons (sizeField "object" 64) <| .cons (sizeField "array" 128) <|
    .cons (sizeField "string" 32) <| .cons (sizeField "closure" 64) .nil
  build := fun (object, array, string, closure, ()) => ⟨object, array, string, closure⟩

/-- Reads default sizes; of an array only the leading items count. -/
def decodeLeading : Decoder DefaultSizes
  | .array items closed => shape.decode (.array (items.take shape.fields.count) closed)
  | draft => shape.decode draft

end DefaultSizes

namespace Config

/-- A field that holds a truth value and is true when missing. -/
def flagField (name : String) : Field Bool :=
  ⟨name, Draft.decodeBool, some true⟩

/-- The shape of a configuration, given how its default sizes are read. -/
def shapeWith (decodeSizes : Decoder DefaultSizes) : Shape Config where
  title := "struct OptimizerConfig"
  fields := .cons (DefaultSizes.sizeField "max_object_size" defaultMaxObjectSize) <|
    .cons (DefaultSizes.sizeField "max_frame_size" 4096) <|
    .cons (flagField "unknown_is_bottom") <|
    .cons (flagField "enable_scalar_replacement") <|
    .cons ⟨"default_sizes", decodeSizes, some {}⟩ .nil
  build := fun (maxObjectSize, maxFrameSize, unknownIsBottom, enableScalarReplacement,
      defaultSizes, ()) =>
    ⟨maxObjectSize, maxFrameSize, unknownIsBottom, enableScalarReplacement, defaultSizes⟩

/-- The shape of a configuration. -/
def shape : Shape Config :=
  shapeWith DefaultSizes.shape.decode

/-- One line of a TOML document. -/
def tomlLine (key value : String) : String :=
  key ++ " = " ++ value ++ "\n"

/-- A line that gives a number. -/
def tomlSize (key : String) (size : UInt32) : String :=
  tomlLine key (toString size.toNat)

/-- A line that gives a truth value. -/
def tomlFlag (key : String) (flag : Bool) : String :=
  tomlLine key (if flag then "true" else "false")

/-- The lines of a configuration as a TOML document, each with its line break. -/
def tomlLines (config : Config) : List String :=
  [tomlSize "max_object_size" config.maxObjectSize,
    tomlSize "max_frame_size" config.maxFrameSize,
    tomlFlag "unknown_is_bottom" config.unknownIsBottom,
    tomlFlag "enable_scalar_replacement" config.enableScalarReplacement,
    "\n",
    "[default_sizes]\n",
    tomlSize "object" config.defaultSizes.object,
    tomlSize "array" config.defaultSizes.array,
    tomlSize "string" config.defaultSizes.string,
    tomlSize "closure" config.defaultSizes.closure]

/-- A configuration as a TOML document. -/
def toToml (config : Config) : String :=
  String.join config.tomlLines

/-- Reads a configuration from a TOML document. -/
def ofToml (text : String) : Except Fault Config :=
  (shapeWith DefaultSizes.decodeLeading).decodeSilently (Toml.read? text)

end Config

end EscapePlan
