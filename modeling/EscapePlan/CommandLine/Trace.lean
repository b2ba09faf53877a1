/-!
# Trace settings

A setting in words switches tracing off or on, or says which messages are wanted.  Space
around the words and the case of their letters do not count.
-/

namespace EscapePlan

/-- What is traced. -/
inductive TraceSetting where
  | off
  /-- What is traced when nothing more is said. -/
  | standard
  /-- What a directive says. -/
  | filter (directive : String)
  deriving DecidableEq, Repr

namespace TraceSetting

/-- Whether a character is white space in any script. -/
def isWhite (char : Char) : Bool :=
  let point := char.toNat
  (0x9 ≤ point && point ≤ 0xD) || point = 0x20 || point = 0x85 || point = 0xA0 ||
    point = 0x1680 || (0x2000 ≤ point && point ≤ 0x200A) || point = 0x2028 ||
    point = 0x2029 || point = 0x202F || point = 0x205F || point = 0x3000

/-- A text without the white space around it. -/
def trim (text : List Char) : List Char :=
  ((text.dropWhile isWhite).reverse.dropWhile isWhite).reverse

/-- The words that switch tracing off. -/
def offWords : List String :=
  ["", "0", "false", "off"]

/-- The words that switch tracing on. -/
def onWords : List String :=
  ["1", "true", "on"]

/-- The setting that a text stands for. -/
def ofText (text : String) : TraceSetting :=
  let value := trim text.toList
  let word := String.ofList (value.map Char.toLower)
  if offWords.contains word then .off
  else if onWords.contains word then .standard
  else .filter (String.ofList value)

/-- Whether anything is traced. -/
def isOn : TraceSetting → Bool
  | .off => false
  | _ => true

/-- The directive of a setting. -/
def directive? : TraceSetting → Option String
  | .filter directive => some directive
  | _ => none

end TraceSetting

end EscapePlan
