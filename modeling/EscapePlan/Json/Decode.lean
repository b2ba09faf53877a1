import EscapePlan.Json.Draft
import EscapePlan.Text.Quoted
import EscapePlan.Decimal.Shortest

/-!
# Decoding drafts

A decoder turns a draft into a value of some type or answers the first fault.
Faults are causes; `Fault.message?` words them.  A fault in the notation itself
has no wording of its own.
-/

namespace EscapePlan

/-- What a decoder met in place of what it wanted. -/
inductive Found where
  | null
  | bool (value : Bool)
  | integer (value : Int)
  | float (value : Float)
  | text (value : String)
  | sequence
  | map
  /-- The name of a variant without its content. -/
  | unitVariant

namespace Found

/-- Doubles in messages are written out in full. -/
def floatLayout : DecimalLayout :=
  ⟨none⟩

/-- How a message names what was met. -/
def describe : Found → String
  | .null => "null"
  | .bool value => "boolean `" ++ (if value then "true" else "false") ++ "`"
  | .integer value => "integer `" ++ toString value ++ "`"
  | .float value => "floating point `" ++ floatLayout.render value ++ "`"
  | .text value => "string " ++ Text.quoted value
  | .sequence => "sequence"
  | .map => "map"
  | .unitVariant => "unit variant"

end Found

/-- Why a draft is not a value of the wanted type. -/
inductive Fault where
  /-- The text leaves the notation. -/
  | malformed
  | missingField (name : String)
  | duplicateField (name : String)
  | invalidType (found : Found) (expected : String)
  | invalidValue (found : Found) (expected : String)
  | invalidLength (length : Nat) (expected : String)
  | unknownVariant (name : String) (expected : List String)

namespace Fault

/-- A name between backticks. -/
def ticked (name : String) : String :=
  "`" ++ name ++ "`"

/-- The wording of a fault, if it has one. -/
def message? : Fault → Option String
  | .malformed => none
  | .missingField name => some ("missing field " ++ ticked name)
  | .duplicateField name => some ("duplicate field " ++ ticked name)
  | .invalidType found expected =>
      some ("invalid type: " ++ found.describe ++ ", expected " ++ expected)
  | .invalidValue found expected =>
      some ("invalid value: " ++ found.describe ++ ", expected " ++ expected)
  | .invalidLength length expected =>
      some ("invalid length " ++ toString length ++ ", expected " ++ expected)
  | .unknownVariant name expected =>
      some ("unknown variant " ++ ticked name ++ ", expected one of " ++
        ", ".intercalate (expected.map ticked))

end Fault

/-- A decoder of values of type `α`. -/
abbrev Decoder (α : Type) := Draft → Except Fault α

namespace Draft

/-- What a draft is to a decoder that wanted something else. -/
def found? : Draft → Option Found
  | .null => some .null
  | .bool value => some (.bool value)
  | .number (.integer value) => some (.integer value)
  | .number (.float value) => some (.float value)
  | .number .excessive => none
  | .text value => value.map .text
  | .array _ _ => some .sequence
  | .object _ _ => some .map
  | .malformed => none

/-- The fault of a draft that is not of the expected type. -/
def mismatch (expected : String) (draft : Draft) : Fault :=
  match draft.found? with
  | some found => .invalidType found expected
  | none => .malformed

/-- Decodes an integer between two bounds. -/
def decodeInteger (lowest highest : Int) (expected : String) : Decoder Int
  | .number (.integer value) =>
      if lowest ≤ value ∧ value ≤ highest then .ok value
      else .error (.invalidValue (.integer value) expected)
  | draft => .error (draft.mismatch expected)

/-- Decodes a number that fits into thirty-two bits. -/
def decodeUInt32 (draft : Draft) : Except Fault UInt32 :=
  (decodeInteger 0 4294967295 "u32" draft).map fun value => UInt32.ofNat value.toNat

/-- Decodes a signed number that fits into sixty-four bits. -/
def decodeInt64 (draft : Draft) : Except Fault Int64 :=
  (decodeInteger lowestInt64 highestInt64 "i64" draft).map Int64.ofInt

/-- Decodes a double; integers are rounded to doubles. -/
def decodeFloat : Decoder Float
  | .number (.float value) => .ok value
  | .number (.integer value) =>
      .ok (if value < 0 then -value.natAbs.toUInt64.toFloat else value.natAbs.toUInt64.toFloat)
  | draft => .error (draft.mismatch "f64")

/-- Decodes a truth value. -/
def decodeBool : Decoder Bool
  | .bool value => .ok value
  | draft => .error (draft.mismatch "a boolean")

/-- Decodes a text that the given words describe. -/
def decodeText (expected : String) : Decoder String
  | .text (some value) => .ok value
  | draft => .error (draft.mismatch expected)

/-- Decodes a sequence, item by item. -/
def decodeList {α : Type} (decode : Decoder α) : Decoder (List α)
  | .array items closed => do
      let values ← items.mapM decode
      if closed then return values else throw .malformed
  | draft => .error (draft.mismatch "a sequence")

/-- Decodes a value that may be `null`. -/
def decodeOption {α : Type} (decode : Decoder α) : Decoder (Option α)
  | .null => .ok none
  | draft => (decode draft).map some

end Draft

end EscapePlan
