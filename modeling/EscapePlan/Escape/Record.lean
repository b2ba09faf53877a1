import EscapePlan.Escape.State
import EscapePlan.Tree.Basic

/-!
# Escape records

An escape record is what is known about one allocation site: how far its objects
escape and through what, which of their fields are used, and how large they are.

`EscapeRecord.escalate` raises the state and leaves a trace of every rise;
`EscapeRecord.recordField` keeps the list of fields in order of first use.
-/

namespace EscapePlan

/-- The number of a node in the value graph. -/
abbrev NodeId := Nat

/-- How the number of a value node is displayed. -/
def NodeId.text (id : NodeId) : String :=
  "#" ++ toString id

/-- Why the state of an allocation was raised. -/
inductive EscapeReason where
  | storedToHeap
  | storedToArray
  | returned
  | passedToUnknown
  | capturedByClosure
  | thrownAsException
  | assignedToGlobal
  /-- Found by propagation from a value that the object flows into. -/
  | flowsToEscapingValue
  deriving DecidableEq, Repr, Inhabited

/-- The name of a reason. -/
def EscapeReason.text : EscapeReason → String
  | .storedToHeap => "stored_to_heap"
  | .storedToArray => "stored_to_array"
  | .returned => "returned"
  | .passedToUnknown => "passed_to_unknown"
  | .capturedByClosure => "captured_by_closure"
  | .thrownAsException => "thrown_as_exception"
  | .assignedToGlobal => "assigned_to_global"
  | .flowsToEscapingValue => "flows_to_escaping_value"

/-- All reasons. -/
def EscapeReason.all : List EscapeReason :=
  [.storedToHeap, .storedToArray, .returned, .passedToUnknown, .capturedByClosure,
    .thrownAsException, .assignedToGlobal, .flowsToEscapingValue]

/-- A rise of a state: why, and where. -/
structure EscapePoint where
  position : Option Position
  reason : EscapeReason
  deriving DecidableEq, Repr, Inhabited

/-- The kind of object that a site allocates. -/
inductive ObjectType where
  | object
  | array
  | closure
  | string
  | unknown
  deriving DecidableEq, Repr, Inhabited

/-- The name of an object type. -/
def ObjectType.text : ObjectType → String
  | .object => "object"
  | .array => "array"
  | .closure => "closure"
  | .string => "string"
  | .unknown => "unknown"

/-- All object types. -/
def ObjectType.all : List ObjectType :=
  [.object, .array, .closure, .string, .unknown]

/-- The approximate type of a value at run time. -/
inductive ValueType where
  | unknown
  | null
  | bool
  | int
  | float
  | string
  | array
  | object
  | closure
  deriving DecidableEq, Repr, Inhabited

/-- The name of a value type. -/
def ValueType.text : ValueType → String
  | .unknown => "unknown"
  | .null => "null"
  | .bool => "bool"
  | .int => "int"
  | .float => "float"
  | .string => "string"
  | .array => "array"
  | .object => "object"
  | .closure => "closure"

/-- All value types. -/
def ValueType.all : List ValueType :=
  [.unknown, .null, .bool, .int, .float, .string, .array, .object, .closure]

/-- A field of an allocated object. -/
structure ScalarField where
  name : String
  type : ValueType
  /-- The place of the field in order of first use. -/
  slot : UInt32
  /-- The offset in the object, eight bytes a field.  It leaves thirty-two bits at the
  field number 2^29. -/
  offset : UInt32
  deriving DecidableEq, Repr, Inhabited

/-- The field at a place. -/
def ScalarField.ofPlace (name : String) (type : ValueType) (place : Nat) : ScalarField :=
  let slot := UInt32.ofNat place
  ⟨name, type, slot, slot * 8⟩

@[simp] theorem ScalarField.name_ofPlace (name : String) (type : ValueType) (place : Nat) :
    (ofPlace name type place).name = name := rfl

/-- What is known about an allocation site. -/
structure EscapeRecord where
  node : NodeId
  state : EscapeState
  trail : List EscapePoint
  /-- Whether the object is used through named fields only. -/
  canScalarReplace : Bool
  fields : List ScalarField
  objectType : ObjectType
  className : Option String
  size : UInt32
  /-- Whether the size was counted; otherwise it is the default of the type. -/
  sizeIsExplicit : Bool
  position : Option Position
  deriving DecidableEq, Repr, Inhabited

/-- The largest object that goes on a stack frame unless configured otherwise. -/
def defaultMaxObjectSize : UInt32 := 256

namespace EscapeRecord

/-- The record of a site that nothing is known about yet. -/
def new (node : NodeId) (objectType : ObjectType) (size : UInt32) (sizeIsExplicit : Bool) :
    EscapeRecord where
  node := node
  state := .noEscape
  trail := []
  canScalarReplace := false
  fields := []
  objectType := objectType
  className := none
  size := size
  sizeIsExplicit := sizeIsExplicit
  position := none

/-- Raises the state to at least the given one; a rise is recorded with its reason. -/
def escalate (record : EscapeRecord) (state : EscapeState) (reason : EscapeReason)
    (position : Option Position) : EscapeRecord :=
  let merged := record.state.merge state
  if merged = record.state then record
  else { record with state := merged, trail := record.trail ++ [⟨position, reason⟩] }

/-- Adds a use of a field to a list of fields.  A field is listed where it is first
used, and its type is the first known one. -/
def addField (name : String) (type : ValueType) (fields : List ScalarField) :
    List ScalarField :=
  if fields.any (·.name = name) then
    fields.map fun field =>
      if field.name = name ∧ field.type = .unknown then { field with type } else field
  else
    fields ++ [.ofPlace name type fields.length]

/-- Records a use of a field. -/
def recordField (record : EscapeRecord) (name : String) (type : ValueType) : EscapeRecord :=
  { record with fields := addField name type record.fields }

/-- The reasons of all rises in order. -/
def reasons (record : EscapeRecord) : List EscapeReason :=
  record.trail.map (·.reason)

/-- Whether the object may take a stack slot when objects may have at most the given
size; whether the frame has room for it is another matter. -/
def fitsOnStack (record : EscapeRecord) (maxObjectSize : UInt32) : Bool :=
  record.state = .noEscape && 0 < record.size && record.size ≤ maxObjectSize

/-- Whether the object may take a stack slot under the default size limit. -/
def isStackAllocatable (record : EscapeRecord) : Bool :=
  record.fitsOnStack defaultMaxObjectSize

/-- Whether the object may be replaced by one local for each field. -/
def isScalarReplaceable (record : EscapeRecord) : Bool :=
  record.state = .noEscape && record.canScalarReplace && !record.fields.isEmpty

end EscapeRecord

end EscapePlan
