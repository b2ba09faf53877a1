import EscapePlan.Config.Basic
import EscapePlan.Table

/-!
# Stack frames

`StackLayout.place?` decides for each allocation site where its objects live.  Sites are
taken in order and the first rule that applies wins: an escaping object goes to the
heap; one that can be taken apart is replaced by locals; one of unknown size or above
the object limit goes to the heap; the rest take the next stack slot as long as the
frame has room.

The sizes on a frame are added up in thirty-two bits.  Whether there is room is told by
an addition that stops at the largest number, so a frame of the largest size never lacks
room.  The running total does not stop there: if it would exceed thirty-two bits, nothing
can be placed at all.
-/

namespace EscapePlan

/-- The number of a stack slot. -/
abbrev StackSlot := Nat

/-- How a stack slot is displayed. -/
def StackSlot.text (slot : StackSlot) : String :=
  "slot" ++ toString slot

/-- Where an object lives. -/
inductive Location where
  | heap
  | stack
  | scalarReplaced
  deriving DecidableEq, Repr, Inhabited

/-- The name of a location. -/
def Location.text : Location → String
  | .heap => "heap"
  | .stack => "stack"
  | .scalarReplaced => "scalar_replaced"

/-- Why an object lives where it does. -/
inductive DecisionReason where
  | escapes
  | tooLarge
  | stackOverflow
  | fitsOnStack
  | canScalarReplace
  /-- Neither the analysis nor the defaults of its type know a size. -/
  | unknownType
  deriving DecidableEq, Repr, Inhabited

/-- The name of a reason. -/
def DecisionReason.text : DecisionReason → String
  | .escapes => "escapes"
  | .tooLarge => "too_large"
  | .stackOverflow => "stack_overflow"
  | .fitsOnStack => "fits_on_stack"
  | .canScalarReplace => "can_scalar_replace"
  | .unknownType => "unknown_type"

/-- Where the objects of an allocation site live. -/
structure Decision where
  node : NodeId
  location : Location
  /-- The slot of an object on the stack. -/
  slot : Option StackSlot
  size : UInt32
  reason : DecisionReason
  deriving DecidableEq, Repr, Inhabited

/-- A stack frame under construction, and the decisions made so far. -/
structure StackLayout where
  decisions : Table Decision
  /-- The running total of the sizes of all objects on the frame. -/
  used : UInt32
  /-- How many slots are taken. -/
  slotCount : Nat
  /-- The limit on the frame. -/
  maxFrameSize : UInt32
  deriving DecidableEq, Repr, Inhabited

namespace StackLayout

/-- The frame before anything is placed. -/
def empty (config : Config) : StackLayout :=
  ⟨.empty, 0, 0, config.maxFrameSize⟩

/-- The running total of the sizes on the frame. -/
def stackSize (layout : StackLayout) : Nat :=
  layout.used.toNat

/-- The sum of two sizes, or the largest number of thirty-two bits if that is less. -/
def saturatingAdd (first second : UInt32) : UInt32 :=
  UInt32.ofNat (min (first.toNat + second.toNat) 4294967295)

/-- The sum of two sizes, unless it takes more than thirty-two bits. -/
def checkedAdd? (first second : UInt32) : Option UInt32 :=
  if first.toNat + second.toNat < UInt32.size then some (first + second) else none

/-- The size of an object: what its record says, or else the default of its type. -/
def sizeOf (config : Config) (record : EscapeRecord) : UInt32 :=
  if record.sizeIsExplicit || 0 < record.size then record.size
  else (config.defaultSizes.forType record.objectType).getD 0

/-- Why an object does not take a stack slot, or `none` if it does. -/
def refusal (config : Config) (layout : StackLayout) (record : EscapeRecord) :
    Option (Location × DecisionReason) :=
  let size := sizeOf config record
  if record.state ≠ .noEscape then some (.heap, .escapes)
  else if record.isScalarReplaceable then some (.scalarReplaced, .canScalarReplace)
  else if size = 0 then some (.heap, .unknownType)
  else if config.maxObjectSize < size then some (.heap, .tooLarge)
  else if layout.maxFrameSize < saturatingAdd layout.used size then
    some (.heap, .stackOverflow)
  else none

/-- Decides about the next allocation site, unless the running total would exceed thirty-two
bits. -/
def placeOne? (config : Config) (layout : StackLayout) (record : EscapeRecord) :
    Option StackLayout :=
  let size := sizeOf config record
  match layout.refusal config record with
  | some (location, reason) =>
      some { layout with
        decisions := layout.decisions.insert record.node
          ⟨record.node, location, none, size, reason⟩ }
  | none =>
      (checkedAdd? layout.used size).map fun used =>
        { layout with
          decisions := layout.decisions.insert record.node
            ⟨record.node, .stack, some layout.slotCount, size, .fitsOnStack⟩
          used
          slotCount := layout.slotCount + 1 }

/-- Decides about all allocation sites in order. -/
def place? (config : Config) (records : List EscapeRecord) : Option StackLayout :=
  records.foldlM (placeOne? config) (empty config)

/-- Decides about all allocation sites in order on a frame that has been used before; what
was decided then is forgotten. -/
def placeAnew? (config : Config) (layout : StackLayout) (records : List EscapeRecord) :
    Option StackLayout :=
  records.foldlM (placeOne? config) { layout with decisions := .empty, used := 0, slotCount := 0 }

/-- The decision about an allocation site. -/
def decision? (layout : StackLayout) (node : NodeId) : Option Decision :=
  layout.decisions.find? node

/-- The bytes that objects on the stack take from the heap. -/
def bytesPromoted (layout : StackLayout) : Nat :=
  -- The empty sum is the literal, whatever other zeros are in scope.
  @List.sum Nat _ Zero.ofOfNat0
    ((layout.decisions.values.filter (·.location = .stack)).map (·.size.toNat))

/-- How many allocation sites have their objects at a location. -/
def count (layout : StackLayout) (location : Location) : Nat :=
  (layout.decisions.values.filter (·.location = location)).length

end StackLayout

end EscapePlan
