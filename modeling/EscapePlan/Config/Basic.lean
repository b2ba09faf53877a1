import EscapePlan.Escape.Record

/-!
# Configuration

The limits that placement keeps and the choices that the analysis leaves open.
Exceeding a limit only sends an object to the heap.
-/

namespace EscapePlan

/-- The sizes assumed for objects whose size cannot be counted. -/
structure DefaultSizes where
  object : UInt32 := 64
  array : UInt32 := 128
  string : UInt32 := 32
  closure : UInt32 := 64
  deriving DecidableEq, Repr, Inhabited

/-- The default size of an object type; objects of unknown type have none. -/
def DefaultSizes.forType (sizes : DefaultSizes) : ObjectType → Option UInt32
  | .object => some sizes.object
  | .array => some sizes.array
  | .string => some sizes.string
  | .closure => some sizes.closure
  | .unknown => none

/-- The configuration of analysis and placement. -/
structure Config where
  /-- The largest object that may go on a stack frame. -/
  maxObjectSize : UInt32 := defaultMaxObjectSize
  /-- How many bytes a stack frame may have. -/
  maxFrameSize : UInt32 := 4096
  /-- Whether `unknown` is the bottom of the escape states when they are merged;
  otherwise it is the top. -/
  unknownIsBottom : Bool := true
  enableScalarReplacement : Bool := true
  defaultSizes : DefaultSizes := {}
  deriving DecidableEq, Repr, Inhabited

end EscapePlan
