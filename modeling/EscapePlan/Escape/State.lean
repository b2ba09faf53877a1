/-!
# Escape states

How far the reachability of a value extends.  The three known states form a chain,
and `unknown` is the state of a value that nothing has been learned about.

There are two orders.  By `height`, `unknown` lies at the bottom and is neutral when
states are merged; by `rank`, it lies at the top and absorbs every other state.
-/

namespace EscapePlan

/-- How far the reachability of a value extends. -/
inductive EscapeState where
  /-- Confined to the scope that allocates it. -/
  | noEscape
  /-- Reachable from an argument of the caller. -/
  | argEscape
  /-- Reachable from anywhere. -/
  | globalEscape
  | unknown
  deriving DecidableEq, Repr, Inhabited

namespace EscapeState

/-- The place of a state when `unknown` is the top. -/
def rank : EscapeState → Nat
  | .noEscape => 0
  | .argEscape => 1
  | .globalEscape => 2
  | .unknown => 3

/-- The place of a state when `unknown` is the bottom. -/
def height : EscapeState → Nat
  | .unknown => 0
  | .noEscape => 1
  | .argEscape => 2
  | .globalEscape => 3

/-- The higher of two states. -/
def merge (first second : EscapeState) : EscapeState :=
  if second.height ≤ first.height then first else second

/-- The state of higher rank. -/
def mergeRanked (first second : EscapeState) : EscapeState :=
  if second.rank ≤ first.rank then first else second

/-- The greater of two states in the chosen order. -/
def mergeWith (unknownIsBottom : Bool) (first second : EscapeState) : EscapeState :=
  if unknownIsBottom then first.merge second else first.mergeRanked second

/-- The place of a state in the chosen order. -/
def level (unknownIsBottom : Bool) (state : EscapeState) : Nat :=
  if unknownIsBottom then state.height else state.rank

/-- Whether a value is known to leave its scope. -/
def isEscaping : EscapeState → Bool
  | .argEscape | .globalEscape => true
  | .noEscape | .unknown => false

/-- The displayed name of a state. -/
def text : EscapeState → String
  | .noEscape => "NoEscape"
  | .argEscape => "ArgEscape"
  | .globalEscape => "GlobalEscape"
  | .unknown => "Unknown"

/-- The name of a state in serialized results. -/
def tag : EscapeState → String
  | .noEscape => "no_escape"
  | .argEscape => "arg_escape"
  | .globalEscape => "global_escape"
  | .unknown => "unknown"

/-- All states. -/
def all : List EscapeState :=
  [.noEscape, .argEscape, .globalEscape, .unknown]

theorem level_le (unknownIsBottom : Bool) (state : EscapeState) :
    state.level unknownIsBottom ≤ 3 := by
  cases unknownIsBottom <;> cases state <;> decide

theorem level_injective {unknownIsBottom : Bool} {first second : EscapeState}
    (same : first.level unknownIsBottom = second.level unknownIsBottom) : first = second := by
  revert same
  cases unknownIsBottom <;> cases first <;> cases second <;> decide

/-- Merging takes the maximum of the levels. -/
theorem level_mergeWith (unknownIsBottom : Bool) (first second : EscapeState) :
    (mergeWith unknownIsBottom first second).level unknownIsBottom =
      max (first.level unknownIsBottom) (second.level unknownIsBottom) := by
  cases unknownIsBottom <;> cases first <;> cases second <;> decide

end EscapeState

end EscapePlan
