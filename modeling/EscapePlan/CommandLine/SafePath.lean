import EscapePlan.Source.Path

/-!
# Paths that do not climb

A path given on the command line may not lead upwards: none of its components is the
parent directory.  `SafePath.ofText` accepts just these paths, and takes them as they
are.
-/

namespace EscapePlan

/-- A path none of whose components is the parent directory. -/
structure SafePath where
  text : String
  stays : .parent ∉ Path.components text
  deriving DecidableEq, Repr

namespace SafePath

/-- The wording of a refusal. -/
def refusal (text : String) : String :=
  "Parent directory components ('..') are not allowed: '" ++ text ++ "'"

/-- Takes a text for a path, unless it climbs. -/
def ofText (text : String) : Except String SafePath :=
  if climbs : .parent ∈ Path.components text then .error (refusal text)
  else .ok ⟨text, climbs⟩

end SafePath

end EscapePlan
