import EscapePlan.Escape.Record

/-!
# Scopes

Each function has bindings of its own from names to value nodes.  Entering a
function puts the bindings of the surrounding one aside; leaving it brings them
back as they were.
-/

namespace EscapePlan

/-- Bindings from names to value nodes, the latest first. -/
abbrev Bindings := List (StrId × NodeId)

/-- The bindings of the current function and those put aside. -/
structure Scopes where
  current : Bindings
  saved : List Bindings
  deriving DecidableEq, Repr, Inhabited

namespace Scopes

/-- A single scope without bindings. -/
def empty : Scopes :=
  ⟨[], []⟩

/-- Binds a name. -/
def bind (scopes : Scopes) (name : StrId) (node : NodeId) : Scopes :=
  { scopes with current := (name, node) :: scopes.current }

/-- The node that a name is bound to. -/
def find? (scopes : Scopes) (name : StrId) : Option NodeId :=
  (scopes.current.find? (·.1 = name)).map (·.2)

/-- Enters a scope without bindings. -/
def push (scopes : Scopes) : Scopes :=
  ⟨[], scopes.current :: scopes.saved⟩

/-- Leaves a scope; the outermost one is never left. -/
def pop (scopes : Scopes) : Scopes :=
  match scopes.saved with
  | [] => scopes
  | outer :: saved => ⟨outer, saved⟩

/-- Binding a name changes what that name is bound to and nothing else. -/
theorem find?_bind (scopes : Scopes) (name other : StrId) (node : NodeId) :
    (scopes.bind name node).find? other =
      if name = other then some node else scopes.find? other := by
  unfold find? bind
  rw [List.find?_cons]
  by_cases same : name = other
  · simp [same]
  · simp [same]

@[simp] theorem find?_push (scopes : Scopes) (name : StrId) : scopes.push.find? name = none := rfl

theorem saved_pop (scopes : Scopes) : scopes.pop.saved = scopes.saved.drop 1 := by
  rw [pop]
  split
  next none => rw [none, List.drop_nil]
  next outer saved some => rw [some, List.drop_succ_cons, List.drop_zero]

/-- Leaving a scope undoes entering it. -/
@[simp] theorem pop_push (scopes : Scopes) : scopes.push.pop = scopes := rfl

end Scopes

end EscapePlan
