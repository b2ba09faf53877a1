import EscapePlan.Analysis.Walk
import EscapePlan.Iteration

/-!
# Aliases

A flow says that a variable may denote whatever a value denotes: an allocation denotes
itself, and a node of a variable what its variable denotes.  A round takes the flows one
after the other, in the order in which they were noted, and lets each variable denote what
the value denotes so far; rounds are repeated until one changes nothing.

The result becomes part of the value graph, as edges from the nodes of a variable to the
allocations it may denote.
-/

namespace EscapePlan.Walk

/-- Variables with allocations that they may denote, each pair once, the latest first. -/
abbrev Targets := List (VarKey × NodeId)

/-- The allocations that a variable may denote. -/
def targetsOf (targets : Targets) (key : VarKey) : List NodeId :=
  (targets.filter (·.1 = key)).map (·.2)

/-- The allocations that a value may denote, as far as is known. -/
def directAliases (walk : Walk) (targets : Targets) (value : NodeId) : List NodeId :=
  if walk.graph.values.isAllocation value then [value]
  else (walk.varKey? value).elim [] (targetsOf targets)

/-- Lets a variable denote what a value denotes. -/
def follow (walk : Walk) (targets : Targets) (flow : VarKey × NodeId) : Targets :=
  (walk.directAliases targets flow.2).foldl
    (fun targets allocation => targets.insert (flow.1, allocation)) targets

/-- Takes all flows, one after the other. -/
def followAll (walk : Walk) (targets : Targets) : Targets :=
  walk.flows.toList.foldl walk.follow targets

/-- What all variables may denote.  A variable of a flow may denote no more than the values of
the flows, so as many rounds as there are pairs of flows are enough. -/
def targets? (walk : Walk) : Option Targets :=
  Iteration.untilStable (fun targets => some (walk.followAll targets))
    (walk.flows.size * walk.flows.size + 1) []

/-- The nodes of variables in ascending order. -/
def variableNodes (walk : Walk) : List NodeId :=
  (List.range walk.graph.values.size).filter fun id => (walk.varKey? id).isSome

/-- The allocations that the variable of a node may denote, in ascending order. -/
def denoted (walk : Walk) (targets : Targets) (id : NodeId) : List NodeId :=
  let allocations := (walk.varKey? id).elim [] (targetsOf targets)
  (List.range walk.graph.values.size).filter allocations.contains

/-- The edges from the nodes of variables to the allocations they may denote. -/
def aliasEdges (walk : Walk) : List Edge :=
  let targets := walk.targets?.getD []
  walk.variableNodes.flatMap fun id =>
    (walk.denoted targets id).map fun allocation => ⟨id, allocation, .pointsTo⟩

/-- Adds the edges from the nodes of variables to the allocations they may denote. -/
def resolveAliases (walk : Walk) : Walk :=
  { walk with
    graph := { walk.graph with
      values := walk.aliasEdges.foldl ValueGraph.addEdge walk.graph.values } }

/-- The allocations that a value may denote, once aliases are resolved. -/
def aliases (walk : Walk) (value : NodeId) : List NodeId :=
  if walk.graph.values.isAllocation value then [value] else walk.graph.values.pointsTo value

end EscapePlan.Walk
