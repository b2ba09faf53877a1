import EscapePlan.Graph.Value
import EscapePlan.Graph.Scope
import EscapePlan.Flow.PhiPlacement
import EscapePlan.Flow.Renaming

/-!
# Data-flow graphs

A data-flow graph joins the value graph, the scopes and the control flow of one
program.  Conversion to single assignment form adds to the value graph a node for
every phi and an edge into it from every node that defines one of its sources.
-/

namespace EscapePlan

/-- The values, names and blocks of a program. -/
structure DataFlowGraph where
  values : ValueGraph
  scopes : Scopes
  flow : ControlFlow
  deriving DecidableEq, Repr, Inhabited

namespace DataFlowGraph

/-- The graph of a program that has not been looked at. -/
def empty : DataFlowGraph :=
  ⟨.empty, .empty, .empty⟩

/-- Adds a phi node and the phi. -/
def placePhi (graph : DataFlowGraph) (site : BlockId × VarId) : DataFlowGraph :=
  let (node, values) := graph.values.addNode .phi none none .unknown
  { graph with values, flow := graph.flow.attachPhi site.1 site.2 node }

/-- Adds the edge from a defining node to a phi node. -/
def linkPhi (values : ValueGraph) (link : NodeId × NodeId) : ValueGraph :=
  values.addEdge ⟨link.1, link.2, .defUse⟩

/-- Converts the control flow to single assignment form. -/
def convertToSsa (graph : DataFlowGraph) : DataFlowGraph :=
  let flow := graph.flow.computeDominators.computeFrontiers
  let graph := flow.newPhis.foldl placePhi { graph with flow }
  let (flow, links) := graph.flow.rename
  { graph with flow, values := links.foldl linkPhi graph.values }

end DataFlowGraph

end EscapePlan
