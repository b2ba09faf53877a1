import EscapePlan.Proofs.Flow.Conversion

/-!
# Calls on data-flow graphs

A data-flow graph is built by calls that add nodes and edges, give nodes states, bind names,
enter and leave scopes and convert the control flow.  Whatever the calls are, all tables of the
graph tell of the same nodes and edges afterwards, edges stay in the order in which they were
added, and calls between entering a scope and leaving it do not change what names are bound to
outside of it.
-/

namespace EscapePlan.DataFlowGraph

/-- A call that changes a graph. -/
inductive Call where
  | addNode (kind : NodeKind) (origin : Option NodeIndex) (position : Option Position)
      (type : ValueType)
  | addEdge (edge : Edge)
  | setState (id : NodeId) (state : EscapeState)
  | bind (name : StrId) (node : NodeId)
  | pushScope
  | popScope
  /-- Control flow is built beside the values; any may take the place of that there was. -/
  | setFlow (flow : ControlFlow)
  | convertToSsa

/-- The graph after a call. -/
def call (graph : DataFlowGraph) : Call → DataFlowGraph
  | .addNode kind origin position type =>
      { graph with values := (graph.values.addNode kind origin position type).2 }
  | .addEdge edge => { graph with values := graph.values.addEdge edge }
  | .setState id state => { graph with values := graph.values.setState id state }
  | .bind name node => { graph with scopes := graph.scopes.bind name node }
  | .pushScope => { graph with scopes := graph.scopes.push }
  | .popScope => { graph with scopes := graph.scopes.pop }
  | .setFlow flow => { graph with flow }
  | .convertToSsa => graph.convertToSsa

/-- The graph after calls one after the other. -/
def run (graph : DataFlowGraph) (calls : List Call) : DataFlowGraph :=
  calls.foldl call graph

/-- Whether calls leave every scope that they enter and so many more, each after it was entered. -/
def leavesScopes : Nat → List Call → Bool
  | depth, [] => depth = 0
  | depth, .pushScope :: calls => leavesScopes (depth + 1) calls
  | 0, .popScope :: _ => false
  | depth + 1, .popScope :: calls => leavesScopes depth calls
  | depth, _ :: calls => leavesScopes depth calls

/-- The tables of a graph tell of the same nodes and edges, later calls add edges after the ones
there are, and what happens within a scope stays there. -/
structure WellKept (graph : DataFlowGraph) : Prop where
  id_eq : ∀ (place : Nat) (node : ValueNode),
    graph.values.node? place = some node → node.id = place
  ends_lt : ∀ edge ∈ graph.values.edges,
    edge.source < graph.values.size ∧ edge.target < graph.values.size
  nodup : graph.values.edges.toList.Nodup
  outgoing_eq : ∀ id, graph.values.outgoing id = graph.values.edges.toList.filter (·.source = id)
  incoming_eq : ∀ id, graph.values.incoming id = graph.values.edges.toList.filter (·.target = id)
  /-- What adding an edge answers. -/
  accepts_iff : ∀ edge, graph.values.accepts edge = true ↔
    edge.source < graph.values.size ∧ edge.target < graph.values.size ∧ edge ∉ graph.values.edges
  accepted : ∀ edge, graph.values.accepts edge = true →
    (graph.call (.addEdge edge)).values.edges = graph.values.edges.push edge ∧
      (graph.call (.addEdge edge)).values.nodes = graph.values.nodes
  refused : ∀ edge, graph.values.accepts edge = false → graph.call (.addEdge edge) = graph
  later : ∀ calls, graph.values.edges.toList <+: (graph.run calls).values.edges.toList
  scopes_eq : ∀ calls, leavesScopes 0 calls = true → ∀ name,
    (graph.run (.pushScope :: calls ++ [.popScope])).scopes.find? name = graph.scopes.find? name

/-! ## Edges -/

theorem edges_prefix_convertToSsa (graph : DataFlowGraph) :
    graph.values.edges.toList <+: graph.convertToSsa.values.edges.toList := by
  rcases graph.exists_adds_convertToSsa with ⟨added, adds⟩
  rw [adds.edges_eq, edges_withPhis]
  exact List.prefix_append _ _

/-- A call adds edges after those there are. -/
theorem edges_prefix_call (graph : DataFlowGraph) (next : Call) :
    graph.values.edges.toList <+: (graph.call next).values.edges.toList := by
  cases next with
  | addEdge edge =>
      rw [call, ValueGraph.edges_addEdge]
      split
      next => exact List.prefix_append _ _
      next => exact List.prefix_rfl
  | convertToSsa =>
      rw [call]
      exact graph.edges_prefix_convertToSsa
  | addNode | setState | bind | pushScope | popScope | setFlow => exact List.prefix_rfl

theorem edges_prefix_run (graph : DataFlowGraph) (calls : List Call) :
    graph.values.edges.toList <+: (graph.run calls).values.edges.toList := by
  induction calls generalizing graph with
  | nil => exact List.prefix_rfl
  | cons next calls inductionHypothesis =>
      exact (graph.edges_prefix_call next).trans (inductionHypothesis (graph.call next))

/-! ## Scopes -/

/-- What is put aside changes only when a scope is entered or left. -/
theorem saved_call_of_ne (graph : DataFlowGraph) {next : Call} (notPush : next ≠ .pushScope)
    (notPop : next ≠ .popScope) : (graph.call next).scopes.saved = graph.scopes.saved := by
  cases next with
  | pushScope => exact absurd rfl notPush
  | popScope => exact absurd rfl notPop
  | convertToSsa => rw [call, graph.scopes_convertToSsa_eq]
  | bind name node => rw [call, Scopes.bind]
  | addNode | addEdge | setState | setFlow => rw [call]

/-- Calls that leave so many scopes take away what was put aside when these were entered.  The
induction is on the calls: entering a scope puts one more aside, and leaving it takes that away
again. -/
theorem saved_run {calls : List Call} {depth : Nat} (leaves : leavesScopes depth calls = true)
    (graph : DataFlowGraph) :
    (graph.run calls).scopes.saved = graph.scopes.saved.drop depth := by
  fun_induction leavesScopes generalizing graph with
  | case1 depth =>
      rw [of_decide_eq_true leaves]
      rfl
  | case2 depth calls inductionHypothesis => exact inductionHypothesis leaves (graph.call .pushScope)
  | case3 => contradiction
  | case4 depth calls inductionHypothesis =>
      have left := inductionHypothesis leaves (graph.call .popScope)
      rw [show (graph.call .popScope).scopes.saved = _ from graph.scopes.saved_pop, List.drop_drop,
        Nat.add_comm] at left
      exact left
  | case5 depth next calls notPush atOutermost within inductionHypothesis =>
      have notPop : next ≠ .popScope := by
        cases depth with
        | zero => exact atOutermost rfl
        | succ depth => exact within depth rfl
      have left := inductionHypothesis leaves (graph.call next)
      rw [graph.saved_call_of_ne notPush notPop] at left
      exact left

/-- Entering a scope and leaving it brings back the scopes there were, whatever calls that leave
their scopes do in between. -/
theorem scopes_run_within {calls : List Call} (leaves : leavesScopes 0 calls = true)
    (graph : DataFlowGraph) :
    (graph.run (.pushScope :: calls ++ [.popScope])).scopes = graph.scopes := by
  have aside := saved_run leaves (graph.call .pushScope)
  have last : (graph.run (.pushScope :: calls ++ [.popScope])).scopes =
      ((graph.call .pushScope).run calls).scopes.pop := by
    rw [run, List.foldl_append]
    rfl
  rw [last, Scopes.pop, aside]
  rfl

/-! ## All calls -/

/-- Whatever calls make a graph, its tables tell of the same nodes and edges. -/
theorem wellKept_run (calls : List Call) : WellKept (empty.run calls) :=
  let graph := empty.run calls
  let values := graph.values
  { id_eq := values.coherent.id_eq
    ends_lt := values.coherent.ends_lt
    nodup := values.coherent.nodup
    outgoing_eq := values.outgoing_eq
    incoming_eq := values.incoming_eq
    accepts_iff := fun _ => ValueGraph.accepts_iff
    accepted := fun edge accepted =>
      ⟨ValueGraph.addEdge_of_accepts accepted, values.nodes_addEdge edge⟩
    refused := fun edge refused => by
      rw [call, ValueGraph.addEdge_of_not_accepts (refused ▸ Bool.false_ne_true)]
    later := graph.edges_prefix_run
    scopes_eq := fun inner leaves name => by rw [graph.scopes_run_within leaves] }

end EscapePlan.DataFlowGraph
