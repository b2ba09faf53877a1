import EscapePlan.Graph.Value
import EscapePlan.Table

/-!
# Propagation of escape states

A value escapes at least as far as every value it flows into.  `propagate` computes
the least states above the seeds for which this holds: it recomputes nodes from a
queue, and a node whose state rises queues its predecessors again.  States only rise,
and at most three times, so the queue runs empty.

Afterwards `judgeRecords` decides which objects are used through named fields only.
-/

namespace EscapePlan

/-- The records of all allocation sites by node. -/
abbrev Records := Table EscapeRecord

/-- How much work a propagation took. -/
structure PropagationStats where
  /-- How many nodes were taken from the queue. -/
  iterations : Nat
  /-- How many times a state rose. -/
  increases : Nat
  deriving DecidableEq, Repr, Inhabited

namespace Propagation

/-- The state that a node starts from: that of its kind, joined with what its record
holds already. -/
def seed (unknownIsBottom : Bool) (records : Records) (id : NodeId) (node : ValueNode) :
    EscapeState :=
  match records.find? id with
  | none => node.kind.initialState
  | some record => node.kind.initialState.mergeWith unknownIsBottom record.state

/-- Puts every node into the state it starts from. -/
def seedAll (unknownIsBottom : Bool) (records : Records) (graph : ValueGraph) : ValueGraph :=
  graph.setStates (seed unknownIsBottom records)

/-- The state of a node joined with the states of the values it flows into. -/
def joined (unknownIsBottom : Bool) (graph : ValueGraph) (id : NodeId) (state : EscapeState) :
    EscapeState :=
  ((graph.outgoing id).filterMap fun edge => graph.state? edge.target).foldl
    (EscapeState.mergeWith unknownIsBottom) state

/-- Queues a node that is not in the queue. -/
def enqueue (queue : List NodeId) (id : NodeId) : List NodeId :=
  if queue.contains id then queue else queue ++ [id]

/-- How far the states of all nodes can still rise together. -/
def room (unknownIsBottom : Bool) (graph : ValueGraph) : Nat :=
  -- The empty sum is the literal, whatever other zeros are in scope.
  @List.sum Nat _ Zero.ofOfNat0
    (graph.nodes.toList.map fun node => 3 - node.state.level unknownIsBottom)

theorem level_le_joined (unknownIsBottom : Bool) (graph : ValueGraph) (id : NodeId)
    (state : EscapeState) :
    state.level unknownIsBottom ≤
      (joined unknownIsBottom graph id state).level unknownIsBottom := by
  unfold joined
  generalize (graph.outgoing id).filterMap (fun edge => graph.state? edge.target) = targets
  induction targets generalizing state with
  | nil => exact Nat.le_refl _
  | cons target targets inductionHypothesis =>
      refine Nat.le_trans ?_ (inductionHypothesis _)
      rw [EscapeState.level_mergeWith]
      exact Nat.le_max_left _ _

/-- Raising the state of a known node leaves less room. -/
theorem room_setState_lt {unknownIsBottom : Bool} {graph : ValueGraph} {id : NodeId}
    {current raised : EscapeState} (found : graph.state? id = some current)
    (rises : current.level unknownIsBottom < raised.level unknownIsBottom) :
    room unknownIsBottom (graph.setState id raised) < room unknownIsBottom graph := by
  unfold room
  unfold ValueGraph.state? ValueGraph.node? at found
  rw [ValueGraph.nodes_setState, Array.toList_modify]
  rw [← Array.getElem?_toList] at found
  generalize graph.nodes.toList = nodes at found
  have bound := EscapeState.level_le unknownIsBottom raised
  induction nodes generalizing id with
  | nil => simp at found
  | cons node nodes inductionHypothesis =>
      cases id with
      | zero =>
          simp at found
          subst found
          simp
          omega
      | succ id =>
          simp only [List.getElem?_cons_succ] at found
          have less := inductionHypothesis found
          simp only [List.modify_succ_cons, List.map_cons, List.sum_cons]
          omega

/-- Recomputes the nodes of the queue until it is empty. -/
def run (unknownIsBottom : Bool) (graph : ValueGraph) (queue : List NodeId)
    (stats : PropagationStats) : ValueGraph × PropagationStats :=
  match queue with
  | [] => (graph, stats)
  | id :: rest =>
      let stats := { stats with iterations := stats.iterations + 1 }
      match _ : graph.state? id with
      | none => run unknownIsBottom graph rest stats
      | some current =>
          if joined unknownIsBottom graph id current = current then
            run unknownIsBottom graph rest stats
          else
            run unknownIsBottom (graph.setState id (joined unknownIsBottom graph id current))
              (((graph.incoming id).map (·.source)).foldl enqueue rest)
              { stats with increases := stats.increases + 1 }
termination_by (room unknownIsBottom graph, queue.length)
decreasing_by
  · exact Prod.Lex.right _ (by simp)
  · exact Prod.Lex.right _ (by simp)
  · rename_i found changed
    refine Prod.Lex.left _ _ (room_setState_lt found ?_)
    refine Nat.lt_of_le_of_ne (level_le_joined _ _ _ _) fun same => changed ?_
    exact (EscapeState.level_injective same).symm

/-- Raises a record to the state of its node. -/
def raise (unknownIsBottom : Bool) (graph : ValueGraph) (record : EscapeRecord) :
    EscapeRecord :=
  match graph.state? record.node with
  | none => record
  | some state =>
      let merged := record.state.mergeWith unknownIsBottom state
      if merged = record.state then record
      else
        { record with
          state := merged
          trail := record.trail ++ [⟨record.position, .flowsToEscapingValue⟩] }

end Propagation

/-- Propagates escape states through the graph and raises the records. -/
def propagate (unknownIsBottom : Bool) (graph : ValueGraph) (records : Records) :
    ValueGraph × Records × PropagationStats :=
  let (graph, stats) := Propagation.run unknownIsBottom
    (Propagation.seedAll unknownIsBottom records graph) (List.range graph.size) ⟨0, 0⟩
  (graph, records.map (Propagation.raise unknownIsBottom graph), stats)

/-- Whether another allocation is the base of an access too. -/
def sharesAccess (graph : ValueGraph) (allocation access : NodeId) : Bool :=
  (graph.incoming access).any fun edge =>
    edge.source ≠ allocation && edge.kind = .defUse && graph.isAllocation edge.source

/-- Whether all uses of an object are accesses to its named fields, none of them shared
with another allocation. -/
def usedByFieldsOnly (graph : ValueGraph) (allocation : NodeId) : Bool :=
  (graph.outgoing allocation).all fun edge =>
    (graph.kind? edge.target).any NodeKind.isFieldAccess &&
      !sharesAccess graph allocation edge.target

/-- Decides for every record whether its object may be taken apart. -/
def judgeRecords (enabled : Bool) (graph : ValueGraph) (records : Records) : Records :=
  records.map fun record =>
    { record with
      canScalarReplace := enabled && record.state = .noEscape && !record.fields.isEmpty &&
        usedByFieldsOnly graph record.node }

end EscapePlan
