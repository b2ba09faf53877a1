import EscapePlan.Graph.Value

/-!
# Edges that are added

An edge is added once, and only between known nodes.  So of several edges that are added
one after the other, those that are new and join known nodes come after the edges there
were, each of them once.
-/

namespace EscapePlan.ValueGraph

variable {graph : ValueGraph} {edge other : Edge} {edges : List Edge}

/-- What adding some edges does. -/
structure Adds (edges : List Edge) (before : ValueGraph) (added : List Edge)
    (after : ValueGraph) : Prop where
  nodes_eq : after.nodes = before.nodes
  edges_eq : after.edges.toList = before.edges.toList ++ added
  nodup : added.Nodup
  sublist : added.Sublist edges
  mem_iff : ∀ edge, edge ∈ added ↔
    edge ∈ edges ∧ edge.source < before.size ∧ edge.target < before.size ∧ edge ∉ before.edges

theorem exists_adds (graph : ValueGraph) (edges : List Edge) :
    ∃ added, Adds edges graph added (edges.foldl addEdge graph) := by
  induction edges generalizing graph with
  | nil => exact ⟨[], rfl, (List.append_nil _).symm, .nil, .slnil, by simp⟩
  | cons edge rest inductionHypothesis =>
      rcases inductionHypothesis (graph.addEdge edge) with ⟨added, adds⟩
      have nodesEq := adds.nodes_eq.trans (nodes_addEdge graph edge)
      have edgesEq := adds.edges_eq
      have memIff := adds.mem_iff
      simp only [size_addEdge] at memIff
      rw [edges_addEdge] at edgesEq
      by_cases accepted : graph.accepts edge = true
      · rw [if_pos accepted] at edgesEq
        have listed : ∀ found, found ∈ (graph.addEdge edge).edges ↔
            found ∈ graph.edges ∨ found = edge := by
          simp [addEdge_of_accepts accepted, Array.mem_push]
        have known := accepts_iff.1 accepted
        refine ⟨edge :: added, nodesEq, by rw [List.foldl_cons, edgesEq, List.append_assoc]; rfl,
          ?_, adds.sublist.cons_cons edge, fun found => ?_⟩
        · refine List.nodup_cons.2 ⟨fun member => ?_, adds.nodup⟩
          exact ((memIff edge).1 member).2.2.2 ((listed edge).2 (.inr rfl))
        · simp only [List.mem_cons, memIff, listed]
          grind
      · rw [if_neg accepted] at edgesEq
        have same : graph.addEdge edge = graph := addEdge_of_not_accepts accepted
        refine ⟨added, nodesEq, by rw [List.foldl_cons, edgesEq], adds.nodup,
          adds.sublist.cons edge, fun found => ?_⟩
        rw [accepts_iff] at accepted
        rw [memIff, same, List.mem_cons]
        grind

theorem nodes_foldl_addEdge (graph : ValueGraph) (edges : List Edge) :
    (edges.foldl addEdge graph).nodes = graph.nodes :=
  (exists_adds graph edges).elim fun _ adds => adds.nodes_eq

theorem mem_edges_foldl_addEdge_iff :
    edge ∈ (edges.foldl addEdge graph).edges ↔
      edge ∈ graph.edges ∨
        edge ∈ edges ∧ edge.source < graph.size ∧ edge.target < graph.size := by
  rcases exists_adds graph edges with ⟨added, adds⟩
  rw [← Array.mem_toList_iff, adds.edges_eq, List.mem_append, adds.mem_iff, Array.mem_toList_iff]
  grind

theorem mem_foldl_addEdge (listed : edge ∈ (edges.foldl addEdge graph).edges) :
    edge ∈ graph.edges ∨ edge ∈ edges :=
  (mem_edges_foldl_addEdge_iff.1 listed).imp_right And.left

theorem mem_edges_foldl_addEdge (listed : edge ∈ graph.edges) :
    edge ∈ (edges.foldl addEdge graph).edges :=
  mem_edges_foldl_addEdge_iff.2 (.inl listed)

/-- An edge between known nodes is there once it has been added. -/
theorem foldl_addEdge_mem (listed : edge ∈ edges) (source : edge.source < graph.size)
    (target : edge.target < graph.size) : edge ∈ (edges.foldl addEdge graph).edges :=
  mem_edges_foldl_addEdge_iff.2 (.inr ⟨listed, source, target⟩)

/-- Adding the same edges again changes nothing. -/
theorem foldl_addEdge_foldl_addEdge (graph : ValueGraph) (edges : List Edge) :
    edges.foldl addEdge (edges.foldl addEdge graph) = edges.foldl addEdge graph := by
  rcases exists_adds (edges.foldl addEdge graph) edges with ⟨added, adds⟩
  have size : (edges.foldl addEdge graph).size = graph.size :=
    congrArg Array.size (nodes_foldl_addEdge graph edges)
  have nothing : added = [] := by
    refine List.eq_nil_iff_forall_not_mem.2 fun edge member => ?_
    rcases (adds.mem_iff edge).1 member with ⟨listed, source, target, absent⟩
    rw [size] at source target
    exact absent (foldl_addEdge_mem listed source target)
  have edgesEq := adds.edges_eq
  rw [nothing, List.append_nil, Array.toList_inj] at edgesEq
  exact eq_of_same adds.nodes_eq edgesEq

/-- An edge is new only if its source is known. -/
theorem mem_of_mem_addEdge (listed : edge ∈ (graph.addEdge other).edges) :
    edge ∈ graph.edges ∨ edge = other ∧ other.source < graph.size := by
  have added : edge ∈ ([other].foldl addEdge graph).edges := listed
  rw [mem_edges_foldl_addEdge_iff, List.mem_singleton] at added
  exact added.imp_right fun ⟨same, source, _⟩ => ⟨same, same ▸ source⟩

theorem mem_edges_addEdge (listed : edge ∈ graph.edges) : edge ∈ (graph.addEdge other).edges := by
  show edge ∈ ([other].foldl addEdge graph).edges
  exact mem_edges_foldl_addEdge listed

theorem addEdge_mem (source : edge.source < graph.size) (target : edge.target < graph.size) :
    edge ∈ (graph.addEdge edge).edges := by
  show edge ∈ ([edge].foldl addEdge graph).edges
  exact foldl_addEdge_mem List.mem_cons_self source target

/-- Only edges to allocations that may be denoted change what a value points to. -/
theorem pointsTo_addEdge (use : edge.kind ≠ .pointsTo) (id : NodeId) :
    (graph.addEdge edge).pointsTo id = graph.pointsTo id := by
  rw [pointsTo, pointsTo, outgoing_eq, outgoing_eq, edges_addEdge]
  split
  next => simp [List.filter_append, List.filter_cons, use]
  next => rfl

theorem mem_pointsTo {source target : NodeId} :
    target ∈ graph.pointsTo source ↔ ⟨source, target, .pointsTo⟩ ∈ graph.edges := by
  simp only [pointsTo, outgoing_eq, List.mem_map, List.mem_filter, Array.mem_toList_iff,
    decide_eq_true_eq]
  constructor
  · rintro ⟨edge, ⟨⟨listed, rfl⟩, kind⟩, rfl⟩
    exact kind ▸ listed
  · intro listed
    exact ⟨_, ⟨⟨listed, rfl⟩, rfl⟩, rfl⟩

/-- Known nodes stay what they are when a node is added. -/
theorem node?_of_addNode {kind : NodeKind} {origin : Option NodeIndex} {position : Option Position}
    {type : ValueType} {id : NodeId} {node : ValueNode} (found : graph.node? id = some node) :
    (graph.addNode kind origin position type).2.node? id = some node := by
  have known : id < graph.size := (Array.getElem?_eq_some_iff.1 found).1
  rw [node?_addNode, if_neg (Nat.ne_of_lt known)]
  exact found

end EscapePlan.ValueGraph
