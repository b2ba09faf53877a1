import EscapePlan.Graph.Tables

/-!
# Value graphs

A value graph has a node for every value the analysis tells apart and an edge for
every way a value flows into another.  Nodes are numbered in order of creation.  An
edge joins known nodes and is listed once for its ends and kind.  The graph consists of
tables that have been kept coherent, so that it does not matter from which of them an
answer is read.
-/

namespace EscapePlan

/-- A graph of values: tables that have been kept coherent. -/
structure ValueGraph extends ValueTables where
  coherent : toValueTables.Coherent
  deriving DecidableEq, Repr

namespace ValueGraph

/-- The graph without values. -/
def empty : ValueGraph :=
  ⟨.empty, .empty⟩

instance : Inhabited ValueGraph :=
  ⟨empty⟩

/-- The number of nodes. -/
def size (graph : ValueGraph) : Nat :=
  graph.nodes.size

/-- Adds a node in the state its kind starts from. -/
def addNode (graph : ValueGraph) (kind : NodeKind) (origin : Option NodeIndex)
    (position : Option Position) (type : ValueType) : NodeId × ValueGraph :=
  (graph.size, ⟨graph.toValueTables.addNode kind origin position type,
    graph.coherent.addNode kind origin position type⟩)

/-- Whether an edge is added when it is asked for: its ends are known, and it is not listed
yet. -/
def accepts (graph : ValueGraph) (edge : Edge) : Bool :=
  (graph.toValueTables.addEdge edge).1

/-- Adds an edge that may be added, and leaves the graph alone otherwise. -/
def addEdge (graph : ValueGraph) (edge : Edge) : ValueGraph :=
  ⟨(graph.toValueTables.addEdge edge).2, graph.coherent.addEdge edge⟩

/-- The node of a number. -/
def node? (graph : ValueGraph) (id : NodeId) : Option ValueNode :=
  graph.nodes[id]?

/-- The kind of a node. -/
def kind? (graph : ValueGraph) (id : NodeId) : Option NodeKind :=
  (graph.node? id).map (·.kind)

/-- The state of a node. -/
def state? (graph : ValueGraph) (id : NodeId) : Option EscapeState :=
  (graph.node? id).map (·.state)

/-- Whether a node is an allocation. -/
def isAllocation (graph : ValueGraph) (id : NodeId) : Bool :=
  graph.kind? id = some .allocation

/-- Gives a node a state. -/
def setState (graph : ValueGraph) (id : NodeId) (state : EscapeState) : ValueGraph :=
  ⟨graph.toValueTables.setState id state, graph.coherent.setState id state⟩

/-- Gives all nodes states. -/
def setStates (graph : ValueGraph) (state : NodeId → ValueNode → EscapeState) : ValueGraph :=
  ⟨graph.toValueTables.setStates state, graph.coherent.setStates state⟩

/-- The edges that leave a node, in order of addition. -/
def outgoing (graph : ValueGraph) (id : NodeId) : List Edge :=
  graph.edgesAt graph.leaving id

/-- The edges that enter a node, in order of addition. -/
def incoming (graph : ValueGraph) (id : NodeId) : List Edge :=
  graph.edgesAt graph.entering id

/-- The allocations that a node points to. -/
def pointsTo (graph : ValueGraph) (id : NodeId) : List NodeId :=
  ((graph.outgoing id).filter (·.kind = .pointsTo)).map (·.target)

/-- Graphs of the same nodes and edges are the same. -/
theorem eq_of_same {first second : ValueGraph} (nodes : second.nodes = first.nodes)
    (edges : second.edges = first.edges) : second = first := by
  obtain ⟨tables, coherent⟩ := first
  obtain ⟨tablesTwo, coherentTwo⟩ := second
  cases coherentTwo.eq_of_same coherent nodes edges
  rfl

theorem outgoing_eq (graph : ValueGraph) (id : NodeId) :
    graph.outgoing id = graph.edges.toList.filter (·.source = id) :=
  graph.coherent.leaving.edgesAt (fun edge listed => (graph.coherent.ends_lt edge listed).1) id

theorem incoming_eq (graph : ValueGraph) (id : NodeId) :
    graph.incoming id = graph.edges.toList.filter (·.target = id) :=
  graph.coherent.entering.edgesAt (fun edge listed => (graph.coherent.ends_lt edge listed).2) id

theorem accepts_iff {graph : ValueGraph} {edge : Edge} :
    graph.accepts edge = true ↔
      edge.source < graph.size ∧ edge.target < graph.size ∧ edge ∉ graph.edges :=
  graph.coherent.addEdge_iff

/-- An edge is added at the end, or nothing changes. -/
theorem edges_addEdge_or (graph : ValueGraph) (edge : Edge) :
    graph.accepts edge = true ∧ (graph.addEdge edge).edges = graph.edges.push edge ∨
      graph.accepts edge = false ∧ graph.addEdge edge = graph := by
  simp only [accepts, addEdge, ValueTables.addEdge]
  split
  next => exact .inr ⟨rfl, rfl⟩
  split
  next => exact .inr ⟨rfl, rfl⟩
  next => exact .inl ⟨rfl, rfl⟩

theorem addEdge_of_accepts {graph : ValueGraph} {edge : Edge} (accepted : graph.accepts edge = true) :
    (graph.addEdge edge).edges = graph.edges.push edge := by
  rcases graph.edges_addEdge_or edge with ⟨-, added⟩ | ⟨refused, -⟩
  · exact added
  · exact absurd accepted (refused ▸ Bool.false_ne_true)

/-- An edge that may not be added changes nothing. -/
theorem addEdge_of_not_accepts {graph : ValueGraph} {edge : Edge}
    (refused : ¬ graph.accepts edge = true) : graph.addEdge edge = graph := by
  rcases graph.edges_addEdge_or edge with ⟨accepted, -⟩ | ⟨-, same⟩
  · exact absurd accepted refused
  · exact same

@[simp] theorem size_addNode (graph : ValueGraph) (kind : NodeKind) (origin : Option NodeIndex)
    (position : Option Position) (type : ValueType) :
    (graph.addNode kind origin position type).2.size = graph.size + 1 :=
  Array.size_push _

/-- A new node takes the next number, and known nodes stay what they are. -/
theorem node?_addNode (graph : ValueGraph) (kind : NodeKind) (origin : Option NodeIndex)
    (position : Option Position) (type : ValueType) (id : NodeId) :
    (graph.addNode kind origin position type).2.node? id =
      if id = graph.size then some (.new graph.size kind origin position type)
      else graph.node? id :=
  Array.getElem?_push

theorem kind?_addNode (graph : ValueGraph) (kind : NodeKind) (origin : Option NodeIndex)
    (position : Option Position) (type : ValueType) (id : NodeId) :
    (graph.addNode kind origin position type).2.kind? id =
      if id = graph.size then some kind else graph.kind? id := by
  rw [kind?, node?_addNode]
  split
  next => rfl
  next => rfl

@[simp] theorem nodes_addEdge (graph : ValueGraph) (edge : Edge) :
    (graph.addEdge edge).nodes = graph.nodes := by
  simp only [addEdge, ValueTables.addEdge]
  split
  next => rfl
  split
  next => rfl
  next => rfl

@[simp] theorem size_addEdge (graph : ValueGraph) (edge : Edge) :
    (graph.addEdge edge).size = graph.size :=
  congrArg Array.size (nodes_addEdge graph edge)

/-- An edge that may be added is listed last. -/
theorem edges_addEdge (graph : ValueGraph) (edge : Edge) :
    (graph.addEdge edge).edges.toList =
      if graph.accepts edge then graph.edges.toList ++ [edge] else graph.edges.toList := by
  split
  next accepted => rw [addEdge_of_accepts accepted, Array.toList_push]
  next refused => rw [addEdge_of_not_accepts refused]

@[simp] theorem size_setState (graph : ValueGraph) (id : NodeId) (state : EscapeState) :
    (graph.setState id state).size = graph.size :=
  Array.size_modify

theorem nodes_setState (graph : ValueGraph) (id : NodeId) (state : EscapeState) :
    (graph.setState id state).nodes =
      graph.nodes.modify id fun node => { node with state } := rfl

theorem node?_setState (graph : ValueGraph) (id other : NodeId) (state : EscapeState) :
    (graph.setState id state).node? other =
      if id = other then (graph.node? other).map fun node => { node with state }
      else graph.node? other :=
  Array.getElem?_modify

/-- Giving a known node a state changes the state of that node only. -/
theorem state?_setState (graph : ValueGraph) (id other : NodeId) (state : EscapeState) :
    (graph.setState id state).state? other =
      if id = other then (graph.state? other).map (fun _ => state) else graph.state? other := by
  rw [state?, state?, node?_setState]
  split
  next => rw [Option.map_map, Option.map_map]; rfl
  next => rfl

@[simp] theorem size_setStates (graph : ValueGraph) (state : NodeId → ValueNode → EscapeState) :
    (graph.setStates state).size = graph.size :=
  Array.size_mapIdx

theorem nodes_setStates (graph : ValueGraph) (state : NodeId → ValueNode → EscapeState) :
    (graph.setStates state).nodes =
      graph.nodes.mapIdx fun id node => { node with state := state id node } := rfl

theorem node?_setStates (graph : ValueGraph) (state : NodeId → ValueNode → EscapeState)
    (id : NodeId) :
    (graph.setStates state).node? id =
      (graph.node? id).map fun node => { node with state := state id node } :=
  Array.getElem?_mapIdx

end ValueGraph

end EscapePlan
