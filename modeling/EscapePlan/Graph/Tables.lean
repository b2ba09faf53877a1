import EscapePlan.Escape.Record

/-!
# Tables of values and edges

The nodes and edges of a graph of values stand in tables: the nodes, the edges, for each
node the places of the edges that leave it and of those that enter it, and the set of all
edges.  Every change brings these tables up to date one by one.

`ValueTables.Coherent` says that all of them tell of the same nodes and edges, and every
change keeps it.
-/

namespace EscapePlan

/-- What a value is. -/
inductive NodeKind where
  | allocation
  | parameter
  | localVar
  | fieldLoad
  | fieldStore
  | arrayLoad
  | arrayStore
  | callArg
  | callResult
  | returnValue
  | phi
  | globalVar
  | closureCapture
  | constant
  deriving DecidableEq, Repr, Inhabited

namespace NodeKind

/-- The state that a value starts from. -/
def initialState : NodeKind → EscapeState
  | .allocation => .noEscape
  | .parameter => .argEscape
  | .returnValue | .globalVar => .globalEscape
  | _ => .unknown

/-- Whether a value is an access to a named field. -/
def isFieldAccess : NodeKind → Bool
  | .fieldLoad | .fieldStore => true
  | _ => false

/-- The name of a kind. -/
def text : NodeKind → String
  | .allocation => "allocation"
  | .parameter => "parameter"
  | .localVar => "local_var"
  | .fieldLoad => "field_load"
  | .fieldStore => "field_store"
  | .arrayLoad => "array_load"
  | .arrayStore => "array_store"
  | .callArg => "call_arg"
  | .callResult => "call_result"
  | .returnValue => "return_value"
  | .phi => "phi"
  | .globalVar => "global_var"
  | .closureCapture => "closure_capture"
  | .constant => "constant"

/-- All kinds. -/
def all : List NodeKind :=
  [.allocation, .parameter, .localVar, .fieldLoad, .fieldStore, .arrayLoad, .arrayStore,
    .callArg, .callResult, .returnValue, .phi, .globalVar, .closureCapture, .constant]

end NodeKind

/-- A value. -/
structure ValueNode where
  id : NodeId
  kind : NodeKind
  state : EscapeState
  type : ValueType
  /-- The tree node that the value comes from. -/
  origin : Option NodeIndex
  position : Option Position
  deriving DecidableEq, Repr, Inhabited

/-- A new value of a kind. -/
def ValueNode.new (id : NodeId) (kind : NodeKind) (origin : Option NodeIndex) (position : Option Position)
    (type : ValueType) : ValueNode :=
  ⟨id, kind, kind.initialState, type, origin, position⟩

/-- How a value flows into another. -/
inductive EdgeKind where
  | defUse
  /-- From a variable to an allocation it may denote. -/
  | pointsTo
  | fieldOf
  | elementOf
  | controlDep
  | dataDep
  deriving DecidableEq, Repr, Inhabited

namespace EdgeKind

/-- The name of an edge kind. -/
def text : EdgeKind → String
  | .defUse => "def_use"
  | .pointsTo => "points_to"
  | .fieldOf => "field_of"
  | .elementOf => "element_of"
  | .controlDep => "control_dep"
  | .dataDep => "data_dep"

/-- All edge kinds. -/
def all : List EdgeKind :=
  [.defUse, .pointsTo, .fieldOf, .elementOf, .controlDep, .dataDep]

end EdgeKind

/-- An edge from one value to another. -/
structure Edge where
  source : NodeId
  target : NodeId
  kind : EdgeKind
  deriving DecidableEq, Repr, Inhabited

/-- The tables of a graph. -/
structure ValueTables where
  nodes : Array ValueNode
  /-- The edges in order of addition. -/
  edges : Array Edge
  /-- For each node, the places of the edges that leave it. -/
  leaving : Array (List Nat)
  /-- For each node, the places of the edges that enter it. -/
  entering : Array (List Nat)
  /-- The set of the edges, the latest first. -/
  known : List Edge
  deriving DecidableEq, Repr, Inhabited

namespace ValueTables

/-- The tables of a graph without values. -/
def empty : ValueTables :=
  ⟨#[], #[], #[], #[], []⟩

/-- The number of nodes. -/
def size (tables : ValueTables) : Nat :=
  tables.nodes.size

/-- Adds a node, which no edge is at. -/
def addNode (tables : ValueTables) (kind : NodeKind) (origin : Option NodeIndex)
    (position : Option Position) (type : ValueType) : ValueTables :=
  { tables with
    nodes := tables.nodes.push (.new tables.size kind origin position type)
    leaving := tables.leaving.push []
    entering := tables.entering.push [] }

/-- Adds an edge between known nodes that is not in the set yet, and tells whether it did.  Any
other edge leaves the tables alone. -/
def addEdge (tables : ValueTables) (edge : Edge) : Bool × ValueTables :=
  if tables.size ≤ edge.source || tables.size ≤ edge.target then (false, tables)
  else if tables.known.contains edge then (false, tables)
  else
    (true, { tables with
      edges := tables.edges.push edge
      leaving := tables.leaving.modify edge.source (· ++ [tables.edges.size])
      entering := tables.entering.modify edge.target (· ++ [tables.edges.size])
      known := edge :: tables.known })

/-- Gives a node a state. -/
def setState (tables : ValueTables) (id : NodeId) (state : EscapeState) : ValueTables :=
  { tables with nodes := tables.nodes.modify id fun node => { node with state } }

/-- Gives all nodes states. -/
def setStates (tables : ValueTables) (state : NodeId → ValueNode → EscapeState) : ValueTables :=
  { tables with nodes := tables.nodes.mapIdx fun id node => { node with state := state id node } }

/-- The edges at the places that a table lists for a node. -/
def edgesAt (tables : ValueTables) (table : Array (List Nat)) (id : NodeId) : List Edge :=
  ((table[id]?).getD []).filterMap (tables.edges[·]?)

/-- The places of the edges with an end at a node, in ascending order. -/
def places (edges : List Edge) (endOf : Edge → NodeId) (id : NodeId) : List Nat :=
  (edges.zipIdx.filter fun entry => endOf entry.1 = id).map (·.2)

/-- A table lists for each of so many nodes the places of the edges with an end there. -/
def Lists (edges : List Edge) (size : Nat) (endOf : Edge → NodeId) (table : Array (List Nat)) :
    Prop :=
  table.toList = (List.range size).map (places edges endOf)

/-- All tables tell of the same nodes and edges. -/
structure Coherent (tables : ValueTables) : Prop where
  id_eq : ∀ (place : Nat) (node : ValueNode), tables.nodes[place]? = some node → node.id = place
  ends_lt : ∀ edge ∈ tables.edges, edge.source < tables.size ∧ edge.target < tables.size
  nodup : tables.edges.toList.Nodup
  leaving : Lists tables.edges.toList tables.size (·.source) tables.leaving
  entering : Lists tables.edges.toList tables.size (·.target) tables.entering
  known_eq : tables.known = tables.edges.toList.reverse

section

variable {tables : ValueTables} {edges : List Edge} {endOf : Edge → NodeId} {id size : NodeId}
  {table : Array (List Nat)}

/-! ## Places of edges -/

theorem places_concat (edges : List Edge) (edge : Edge) (endOf : Edge → NodeId) (id : NodeId) :
    places (edges ++ [edge]) endOf id =
      places edges endOf id ++ if endOf edge = id then [edges.length] else [] := by
  rw [places, List.zipIdx_append, List.filter_append, List.map_append]
  by_cases same : endOf edge = id <;> simp [places, same]

theorem places_eq_nil (absent : ∀ edge ∈ edges, endOf edge ≠ id) : places edges endOf id = [] := by
  rw [places, List.map_eq_nil_iff, List.filter_eq_nil_iff]
  intro entry listed
  simpa using absent entry.1 (List.fst_mem_of_mem_zipIdx listed)

/-- The edges at the places of the edges with an end at a node are those edges. -/
theorem filterMap_places (edges : List Edge) (endOf : Edge → NodeId) (id : NodeId) :
    (places edges endOf id).filterMap (edges[·]?) = edges.filter (endOf · = id) := by
  suffices general : ∀ (before : List Edge) (edges : List Edge),
      (((edges.zipIdx before.length).filter fun entry => endOf entry.1 = id).map (·.2)).filterMap
        ((before ++ edges)[·]?) = edges.filter (endOf · = id) from general [] edges
  intro before edges
  induction edges generalizing before with
  | nil => rfl
  | cons edge edges inductionHypothesis =>
      have rest := inductionHypothesis (before ++ [edge])
      rw [List.length_append, List.append_assoc] at rest
      by_cases same : endOf edge = id
      · simpa [List.zipIdx_cons, same] using rest
      · simpa [List.zipIdx_cons, same] using rest

/-! ## Tables that are brought up to date -/

theorem lists_empty (endOf : Edge → NodeId) : Lists [] 0 endOf #[] := rfl

theorem Lists.getElem? (lists : Lists edges size endOf table) (id : NodeId) :
    table[id]? = if id < size then some (places edges endOf id) else none := by
  rw [← Array.getElem?_toList, lists, List.getElem?_map]
  by_cases known : id < size <;> simp [known]

/-- No edge is at a new node. -/
theorem Lists.push (lists : Lists edges size endOf table)
    (known : ∀ edge ∈ edges, endOf edge < size) :
    Lists edges (size + 1) endOf (table.push []) := by
  have none : places edges endOf size = [] :=
    places_eq_nil fun edge listed => Nat.ne_of_lt (known edge listed)
  rw [Lists, Array.toList_push, lists, List.range_succ, List.map_append, List.map_singleton, none]

/-- A new edge comes last among the edges at its end. -/
theorem Lists.concat (lists : Lists edges size endOf table) (edge : Edge) :
    Lists (edges ++ [edge]) size endOf (table.modify (endOf edge) (· ++ [edges.length])) := by
  rw [Lists, Array.toList_modify, lists]
  refine List.ext_getElem? fun id => ?_
  rw [List.getElem?_modify, List.getElem?_map, List.getElem?_map]
  by_cases known : id < size
  · rw [List.getElem?_range known]
    by_cases same : endOf edge = id <;> simp [places_concat, same]
  · rw [List.getElem?_eq_none (by simpa using known)]
    rfl

/-- What a table lists for a node are the edges with an end there. -/
theorem Lists.edgesAt (lists : Lists tables.edges.toList size endOf table)
    (known : ∀ edge ∈ tables.edges, endOf edge < size) (id : NodeId) :
    tables.edgesAt table id = tables.edges.toList.filter (endOf · = id) := by
  rw [ValueTables.edgesAt, lists.getElem?]
  split
  next =>
    rw [← filterMap_places]
    simp
  next beyond =>
    refine Eq.symm (List.filter_eq_nil_iff.2 fun edge listed => ?_)
    intro same
    exact beyond (of_decide_eq_true same ▸ known edge (Array.mem_toList_iff.1 listed))

end

/-! ## Coherent tables -/

namespace Coherent

variable {tables other : ValueTables}

theorem empty : ValueTables.empty.Coherent := by
  constructor <;> simp [ValueTables.empty, lists_empty, ValueTables.size]

/-- Tables of the same nodes and edges are the same. -/
theorem eq_of_same (coherent : tables.Coherent) (coherentOther : other.Coherent)
    (nodes : tables.nodes = other.nodes) (edges : tables.edges = other.edges) : tables = other := by
  obtain ⟨_, _, _, leaving, entering, known⟩ := coherent
  obtain ⟨_, _, _, leavingOther, enteringOther, knownOther⟩ := coherentOther
  cases tables
  cases other
  cases nodes
  cases edges
  cases Array.toList_inj.1 (leaving.trans leavingOther.symm)
  cases Array.toList_inj.1 (entering.trans enteringOther.symm)
  cases known.trans knownOther.symm
  rfl

theorem addNode (coherent : tables.Coherent) (kind : NodeKind) (origin : Option NodeIndex)
    (position : Option Position) (type : ValueType) :
    (tables.addNode kind origin position type).Coherent := by
  have sizeEq : (tables.addNode kind origin position type).size = tables.size + 1 :=
    Array.size_push _
  constructor
  · intro place node found
    rw [ValueTables.addNode, Array.getElem?_push] at found
    split at found
    next last =>
      cases found
      exact last.symm
    next => exact coherent.id_eq place node found
  · intro edge listed
    rw [sizeEq]
    exact (coherent.ends_lt edge listed).imp Nat.lt_succ_of_lt Nat.lt_succ_of_lt
  · exact coherent.nodup
  · rw [sizeEq]
    exact coherent.leaving.push fun edge listed =>
      (coherent.ends_lt edge (Array.mem_toList_iff.1 listed)).1
  · rw [sizeEq]
    exact coherent.entering.push fun edge listed =>
      (coherent.ends_lt edge (Array.mem_toList_iff.1 listed)).2
  · exact coherent.known_eq

/-- An edge is added just if it joins known nodes and is new. -/
theorem addEdge_iff (coherent : tables.Coherent) {edge : Edge} :
    (tables.addEdge edge).1 = true ↔
      edge.source < tables.size ∧ edge.target < tables.size ∧ edge ∉ tables.edges := by
  rw [ValueTables.addEdge, coherent.known_eq]
  grind

theorem addEdge (coherent : tables.Coherent) (edge : Edge) :
    (tables.addEdge edge).2.Coherent := by
  rw [ValueTables.addEdge]
  split
  next => exact coherent
  split
  next => exact coherent
  next ends absent =>
    obtain ⟨source, target⟩ : edge.source < tables.size ∧ edge.target < tables.size := by
      simpa using ends
    have new : edge ∉ tables.edges := by simpa [coherent.known_eq] using absent
    constructor
    · exact coherent.id_eq
    · intro other listed
      rcases Array.mem_push.1 listed with old | rfl
      · exact coherent.ends_lt other old
      · exact ⟨source, target⟩
    · rw [Array.toList_push, List.nodup_append]
      refine ⟨coherent.nodup, List.pairwise_singleton _ edge, fun other listed last isLast same => ?_⟩
      rw [List.mem_singleton.1 isLast] at same
      exact new (same ▸ Array.mem_toList_iff.1 listed)
    · rw [Array.toList_push]
      exact coherent.leaving.concat edge
    · rw [Array.toList_push]
      exact coherent.entering.concat edge
    · rw [Array.toList_push, List.reverse_append, coherent.known_eq]
      rfl

/-- Nodes may be given other states. -/
theorem withNodes (coherent : tables.Coherent) {nodes : Array ValueNode}
    (size : nodes.size = tables.nodes.size)
    (ids : ∀ (place : Nat) (node : ValueNode), nodes[place]? = some node →
      ∃ old, tables.nodes[place]? = some old ∧ node.id = old.id) :
    Coherent { tables with nodes } := by
  have sizeEq : ValueTables.size { tables with nodes } = tables.size := size
  constructor
  · intro place node found
    obtain ⟨old, foundOld, same⟩ := ids place node found
    exact same.trans (coherent.id_eq place old foundOld)
  · rw [sizeEq]
    exact coherent.ends_lt
  · exact coherent.nodup
  · rw [sizeEq]
    exact coherent.leaving
  · rw [sizeEq]
    exact coherent.entering
  · exact coherent.known_eq

theorem setState (coherent : tables.Coherent) (id : NodeId) (state : EscapeState) :
    (tables.setState id state).Coherent := by
  refine coherent.withNodes Array.size_modify fun place node found => ?_
  rw [Array.getElem?_modify] at found
  split at found
  next =>
    obtain ⟨old, foundOld, rfl⟩ := Option.map_eq_some_iff.1 found
    exact ⟨old, foundOld, rfl⟩
  next => exact ⟨node, found, rfl⟩

theorem setStates (coherent : tables.Coherent) (state : NodeId → ValueNode → EscapeState) :
    (tables.setStates state).Coherent := by
  refine coherent.withNodes Array.size_mapIdx fun place node found => ?_
  rw [Array.getElem?_mapIdx] at found
  obtain ⟨old, foundOld, rfl⟩ := Option.map_eq_some_iff.1 found
  exact ⟨old, foundOld, rfl⟩

end Coherent

end ValueTables

end EscapePlan
