import EscapePlan.Analysis.Propagation
import EscapePlan.Config.Basic
import EscapePlan.Graph.DataFlow

/-!
# The state of a walk

A walk over a syntax tree builds the data-flow graph and the escape records, and it
notes what can only be settled once the whole tree has been seen:

* flows, which say that a variable may denote whatever a value denotes;
* sinks, where a value meets something that makes it escape;
* accesses to fields and elements.

A variable is a name in a function scope; all value nodes of one variable stand for
the same set of objects, whatever the order of the program.
-/

namespace EscapePlan

/-- A variable: a name in a function scope. -/
structure VarKey where
  scope : Nat
  name : StrId
  deriving DecidableEq, Repr, Inhabited

/-- A value that flows into something that makes it escape. -/
structure Sink where
  value : NodeId
  target : NodeId
  kind : EdgeKind
  reason : EscapeReason
  position : Option Position
  deriving DecidableEq, Repr, Inhabited

/-- An access to a field, or to an element if no field is named. -/
structure Access where
  base : NodeId
  node : NodeId
  field : Option String
  type : ValueType
  deriving DecidableEq, Repr, Inhabited

/-- The state of a walk. -/
structure Walk where
  graph : DataFlowGraph
  records : Records
  /-- The block that control is in. -/
  block : BlockId
  /-- How many visits the current one is inside of. -/
  depth : Nat
  /-- The current function scope. -/
  scope : Nat
  /-- How many scopes besides the outermost one have been entered. -/
  scopeCount : Nat
  /-- The value nodes of variables. -/
  mentions : Array (NodeId × VarKey)
  /-- Variables, each with a value whose objects it may denote. -/
  flows : Array (VarKey × NodeId)
  sinks : Array Sink
  accesses : Array Access
  /-- Allocations, each with the scope that makes it. -/
  sites : Array (NodeId × Nat)
  /-- Scopes in which part of the tree was cut off. -/
  truncated : List Nat
  /-- How many function and closure bodies were walked. -/
  functions : Nat
  /-- How many tree nodes were skipped. -/
  skipped : Nat
  deriving DecidableEq, Repr, Inhabited

/-- A step of a walk. -/
abbrev Walker := StateM Walk

namespace Walk

/-- The state before a walk: the entry block of the program body is current. -/
def initial : Walk :=
  let (block, flow) := ControlFlow.empty.newRegion
  { graph := { DataFlowGraph.empty with flow }
    records := .empty
    block
    depth := 0
    scope := 0
    scopeCount := 0
    mentions := #[]
    flows := #[]
    sinks := #[]
    accesses := #[]
    sites := #[]
    truncated := []
    functions := 0
    skipped := 0 }

/-- The kind of a value. -/
def kind? (walk : Walk) (id : NodeId) : Option NodeKind :=
  walk.graph.values.kind? id

/-- The variable that a value node belongs to. -/
def varKey? (walk : Walk) (id : NodeId) : Option VarKey :=
  (walk.mentions.find? (·.1 = id)).map (·.2)

end Walk

namespace Walker

/-- Changes the value graph. -/
def modifyValues (change : ValueGraph → ValueGraph) : Walker Unit :=
  modify fun walk => { walk with graph := { walk.graph with values := change walk.graph.values } }

/-- Changes the control flow. -/
def modifyFlow (change : ControlFlow → ControlFlow) : Walker Unit :=
  modify fun walk => { walk with graph := { walk.graph with flow := change walk.graph.flow } }

/-- Changes the scopes. -/
def modifyScopes (change : Scopes → Scopes) : Walker Unit :=
  modify fun walk => { walk with graph := { walk.graph with scopes := change walk.graph.scopes } }

/-- Adds a value node. -/
def addNode (kind : NodeKind) (origin : Option NodeIndex) (position : Option Position)
    (type : ValueType) : Walker NodeId :=
  modifyGet fun walk =>
    let (id, values) := walk.graph.values.addNode kind origin position type
    (id, { walk with graph := { walk.graph with values } })

/-- Adds an edge between values. -/
def addEdge (source target : NodeId) (kind : EdgeKind) : Walker Unit :=
  modifyValues (·.addEdge ⟨source, target, kind⟩)

/-- Adds a block. -/
def newBlock : Walker BlockId :=
  modifyGet fun walk =>
    let (block, flow) := walk.graph.flow.newBlock
    (block, { walk with graph := { walk.graph with flow } })

/-- Adds the entry block of a new region. -/
def newRegion : Walker BlockId :=
  modifyGet fun walk =>
    let (block, flow) := walk.graph.flow.newRegion
    (block, { walk with graph := { walk.graph with flow } })

/-- Lets control go from one block to another. -/
def connect (source target : BlockId) : Walker Unit :=
  modifyFlow (·.addEdge source target)

/-- The block that control is in. -/
def currentBlock : Walker BlockId :=
  return (← get).block

/-- Moves control to a block. -/
def moveTo (block : BlockId) : Walker Unit :=
  modify fun walk => { walk with block }

/-- Adds a block that control gets to from the given one, and moves there. -/
def branchFrom (source : BlockId) : Walker BlockId := do
  let block ← newBlock
  connect source block
  moveTo block
  return block

/-- Moves to a block that control does not get to. -/
def leaveControl : Walker Unit := do
  moveTo (← newBlock)

/-- Counts a tree node that is skipped. -/
def skip : Walker Unit :=
  modify fun walk => { walk with skipped := walk.skipped + 1 }

/-- Goes down to the children of a tree node. -/
def goDown : Walker Unit :=
  modify fun walk => { walk with depth := walk.depth + 1 }

/-- Comes back up to the parent of a tree node. -/
def goUp : Walker Unit :=
  modify fun walk => { walk with depth := walk.depth - 1 }

/-- Notes that part of the tree is cut off in the current scope. -/
def truncate : Walker Unit :=
  modify fun walk => { walk with truncated := walk.scope :: walk.truncated }

/-- Makes a value node stand for a name of the current scope from here on. -/
def bindVariable (name : StrId) (node : NodeId) : Walker VarKey := do
  let key : VarKey := ⟨(← get).scope, name⟩
  modify fun walk => { walk with mentions := walk.mentions.push (node, key) }
  modifyScopes (·.bind name node)
  return key

/-- Makes a value node the definition of a name in the current block. -/
def defineVariable (name : StrId) (node : NodeId) : Walker VarKey := do
  let key ← bindVariable name node
  let block ← currentBlock
  modifyFlow (·.recordDefinition block name.toNat node)
  return key

/-- The value node of a name.  A name that is read before it is assigned gets a node
of its own, which later assignments reach as well. -/
def readVariable (name : StrId) (origin : NodeIndex) (position : Option Position) :
    Walker NodeId := do
  match (← get).graph.scopes.find? name with
  | some node => return node
  | none =>
      let node ← addNode .localVar (some origin) position .unknown
      let _ ← bindVariable name node
      return node

/-- Notes that a variable may denote what a value denotes. -/
def addFlow (key : VarKey) (value : NodeId) : Walker Unit :=
  modify fun walk => { walk with flows := walk.flows.push (key, value) }

/-- Adds an edge from a value that is no allocation; the edges of allocations are added
once it is known what variables denote. -/
def addUse (value target : NodeId) : Walker Unit := do
  if (← get).kind? value ≠ some .allocation then addEdge value target .defUse

/-- Notes a sink. -/
def addSink (value target : NodeId) (kind : EdgeKind) (reason : EscapeReason)
    (position : Option Position) : Walker Unit := do
  addUse value target
  modify fun walk => { walk with sinks := walk.sinks.push ⟨value, target, kind, reason, position⟩ }

/-- Notes an access. -/
def addAccess (base node : NodeId) (field : Option String) (type : ValueType) :
    Walker Unit := do
  addUse base node
  modify fun walk => { walk with accesses := walk.accesses.push ⟨base, node, field, type⟩ }

/-- Notes that a value is handed to code that is not known. -/
def passToUnknown (value : NodeId) (origin : Option NodeIndex) (position : Option Position) :
    Walker Unit := do
  let arg ← addNode .callArg origin position .unknown
  addSink value arg .defUse .passedToUnknown position

/-- The size of an object with so many counted parts; an object without counted parts
has the default size of its type. -/
def sizeOfCount (count : Nat) : Option UInt32 :=
  if count = 0 then none else some (UInt32.ofNat (min (16 + 16 * count) 4294967295))

/-- The type of the value that an allocation produces. -/
def allocatedType : ObjectType → ValueType
  | .object => .object
  | .array => .array
  | .closure => .closure
  | .string => .string
  | .unknown => .unknown

/-- Adds an allocation with so many counted parts, and its record. -/
def addAllocation (config : Config) (origin : NodeIndex) (position : Option Position)
    (objectType : ObjectType) (className : Option String) (count : Nat) : Walker NodeId := do
  let node ← addNode .allocation (some origin) position (allocatedType objectType)
  let (size, explicit) :=
    match sizeOfCount count with
    | some size => (size, true)
    | none => ((config.defaultSizes.forType objectType).getD 0, false)
  let record := { EscapeRecord.new node objectType size explicit with className, position }
  modify fun walk =>
    { walk with
      records := walk.records.insert node record
      sites := walk.sites.push (node, walk.scope) }
  return node

end Walker

end EscapePlan
