import EscapePlan.Table
import EscapePlan.Escape.Record

/-!
# Control flow

A control-flow graph consists of blocks, joined by edges, with the definitions of
variables that each block makes in order.  A region is the part of the graph that
belongs to one entry block: the program body, or the body of one function.

Blocks also carry what single assignment form adds to them: the phis at their
start, their place in the dominator tree, their dominance frontier, and the versions
of variables that are current at their start and end.
-/

namespace EscapePlan

/-- The number of a block. -/
abbrev BlockId := Nat

/-- How the number of a block is displayed. -/
def BlockId.text (block : BlockId) : String :=
  "bb" ++ toString block

/-- The number of a variable. -/
abbrev VarId := Nat

/-- A definition of a variable; version zero means none has been given yet. -/
structure Definition where
  var : VarId
  node : NodeId
  version : Nat
  deriving DecidableEq, Repr, Inhabited

/-- A basic block. -/
structure Block where
  predecessors : List BlockId
  successors : List BlockId
  definitions : List Definition
  /-- The places of this block's phis among all phis. -/
  phis : List Nat
  /-- The versions current after the phis. -/
  entryVersions : Table Nat
  /-- The versions current at the end. -/
  exitVersions : Table Nat
  /-- The immediate dominator; region entries and unreachable blocks have none. -/
  idom : Option BlockId
  /-- The blocks whose immediate dominator this is. -/
  children : List BlockId
  /-- The dominance frontier in ascending order. -/
  frontier : List BlockId
  reachable : Bool
  deriving DecidableEq, Repr, Inhabited

namespace Block

/-- A block that stands alone. -/
def empty : Block where
  predecessors := []
  successors := []
  definitions := []
  phis := []
  entryVersions := .empty
  exitVersions := .empty
  idom := none
  children := []
  frontier := []
  reachable := false

/-- Whether a block defines a variable. -/
def defines (block : Block) (var : VarId) : Bool :=
  block.definitions.any (·.var = var)

end Block

/-- The value that a phi takes when control comes from a predecessor: the version of
its variable current at the end of that block, and the node that defines it.  Version
zero without a node means that no definition gets there. -/
structure PhiSource where
  block : BlockId
  version : Nat
  node : Option NodeId
  deriving DecidableEq, Repr, Inhabited

/-- A phi of a variable at the start of a block. -/
structure Phi where
  block : BlockId
  var : VarId
  node : NodeId
  version : Nat
  sources : List PhiSource
  deriving DecidableEq, Repr, Inhabited

/-- A control-flow graph. -/
structure ControlFlow where
  blocks : Array Block
  entries : List BlockId
  phis : Array Phi
  /-- For each variable, how many versions have been given. -/
  versions : Table Nat
  deriving DecidableEq, Repr, Inhabited

namespace ControlFlow

/-- The graph without blocks. -/
def empty : ControlFlow :=
  ⟨#[], [], #[], .empty⟩

/-- The number of blocks. -/
def size (flow : ControlFlow) : Nat :=
  flow.blocks.size

/-- The block of a number. -/
def block? (flow : ControlFlow) (block : BlockId) : Option Block :=
  flow.blocks[block]?

/-- Changes a block. -/
def modifyBlock (flow : ControlFlow) (block : BlockId) (change : Block → Block) : ControlFlow :=
  { flow with blocks := flow.blocks.modify block change }

/-- Adds a block. -/
def newBlock (flow : ControlFlow) : BlockId × ControlFlow :=
  (flow.size, { flow with blocks := flow.blocks.push .empty })

/-- Adds a block that is the entry of a new region. -/
def newRegion (flow : ControlFlow) : BlockId × ControlFlow :=
  let (entry, flow) := flow.newBlock
  (entry, { flow with entries := flow.entries ++ [entry] })

/-- The blocks that control may go to after a block. -/
def successors (flow : ControlFlow) (block : BlockId) : List BlockId :=
  ((flow.block? block).map (·.successors)).getD []

/-- The blocks that control may come from before a block. -/
def predecessors (flow : ControlFlow) (block : BlockId) : List BlockId :=
  ((flow.block? block).map (·.predecessors)).getD []

/-- Adds an edge between two known blocks, unless there is one already. -/
def addEdge (flow : ControlFlow) (source target : BlockId) : ControlFlow :=
  if source < flow.size ∧ target < flow.size ∧ !(flow.successors source).contains target then
    (flow.modifyBlock source fun block =>
        { block with successors := block.successors ++ [target] }).modifyBlock target fun block =>
      { block with predecessors := block.predecessors ++ [source] }
  else flow

/-- Adds a definition at the end of a block. -/
def recordDefinition (flow : ControlFlow) (block : BlockId) (var : VarId) (node : NodeId) :
    ControlFlow :=
  flow.modifyBlock block fun block =>
    { block with definitions := block.definitions ++ [⟨var, node, 0⟩] }

/-- Adds a phi at the start of a known block. -/
def attachPhi (flow : ControlFlow) (block : BlockId) (var : VarId) (node : NodeId) :
    ControlFlow :=
  if block < flow.size then
    { flow.modifyBlock block fun found => { found with phis := found.phis ++ [flow.phis.size] } with
      phis := flow.phis.push ⟨block, var, node, 0, []⟩ }
  else flow

/-- The places of a block's phis. -/
def phiPlaces (flow : ControlFlow) (block : BlockId) : List Nat :=
  ((flow.block? block).map (·.phis)).getD []

/-- The phis of a block. -/
def phisIn (flow : ControlFlow) (block : BlockId) : List Phi :=
  (flow.phiPlaces block).filterMap (flow.phis[·]?)

/-- The immediate dominator of a block. -/
def idom? (flow : ControlFlow) (block : BlockId) : Option BlockId :=
  (flow.block? block).bind (·.idom)

/-- Whether a block is known to be reachable from the entry of its region. -/
def isReachable (flow : ControlFlow) (block : BlockId) : Bool :=
  (flow.block? block).any (·.reachable)

/-- The dominance frontier of a block. -/
def frontier (flow : ControlFlow) (block : BlockId) : List BlockId :=
  ((flow.block? block).map (·.frontier)).getD []

/-- How many versions of a variable have been given. -/
def versionCount (flow : ControlFlow) (var : VarId) : Nat :=
  (flow.versions.find? var).getD 0

/-- Changing a block leaves every other block unchanged. -/
theorem block?_modifyBlock (flow : ControlFlow) (block other : BlockId) (change : Block → Block) :
    (flow.modifyBlock block change).block? other =
      if block = other then (flow.block? other).map change else flow.block? other := by
  simp only [modifyBlock, block?, Array.getElem?_modify]

@[simp] theorem size_modifyBlock (flow : ControlFlow) (block : BlockId) (change : Block → Block) :
    (flow.modifyBlock block change).size = flow.size := by
  simp [modifyBlock, size]

/-- A new block takes the next number, and known blocks stay what they are. -/
theorem block?_newBlock (flow : ControlFlow) (block : BlockId) :
    flow.newBlock.2.block? block =
      if block = flow.size then some .empty else flow.block? block := by
  unfold newBlock block? size
  exact Array.getElem?_push

@[simp] theorem size_newBlock (flow : ControlFlow) : flow.newBlock.2.size = flow.size + 1 := by
  simp [newBlock, size]

@[simp] theorem size_addEdge (flow : ControlFlow) (source target : BlockId) :
    (flow.addEdge source target).size = flow.size := by
  unfold addEdge
  split
  next => rw [size_modifyBlock, size_modifyBlock]
  next => rfl

end ControlFlow

end EscapePlan
