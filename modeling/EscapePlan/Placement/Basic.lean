import EscapePlan.Analysis.Basic
import EscapePlan.Placement.Scalar
import EscapePlan.Placement.Stack

/-!
# Placement of allocations

A placement joins the stack frame and the scalar replacement plans of one analysis, a
summary of every allocation site, and figures about the whole.  There is none if the sizes
on the frame cannot be added up.

A session analyzes and places one program after the other with the same analyzer and the
same placement, and clears what earlier programs have left in them.
-/

namespace EscapePlan

/-- Figures about a placement and the analysis behind it. -/
structure Statistics where
  totalAllocations : Nat
  noEscape : Nat
  argEscape : Nat
  globalEscape : Nat
  unknown : Nat
  scalarReplaceable : Nat
  stackAllocated : Nat
  scalarReplaced : Nat
  heapAllocated : Nat
  /-- The bytes that moved from the heap to the stack. -/
  stackBytes : Nat
  scalarBytesSaved : Nat
  graphNodes : Nat
  graphEdges : Nat
  phis : Nat
  fixpointIterations : Nat
  deriving DecidableEq, Repr, Inhabited

/-- Everything known about an allocation site after placement. -/
structure AllocationSummary where
  node : NodeId
  objectType : ObjectType
  className : Option String
  position : Option Position
  state : EscapeState
  reasons : List EscapeReason
  location : Location
  decision : DecisionReason
  size : UInt32
  slot : Option StackSlot
  fields : List FieldMapping
  deriving DecidableEq, Repr, Inhabited

/-- Where the objects of a program live. -/
structure Placement where
  stack : StackLayout
  scalar : ScalarPlans
  allocations : List AllocationSummary
  statistics : Statistics
  deriving DecidableEq, Repr, Inhabited

namespace AllocationSummary

/-- The summary of an allocation site about which there is a decision. -/
def of? (stack : StackLayout) (scalar : ScalarPlans) (record : EscapeRecord) :
    Option AllocationSummary :=
  (stack.decision? record.node).map fun decision =>
    { node := record.node
      objectType := record.objectType
      className := record.className
      position := record.position
      state := record.state
      reasons := record.reasons
      location := decision.location
      decision := decision.reason
      size := decision.size
      slot := decision.slot
      fields := ((scalar.plan? record.node).map (·.mappings)).getD [] }

end AllocationSummary

namespace Statistics

/-- The figures before anything is placed. -/
def zero : Statistics :=
  ⟨0, 0, 0, 0, 0, 0, 0, 0, 0, 0, 0, 0, 0, 0, 0⟩

/-- How many records are in a state. -/
def inState (records : List EscapeRecord) (state : EscapeState) : Nat :=
  (records.filter (·.state = state)).length

/-- The figures about an analysis and its placement. -/
def of (analysis : Analysis) (stack : StackLayout) (scalar : ScalarPlans)
    (allocations : List AllocationSummary) : Statistics :=
  let records := analysis.records.values
  { totalAllocations := allocations.length
    noEscape := inState records .noEscape
    argEscape := inState records .argEscape
    globalEscape := inState records .globalEscape
    unknown := inState records .unknown
    scalarReplaceable := (records.filter (·.isScalarReplaceable)).length
    stackAllocated := stack.count .stack
    scalarReplaced := stack.count .scalarReplaced
    heapAllocated := stack.count .heap
    stackBytes := stack.bytesPromoted
    scalarBytesSaved := scalar.bytesSaved
    graphNodes := analysis.graph.values.size
    graphEdges := analysis.graph.values.edges.size
    phis := analysis.stats.phis
    fixpointIterations := analysis.stats.fixpointIterations }

end Statistics

namespace Placement

/-- The placement of nothing. -/
def empty : Placement :=
  ⟨.empty {}, .empty, [], .zero⟩

/-- The placement of an analyzed program whose allocations are put on a frame. -/
def onStack (analysis : Analysis) (stack : StackLayout) : Placement :=
  let records := analysis.records.values
  let scalar := ScalarPlans.plan records
  let allocations := records.filterMap (AllocationSummary.of? stack scalar)
  ⟨stack, scalar, allocations, .of analysis stack scalar allocations⟩

/-- Places the allocations of an analyzed program. -/
def ofAnalysis? (config : Config) (analysis : Analysis) : Option Placement :=
  (StackLayout.place? config analysis.records.values).map (onStack analysis)

/-- Analyzes a tree and places its allocations. -/
def ofTree? (config : Config) (tree : Tree) : Option Placement :=
  ofAnalysis? config (.ofTree config tree)

/-- Adds the summary of an allocation site about which there is a decision. -/
def summarize (placement : Placement) (record : EscapeRecord) : Placement :=
  match AllocationSummary.of? placement.stack placement.scalar record with
  | none => placement
  | some summary => { placement with allocations := placement.allocations ++ [summary] }

/-- Places the allocations of an analyzed program in place of those of earlier ones.  The stack
frame is a new one; plans and summaries are cleared. -/
def replace? (placement : Placement) (config : Config) (analysis : Analysis) : Option Placement :=
  let records := analysis.records.values
  ((StackLayout.empty config).placeAnew? config records).map fun stack =>
    let cleared : Placement :=
      { placement with
        stack
        scalar := placement.scalar.planAnew records
        allocations := [] }
    let summarized := records.foldl summarize cleared
    { summarized with
      statistics := .of analysis summarized.stack summarized.scalar summarized.allocations }

/-- Where the objects of an allocation site live. -/
def location? (placement : Placement) (node : NodeId) : Option Location :=
  (placement.stack.decision? node).map (·.location)

end Placement

/-- An analyzer and a placement that are used for one program after the other. -/
structure Session extends Analyzer where
  placement : Placement
  deriving DecidableEq, Repr, Inhabited

/-- A run of a session: it may renew the analyzer with a configuration, and it may
analyze a tree. -/
structure Run where
  config : Option Config
  tree : Option Tree

namespace Session

/-- A session before its first run. -/
def initial : Session :=
  ⟨.new {}, .empty⟩

/-- A new analyzer in place of the old one. -/
def renew (session : Session) (config : Config) : Session :=
  { session with toAnalyzer := .new config }

/-- Analyzes a tree. -/
def analyze (session : Session) (tree : Tree) : Session :=
  { session with toAnalyzer := session.toAnalyzer.analyze tree }

/-- Places the allocations of the latest analysis. -/
def place? (session : Session) : Option Session :=
  (session.placement.replace? session.config session.analysis).map fun placement =>
    { session with placement }

/-- Goes through a run. -/
def step? (session : Session) (run : Run) : Option Session :=
  let session := run.config.elim session session.renew
  let session := run.tree.elim session session.analyze
  session.place?

end Session

end EscapePlan
