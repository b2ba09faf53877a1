import EscapePlan.Analysis.Aliases
import EscapePlan.Analysis.Visit

/-!
# Escape analysis

`Analysis.ofTree` walks a tree, resolves aliases, applies the accesses and sinks that
were noted to the objects they may concern, converts the graph to single assignment
form and propagates escape states.

A scope in which part of the tree was cut off may hold any sink, so everything that is
allocated in it or denoted by one of its variables counts as handed to code that is
not known.
-/

namespace EscapePlan

namespace Walk

/-- Applies an access to the objects that its base may denote. -/
def applyAccess (walk : Walk) (access : Access) : Walk :=
  (walk.aliases access.base).foldl
    (fun walk allocation =>
      { walk with
        graph := { walk.graph with
          values := walk.graph.values.addEdge ⟨allocation, access.node, .defUse⟩ }
        records :=
          match access.field with
          | none => walk.records
          | some field => walk.records.modify allocation (·.recordField field access.type) })
    walk

/-- Raises the state of an allocation to global and notes the reason. -/
def escalate (walk : Walk) (reason : EscapeReason) (position : Option Position)
    (allocation : NodeId) : Walk :=
  match walk.records.find? allocation with
  | none => walk
  | some record =>
      let raised := record.escalate .globalEscape reason position
      if raised.state = record.state then walk
      else
        { walk with
          graph := { walk.graph with
            values := walk.graph.values.setState allocation raised.state }
          records := walk.records.insert allocation raised }

/-- Applies a sink to the objects that its value may denote. -/
def applySink (walk : Walk) (sink : Sink) : Walk :=
  (walk.aliases sink.value).foldl
    (fun walk allocation =>
      { walk with
        graph := { walk.graph with
          values := walk.graph.values.addEdge ⟨allocation, sink.target, sink.kind⟩ }
        : Walk }.escalate sink.reason sink.position allocation)
    walk

/-- The allocations that truncated scopes make or denote, in ascending order. -/
def truncatedReach (walk : Walk) : List NodeId :=
  let made := (walk.sites.toList.filter fun (_, scope) => walk.truncated.contains scope).map (·.1)
  let denoted := (walk.mentions.toList.filter fun (_, key) =>
    walk.truncated.contains key.scope).flatMap fun (node, _) => walk.graph.values.pointsTo node
  (List.range walk.graph.values.size).filter fun id => made.contains id || denoted.contains id

/-- Lets everything that truncated scopes may reach escape. -/
def escalateTruncated (walk : Walk) : Walk :=
  if walk.truncated.isEmpty then walk
  else walk.truncatedReach.foldl (escalate · .passedToUnknown none) walk

/-- Applies everything that was noted during the walk. -/
def settle (walk : Walk) : Walk :=
  let walk := walk.resolveAliases
  let walk := walk.accesses.foldl applyAccess walk
  let walk := walk.sinks.foldl applySink walk
  walk.escalateTruncated

/-- Goes on with a walk over a whole tree, down to so many levels. -/
def visitTree (config : Config) (tree : Tree) (limit : Nat) (walk : Walk) : Walk :=
  let visit := Walker.visitNested config tree limit (fun _ => return none) (limit + 1)
  ((visit tree.root).run walk).2

/-- The walk over a whole tree, down to so many levels. -/
def ofTree (config : Config) (tree : Tree) (limit : Nat) : Walk :=
  initial.visitTree config tree limit

/-- The state of an analyzer that has not walked. -/
def blank : Walk :=
  { initial with graph := .empty, block := 0 }

/-- Discards the results of a walk. -/
def dropResults (walk : Walk) : Walk :=
  { walk with graph := .empty, records := .empty, functions := 0, skipped := 0 }

/-- Discards what was noted during a walk. -/
def dropNotes (walk : Walk) : Walk :=
  { walk with
    block := 0
    depth := 0
    scope := 0
    scopeCount := 0
    mentions := #[]
    flows := #[]
    sinks := #[]
    accesses := #[]
    sites := #[]
    truncated := [] }

/-- Moves to the entry block of a new program body. -/
def openBody (walk : Walk) : Walk :=
  let (block, flow) := walk.graph.flow.newRegion
  { walk with graph := { walk.graph with flow }, block }

end Walk

/-- Figures about an analysis. -/
structure AnalysisStats where
  allocations : Nat
  /-- How many function and closure bodies were walked. -/
  functions : Nat
  /-- How many tree nodes produced nothing: those of no particular kind, dangling
  indices, and those below the depth limit. -/
  skippedNodes : Nat
  phis : Nat
  fixpointIterations : Nat
  stateIncreases : Nat
  deriving DecidableEq, Repr, Inhabited

/-- The figures before anything is analyzed. -/
def AnalysisStats.zero : AnalysisStats :=
  ⟨0, 0, 0, 0, 0, 0⟩

/-- The result of an escape analysis. -/
structure Analysis where
  graph : DataFlowGraph
  records : Records
  stats : AnalysisStats
  deriving DecidableEq, Repr, Inhabited

namespace Analysis

/-- The analysis of nothing. -/
def empty : Analysis :=
  ⟨.empty, .empty, .zero⟩

/-- Completes an analysis from a settled walk. -/
def ofWalk (config : Config) (walk : Walk) : Analysis :=
  let graph := walk.graph.convertToSsa
  let (values, records, propagation) := propagate config.unknownIsBottom graph.values walk.records
  let records := judgeRecords config.enableScalarReplacement values records
  { graph := { graph with values }
    records
    stats :=
      { allocations := records.size
        functions := walk.functions
        skippedNodes := walk.skipped
        phis := graph.flow.phis.size
        fixpointIterations := propagation.iterations
        stateIncreases := propagation.increases } }

/-- Analyzes a tree. -/
def ofTree (config : Config) (tree : Tree) : Analysis :=
  ofWalk config (Walk.ofTree config tree depthLimit).settle

end Analysis

/-- An analyzer: its configuration, what its walks have left behind, and the figures about its
latest analysis. -/
structure Analyzer where
  config : Config
  walk : Walk
  stats : AnalysisStats
  deriving DecidableEq, Repr, Inhabited

namespace Analyzer

/-- An analyzer that has not analyzed anything. -/
def new (config : Config) : Analyzer :=
  ⟨config, .blank, .zero⟩

/-- The latest analysis. -/
def analysis (analyzer : Analyzer) : Analysis :=
  ⟨analyzer.walk.graph, analyzer.walk.records, analyzer.stats⟩

/-- Analyzes a tree.  What an earlier analysis has left behind is discarded first, and what was
noted during the walk is discarded once it has been applied. -/
def analyze (analyzer : Analyzer) (tree : Tree) : Analyzer :=
  let start := analyzer.walk.dropResults.dropNotes.openBody
  let walk := (start.visitTree analyzer.config tree depthLimit).settle
  let analysis := Analysis.ofWalk analyzer.config walk
  { analyzer with
    walk := { walk.dropNotes with graph := analysis.graph, records := analysis.records }
    stats := analysis.stats }

end Analyzer

end EscapePlan
