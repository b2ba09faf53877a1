import EscapePlan.CommandLine.Trace
import EscapePlan.Main
import EscapePlan.Tree.Builder
import EscapePlan.Proofs.Propagation
import EscapePlan.Proofs.Propagation.Work
import EscapePlan.Proofs.Flow.Path
import EscapePlan.Proofs.Flow.Search
import EscapePlan.Proofs.Flow.Shape
import EscapePlan.Proofs.Flow.Candidates
import EscapePlan.Proofs.Flow.Regions
import EscapePlan.Proofs.Flow.Dominance
import EscapePlan.Proofs.Flow.Ancestry
import EscapePlan.Proofs.Flow.Frontier
import EscapePlan.Proofs.Flow.PhiPlacement
import EscapePlan.Proofs.Flow.Renaming
import EscapePlan.Proofs.Flow.RenamingSteps
import EscapePlan.Proofs.Flow.RenamingAgain
import EscapePlan.Proofs.Flow.Traversal
import EscapePlan.Proofs.Flow.RenamingTree
import EscapePlan.Proofs.Graph.Edges
import EscapePlan.Proofs.Flow.Conversion
import EscapePlan.Proofs.Graph.Calls
import EscapePlan.Proofs.Flow.Reconversion
import EscapePlan.Proofs.Flow.SingleAssignment
import EscapePlan.Proofs.Flow.Links
import EscapePlan.Proofs.Flow.Stages
import EscapePlan.Proofs.Flow.IteratedFrontier
import EscapePlan.Proofs.Flow.Versions
import EscapePlan.Proofs.Analysis.Names
import EscapePlan.Proofs.Analysis.Invariant
import EscapePlan.Proofs.Analysis.Steps
import EscapePlan.Proofs.Analysis.Loops
import EscapePlan.Proofs.Analysis.Bodies
import EscapePlan.Proofs.Analysis.Coverage
import EscapePlan.Proofs.Analysis.Statements
import EscapePlan.Proofs.Analysis.Expressions
import EscapePlan.Proofs.Analysis.Context
import EscapePlan.Proofs.Analysis.Nesting
import EscapePlan.Proofs.Analysis.Visits
import EscapePlan.Proofs.Analysis.LeastSolution
import EscapePlan.Proofs.Analysis.Aliases
import EscapePlan.Proofs.Analysis.Settling
import EscapePlan.Proofs.Analysis.Completion
import EscapePlan.Proofs.Analysis.Restoration
import EscapePlan.Proofs.Analysis.Soundness
import EscapePlan.Proofs.Analysis.Executions
import EscapePlan.Proofs.Analysis.Numbering
import EscapePlan.Proofs.Analysis.Depth
import EscapePlan.Proofs.Analysis.Cutoff
import EscapePlan.Proofs.Analysis.Replacement
import EscapePlan.Proofs.Analysis.Records
import EscapePlan.Proofs.Analysis.Sites
import EscapePlan.Proofs.Analysis.Fields
import EscapePlan.Proofs.Placement.Decisions
import EscapePlan.Proofs.Placement.Overflow
import EscapePlan.Proofs.Placement.Replacement
import EscapePlan.Proofs.Placement.Origins
import EscapePlan.Proofs.Placement.Instances
import EscapePlan.Proofs.Placement.Frame
import EscapePlan.Proofs.Placement.Agreement
import EscapePlan.Proofs.Placement.Sessions
import EscapePlan.Proofs.Json.Tokens
import EscapePlan.Proofs.Json.Drafts
import EscapePlan.Proofs.Tree.RoundTrip
import EscapePlan.Proofs.Tree.Pools
import EscapePlan.Proofs.Tree.Construction
import EscapePlan.Proofs.Isolation.Lockstep
import EscapePlan.Proofs.Isolation.Visits
import EscapePlan.Proofs.Isolation.Outsets
import EscapePlan.Proofs.Isolation.Mirror
import EscapePlan.Proofs.Isolation.Settling
import EscapePlan.Proofs.Isolation.States
import EscapePlan.Proofs.Isolation.Enclosure
import EscapePlan.Proofs.Isolation.Functions
import EscapePlan.Proofs.Analysis.Trails
import EscapePlan.Proofs.Analysis.Modes
import EscapePlan.Proofs.Relabeling.Walks
import EscapePlan.Proofs.Relabeling.Visits
import EscapePlan.Proofs.Relabeling.Settling
import EscapePlan.Proofs.Relabeling.Renumbering
import EscapePlan.Proofs.Relabeling.Placing
import EscapePlan.Proofs.Relabeling.Linking
import EscapePlan.Proofs.Relabeling.Propagation
import EscapePlan.Proofs.Relabeling.Analyses
import EscapePlan.Proofs.Isolation.Cores
import EscapePlan.Proofs.Merging.Walks
import EscapePlan.Proofs.Merging.Visits
import EscapePlan.Proofs.Merging.Settling
import EscapePlan.Proofs.Merging.Analyses
import EscapePlan.Proofs.Appending.Walks
import EscapePlan.Proofs.Appending.Trees
import EscapePlan.Proofs.Control.Course
import EscapePlan.Proofs.Control.Growth
import EscapePlan.Proofs.Control.Standing
import EscapePlan.Proofs.Control.Steps
import EscapePlan.Proofs.Control.Visits
import EscapePlan.Proofs.Control.Reachability
import EscapePlan.Proofs.Placement.Sizes
import EscapePlan.Proofs.Placement.Uses
import EscapePlan.Proofs.Tree.Notations
import EscapePlan.Proofs.Config.RoundTrip
import EscapePlan.Proofs.CommandLine.Access
import EscapePlan.Proofs.Restating.Walks
import EscapePlan.Proofs.Restating.Visits
import EscapePlan.Proofs.Restating.Trees
import EscapePlan.Proofs.Restating.Omissions
import EscapePlan.Proofs.Tree.WellBuilt
