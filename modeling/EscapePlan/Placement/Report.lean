import EscapePlan.Placement.Basic
import EscapePlan.Json.Printer
import EscapePlan.Tree.Document

/-!
# Reports

A placement is reported as a text of lines for readers, or as a JSON document.
-/

namespace EscapePlan

namespace AllocationSummary

/-- The fields of a replaced object and their locals, in braces. -/
def fieldsText (summary : AllocationSummary) : String :=
  "\x7b" ++ ", ".intercalate (summary.fields.map fun mapping =>
    mapping.field ++ "=" ++ mapping.slot.text) ++ "\x7d"

/-- The line about an allocation site. -/
def line (summary : AllocationSummary) : String :=
  "  " ++ summary.node.text ++ " " ++ summary.objectType.text ++
    (summary.className.elim "" fun name => " " ++ name) ++
    (summary.position.elim "" fun position => " at " ++ position.text) ++
    ": " ++ summary.state.text ++ " -> " ++ summary.location.text ++
    (summary.slot.elim "" fun slot => " " ++ slot.text) ++
    " (" ++ summary.decision.text ++ ", " ++ toString summary.size.toNat ++ " B)" ++
    (if summary.reasons.isEmpty then ""
      else " [" ++ ", ".intercalate (summary.reasons.map (·.text)) ++ "]") ++
    (if summary.fields.isEmpty then "" else " " ++ summary.fieldsText)

/-- A mapping as a JSON object. -/
def mappingToJson (mapping : FieldMapping) : Json :=
  .object [("field", .text mapping.field), ("ty", .text mapping.type.text),
    ("slot", .natural mapping.slot)]

/-- The summary as a JSON object, which leaves out what is absent. -/
def toJson (summary : AllocationSummary) : Json :=
  .object <|
    [("node", .natural summary.node), ("object_type", .text summary.objectType.text)] ++
    (summary.className.toList.map fun name => ("class_name", .text name)) ++
    (summary.position.toList.map fun position => ("loc", position.toJson)) ++
    [("state", .text summary.state.tag),
      ("reasons", .array (summary.reasons.map fun reason => .text reason.text)),
      ("location", .text summary.location.text), ("decision", .text summary.decision.text),
      ("size", .natural summary.size.toNat)] ++
    (summary.slot.toList.map fun slot => ("slot", .natural slot)) ++
    (if summary.fields.isEmpty then []
      else [("fields", .array (summary.fields.map mappingToJson))])

end AllocationSummary

/-- The figures as members of a JSON object. -/
def Statistics.members (statistics : Statistics) : List (String × Json) :=
  [("total_allocations", .natural statistics.totalAllocations),
    ("no_escape", .natural statistics.noEscape),
    ("arg_escape", .natural statistics.argEscape),
    ("global_escape", .natural statistics.globalEscape),
    ("unknown", .natural statistics.unknown),
    ("scalar_replaceable", .natural statistics.scalarReplaceable),
    ("stack_allocated", .natural statistics.stackAllocated),
    ("scalar_replaced", .natural statistics.scalarReplaced),
    ("heap_allocated", .natural statistics.heapAllocated),
    ("stack_bytes", .natural statistics.stackBytes),
    ("scalar_bytes_saved", .natural statistics.scalarBytesSaved),
    ("dfg_nodes", .natural statistics.graphNodes),
    ("dfg_edges", .natural statistics.graphEdges),
    ("phis", .natural statistics.phis),
    ("fixpoint_iterations", .natural statistics.fixpointIterations)]

namespace Placement

/-- The lines at the head of the report, given how many microseconds the analysis
took. -/
def headLines (placement : Placement) (micros : Nat) : List String :=
  let figures := placement.statistics
  let figure (value : Nat) : String := toString value
  [ "Escape analysis report",
    "======================",
    "allocations:        " ++ figure figures.totalAllocations ++
      " (no escape " ++ figure figures.noEscape ++
      ", arg escape " ++ figure figures.argEscape ++
      ", global escape " ++ figure figures.globalEscape ++
      ", unknown " ++ figure figures.unknown ++ ")",
    "scalar replaceable: " ++ figure figures.scalarReplaceable,
    "placement:          stack " ++ figure figures.stackAllocated ++
      ", scalar replaced " ++ figure figures.scalarReplaced ++
      ", heap " ++ figure figures.heapAllocated,
    "stack bytes:        " ++ figure figures.stackBytes ++ " / " ++
      figure placement.stack.maxFrameSize.toNat ++ " in " ++
      figure placement.stack.slotCount ++ " slots",
    "scalar bytes saved: " ++ figure figures.scalarBytesSaved ++ " in " ++
      figure placement.scalar.localCount ++ " locals",
    "dfg:                " ++ figure figures.graphNodes ++ " nodes, " ++
      figure figures.graphEdges ++ " edges, " ++ figure figures.phis ++ " phis",
    "fixpoint:           " ++ figure figures.fixpointIterations ++ " iterations",
    "analysis time:      " ++ figure micros ++ " us" ]

/-- The lines about the allocation sites, after an empty line and a heading. -/
def allocationLines (placement : Placement) : List String :=
  if placement.allocations.isEmpty then []
  else "" :: "Allocations:" :: placement.allocations.map (·.line)

/-- The report for readers. -/
def report (placement : Placement) (micros : Nat) : String :=
  String.join ((placement.headLines micros ++ placement.allocationLines).map (· ++ "\n"))

/-- The report as a JSON document about the given source. -/
def toJson (placement : Placement) (source : String) (micros : Nat) : Json :=
  .object
    [("source", .text source),
      ("statistics",
        .object (placement.statistics.members ++ [("analysis_micros", .natural micros)])),
      ("allocations", .array (placement.allocations.map (·.toJson)))]

end Placement

end EscapePlan
