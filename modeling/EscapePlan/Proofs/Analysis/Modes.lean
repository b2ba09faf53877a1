import EscapePlan.Proofs.Analysis.Restoration
import EscapePlan.Proofs.Analysis.Trails
import EscapePlan.Proofs.Placement.Frame
import EscapePlan.Proofs.Placement.Replacement

/-!
# The unknown state at the bottom and at the top

Whether the unknown state lies at the bottom of the escape states or at their top matters to
propagation only.  At the top it absorbs every other state, so an object that is used at all is not
known to stay where it was made; what is never used and was not cut off stays there in both orders.
-/

namespace EscapePlan

namespace Config

/-- The configuration with the unknown state at the top. -/
def strict (config : Config) : Config :=
  { config with unknownIsBottom := false }

/-- The configuration with the unknown state at the bottom. -/
def lenient (config : Config) : Config :=
  { config with unknownIsBottom := true }

end Config

/-! ## What a walk reads of its configuration -/

namespace Walker

variable {first second : Config} (sizes : first.defaultSizes = second.defaultSizes)
include sizes

theorem addAllocation_eq_of_defaultSizes : addAllocation first = addAllocation second := by
  unfold addAllocation
  rw [sizes]

theorem visitNode_eq_of_defaultSizes : visitNode first = visitNode second := by
  funext tree visit index node
  unfold visitNode visitClosure
  rw [addAllocation_eq_of_defaultSizes sizes]

theorem visitNested_eq_of_defaultSizes (tree : Tree) (limit : Nat) (exhausted : Visit)
    (calls : Nat) : visitNested first tree limit exhausted calls =
      visitNested second tree limit exhausted calls := by
  induction calls with
  | zero => rfl
  | succ calls inductionHypothesis =>
      funext index
      rw [visitNested, visitNested, inductionHypothesis, visitWithin, visitWithin,
        visitNode_eq_of_defaultSizes sizes]

end Walker

namespace Walk

/-- A walk reads the default sizes of its configuration and nothing else. -/
theorem ofTree_eq_of_defaultSizes {first second : Config}
    (sizes : first.defaultSizes = second.defaultSizes) (tree : Tree) (limit : Nat) :
    ofTree first tree limit = ofTree second tree limit := by
  rw [ofTree, ofTree, visitTree, visitTree, Walker.visitNested_eq_of_defaultSizes sizes]

/-- An allocation escapes when its walk is settled: through a sink, or because part of the tree was
cut off. -/
def Escalates (walk : Walk) (allocation : NodeId) : Prop :=
  (walk.firstSink? allocation).isSome ∨ walk.CutOff allocation

variable {walk : Walk} {config : Config} {id : NodeId}

theorem of_firstSink?_eq_some {sink : Sink} (first : walk.firstSink? id = some sink) :
    sink ∈ walk.sinks ∧ id ∈ walk.resolveAliases.aliases sink.value := by
  rw [firstSink?] at first
  have denoted := List.find?_some first
  exact ⟨Array.mem_toList_iff.1 (List.mem_of_find?_eq_some first), of_decide_eq_true denoted⟩

/-- What a walk lets escape is an allocation. -/
theorem Escalates.kind?_eq (escalates : walk.Escalates id) (sound : walk.Sound) :
    walk.kind? id = some .allocation := by
  rcases escalates with sunk | ⟨scope, -, site⟩ | ⟨mention, -, -, listed⟩
  · rcases Option.isSome_iff_exists.1 sunk with ⟨sink, first⟩
    exact sound.kind?_of_mem_aliases (Walk.of_firstSink?_eq_some first).2
  · exact sound.site_known _ site
  · exact sound.kind?_of_mem_aliases listed

end Walk

namespace Analysis

open Propagation (SeedReached)
open Walk (Sound Orderly Recorded)

variable {walk : Walk} {config : Config} {id : NodeId} {record : EscapeRecord}

/-! ## Seeds of allocations -/

/-- An allocation starts from escaping for good if it escapes when its walk is settled, and from
staying where it was made otherwise. -/
theorem exists_seed (sound : walk.Sound) (recorded : walk.Recorded)
    (allocates : walk.kind? id = some .allocation) (unknownIsBottom : Bool) :
    ∃ node, walk.settle.graph.convertToSsa.values.node? id = some node ∧
      (walk.Escalates id →
        Propagation.seed unknownIsBottom walk.settle.records id node = .globalEscape) ∧
      (¬ walk.Escalates id →
        Propagation.seed unknownIsBottom walk.settle.records id node = .noEscape) := by
  rcases Option.map_eq_some_iff.1 (sound.kind?_final allocates) with ⟨node, found, kind⟩
  rcases sound.seed_eq recorded found unknownIsBottom with ⟨other, -⟩ | ⟨-, trail, outcome⟩
  · exact absurd kind other
  · refine ⟨node, found, outcome.state_eq_iff.2, fun kept => ?_⟩
    exact outcome.state_cases.resolve_right (mt outcome.state_eq_iff.1 kept)

/-- What escapes when its walk is settled is not found to stay where it was made. -/
theorem ne_noEscape_of_escalates (sound : walk.Sound) (orderly : walk.Orderly config)
    (recorded : walk.Recorded) (escalates : walk.Escalates id)
    (found : (ofWalk config walk.settle).records.find? id = some record) :
    record.state ≠ .noEscape := by
  rcases ends sound orderly found with ⟨-, join, -⟩
  rcases exists_seed sound recorded (escalates.kind?_eq sound) config.unknownIsBottom with
    ⟨node, foundNode, escaping, -⟩
  have absorbed := join.absorbs .globalEscape ⟨id, node, .refl, foundNode, (escaping escalates).symm⟩
  intro confined
  rw [confined] at absorbed
  revert absorbed
  cases config.unknownIsBottom <;> decide

/-- What leaves an allocation in the final graph are accesses, unless it escapes when its walk is
settled. -/
theorem exists_access_of_edge (sound : walk.Sound) (kept : ¬ walk.Escalates id)
    (allocates : walk.kind? id = some .allocation) {edge : Edge}
    (listed : edge ∈ (ofWalk config walk.settle).graph.values.edges) (source : edge.source = id) :
    ∃ access ∈ walk.accesses, edge.target = access.node := by
  subst source
  have isAllocation : (ofWalk config walk.settle).graph.values.isAllocation edge.source = true :=
    decide_eq_true (sound.kind?_ofWalk_settle allocates)
  rcases sound.of_edge listed isAllocation with ⟨access, noted, -, target⟩ | ⟨sink, noted, denoted, -⟩
  · exact ⟨access, noted, target⟩
  · refine absurd (Or.inl ?_) kept
    rw [Walk.firstSink?, List.find?_isSome]
    exact ⟨sink, Array.mem_toList_iff.2 noted, decide_eq_true denoted⟩

/-- No value of the final graph is one that an allocation flows into. -/
def Unused (graph : ValueGraph) (allocation : NodeId) : Prop :=
  ∀ edge ∈ graph.edges, edge.source ≠ allocation

/-- What escapes through a sink flows into its target. -/
theorem not_unused_of_sink (sound : walk.Sound) (orderly : walk.Orderly config)
    (sunk : (walk.firstSink? id).isSome) :
    ¬ Unused (ofWalk config walk.settle).graph.values id := by
  rcases Option.isSome_iff_exists.1 sunk with ⟨sink, first⟩
  rcases Walk.of_firstSink?_eq_some first with ⟨noted, denoted⟩
  rcases orderly.sink_target sink noted with ⟨kind, target, -⟩
  have joined := sound.joined_sink noted denoted target
  intro unused
  refine unused ⟨id, sink.target, sink.kind⟩ ?_ rfl
  rw [edges_ofWalk]
  exact DataFlowGraph.mem_edges_convertToSsa joined

/-- What is never used and was not cut off stays where it was made, in either order. -/
theorem state_eq_noEscape_of_unused (sound : walk.Sound) (orderly : walk.Orderly config)
    (recorded : walk.Recorded)
    (unused : Unused (ofWalk config walk.settle).graph.values id) (uncut : ¬ walk.CutOff id)
    (found : (ofWalk config walk.settle).records.find? id = some record) :
    record.state = .noEscape := by
  rcases ends sound orderly found with ⟨-, join, settled, foundSettled, -⟩
  have kept : ¬ walk.Escalates id := by
    rintro (sunk | cut)
    · exact not_unused_of_sink sound orderly sunk unused
    · exact uncut cut
  rcases exists_seed sound recorded (sound.of_find?_settle foundSettled).2 config.unknownIsBottom
    with ⟨node, foundNode, -, confined⟩
  have own : ∀ state, SeedReached config.unknownIsBottom walk.settle.records
      walk.settle.graph.convertToSsa.values id state → state = .noEscape := by
    rintro _ ⟨last, other, reaches, foundOther, rfl⟩
    rcases Relation.ReflTransGen.cases_head reaches with rfl | ⟨next, flows, -⟩
    · cases foundNode.symm.trans foundOther
      exact confined kept
    · rcases flows with ⟨edge, listed, source, -⟩
      rw [← @edges_ofWalk config, Array.mem_toList_iff] at listed
      exact absurd source (unused edge listed)
  have low := join.least .noEscape fun state reached => by
    rw [own state reached]
    cases config.unknownIsBottom <;> rfl
  have absorbed := join.absorbs .noEscape ⟨id, node, .refl, foundNode, (confined kept).symm⟩
  revert low absorbed
  cases config.unknownIsBottom <;> cases record.state <;> decide

/-! ## The unknown state at the top -/

section

variable (sound : walk.Sound) (orderly : walk.Orderly config) (recorded : walk.Recorded)
  (top : config.unknownIsBottom = false)
  (found : (ofWalk config walk.settle).records.find? id = some record)
include sound orderly recorded top found

/-- With the unknown state at the top, exactly what is never used and was not cut off is found to
stay where it was made. -/
theorem state_eq_noEscape_iff_unused : record.state = .noEscape ↔
    Unused (ofWalk config walk.settle).graph.values id ∧ ¬ walk.CutOff id := by
  constructor
  · intro confined
    have kept : ¬ walk.Escalates id := fun escalates =>
      ne_noEscape_of_escalates sound orderly recorded escalates found confined
    refine ⟨fun edge listed source => ?_, fun cut => kept (.inr cut)⟩
    rcases ends sound orderly found with ⟨reached, -, settled, foundSettled, -⟩
    rcases exists_access_of_edge sound kept (sound.of_find?_settle foundSettled).2 listed source with
      ⟨access, noted, target⟩
    rcases sound.access_known access noted with ⟨kind, known, -, initial⟩
    rcases Option.map_eq_some_iff.1 (sound.kind?_final known) with ⟨node, foundNode, rfl⟩
    rw [edges_ofWalk] at listed
    rw [← source] at reached
    have rises := Propagation.level_initialState_le listed (target ▸ foundNode) reached
    rw [initial, confined, top] at rises
    exact absurd rises (by decide)
  · rintro ⟨unused, uncut⟩
    exact state_eq_noEscape_of_unused sound orderly recorded unused uncut found

/-- With the unknown state at the top, what has a field that is used does not stay where it was
made. -/
theorem isScalarReplaceable_eq_false : record.isScalarReplaceable = false := by
  rw [Bool.eq_false_iff]
  intro replaceable
  rcases ends sound orderly found with ⟨-, -, settled, foundSettled, -⟩
  rcases @find?_ofWalk config walk.settle id settled foundSettled with ⟨judged, foundJudged, judges⟩
  cases found.symm.trans foundJudged
  rcases judges.replaceable_iff.1 replaceable with ⟨confined, -, ⟨field, uses⟩, -⟩
  rw [EscapeRecord.Uses, judges.fields_eq] at uses
  rcases sound.of_usesField_settle ⟨settled, foundSettled, uses⟩ with ⟨access, noted, -, listed⟩
  have unused :=
    ((state_eq_noEscape_iff_unused sound orderly recorded top found).1 confined).1
  exact unused _ (sound.edge_of_access config noted listed) rfl

end

end Analysis

/-! ## Both orders side by side -/

namespace Placement

open Walk (Escalates)

variable {config : Config} {tree : Tree} {placement : Placement} {id : NodeId}
  {record : EscapeRecord}

/-- What does not stay where it was made goes to the heap. -/
theorem location?_of_ne_noEscape (placed : ofTree? config tree = some placement)
    (found : (Analysis.ofTree config tree).records.find? id = some record)
    (escaping : record.state ≠ .noEscape) : placement.location? id = some .heap := by
  have listed : record ∈ (Analysis.ofTree config tree).records.values :=
    List.mem_map.2 ⟨_, Table.find?_eq_some_iff.1 found, rfl⟩
  obtain ⟨layout, location⟩ := exists_location placed listed
  rw [← node_of_find? found, location, Option.some_inj]
  by_contra elsewhere
  exact escaping (StackLayout.noEscape_of_location_turn elsewhere)

/-- Where no object can be replaced by locals, none is. -/
theorem location?_ne_scalarReplaced (placed : ofTree? config tree = some placement)
    (never : ∀ record ∈ (Analysis.ofTree config tree).records.values,
      record.isScalarReplaceable = false) : placement.location? id ≠ some .scalarReplaced := by
  intro replaced
  by_cases known : ∃ record ∈ (Analysis.ofTree config tree).records.values, record.node = id
  · obtain ⟨record, listed, rfl⟩ := known
    obtain ⟨layout, decided⟩ := exists_location placed listed
    have location := Option.some.inj (decided.symm.trans replaced)
    rw [StackLayout.location_turn_eq_scalarReplaced_iff, never record listed] at location
    exact Bool.noConfusion location
  · have others : ∀ record ∈ (Analysis.ofTree config tree).records.values, id ≠ record.node :=
      fun record listed same => known ⟨record, listed, same.symm⟩
    obtain ⟨stack, stackPlaced, rfl⟩ := exists_onStack placed
    rw [location?, stack_onStack, StackLayout.decision?_place?_eq_none stackPlaced others] at replaced
    cases replaced

/-- Where no object can be replaced by locals, no plan is made. -/
theorem plan?_eq_none (placed : ofTree? config tree = some placement)
    (never : ∀ record ∈ (Analysis.ofTree config tree).records.values,
      record.isScalarReplaceable = false) : placement.scalar.plan? id = none := by
  have unplanned : (Analysis.ofTree config tree).records.values.filter (·.isScalarReplaceable) =
      [] := List.filter_eq_nil_iff.2 fun record listed => by simp [never record listed]
  rw [scalar_of_ofTree? placed, ScalarPlans.plan, unplanned]
  rfl

end Placement

/-- How the analyses of a tree in both orders compare, with the walk that they share. -/
structure ComparesModes (config : Config) (tree : Tree) : Prop where
  values_eq : (Analysis.ofTree config.strict tree).graph.values.stateless =
    (Analysis.ofTree config.lenient tree).graph.values.stateless
  flow_eq : (Analysis.ofTree config.strict tree).graph.flow =
    (Analysis.ofTree config.lenient tree).graph.flow
  /-- What stays where it was made with the unknown state at the top does so in any case. -/
  noEscape : ∀ id record, (Analysis.ofTree config.strict tree).records.find? id = some record →
    record.state = .noEscape →
      ∃ other, (Analysis.ofTree config.lenient tree).records.find? id = some other ∧
        other.state = .noEscape
  noEscape_iff : ∀ id record, (Analysis.ofTree config.strict tree).records.find? id = some record →
    (record.state = .noEscape ↔
      (∀ edge ∈ (Analysis.ofTree config.strict tree).graph.values.edges, edge.source ≠ id) ∧
        ¬ (Walk.ofTree config tree depthLimit).CutOff id)
  /-- There is a placement in either order unless the sizes on its frame cannot be added up. -/
  placed_iff : ∀ order ∈ [config.strict, config.lenient],
    (∃ placement, Placement.ofTree? order tree = some placement) ↔ ¬ Placement.Overflows order tree
  replaces_none : ∀ placement, Placement.ofTree? config.strict tree = some placement →
    ∀ id, placement.location? id ≠ some .scalarReplaced ∧ placement.scalar.plan? id = none
  heap : ∀ order ∈ [config.strict, config.lenient], ∀ placement,
    Placement.ofTree? order tree = some placement →
      ∀ id, (Walk.ofTree config tree depthLimit).Escalates id → placement.location? id = some .heap

namespace ComparesModes

variable {config : Config} {tree : Tree}

theorem stateless_ofTree (config : Config) (tree : Tree) :
    (Analysis.ofTree config tree).graph.values.stateless =
      (Walk.ofTree config tree depthLimit).settle.graph.convertToSsa.values.stateless :=
  Propagation.stateless_propagate _ _ _

/-- What a walk lets escape goes to the heap in either order. -/
theorem location?_of_escalates {other : Config} (sizes : config.defaultSizes = other.defaultSizes)
    {placement : Placement} (placed : Placement.ofTree? other tree = some placement) {id : NodeId}
    (escalates : (Walk.ofTree config tree depthLimit).Escalates id) :
    placement.location? id = some .heap := by
  rw [Walk.ofTree_eq_of_defaultSizes sizes] at escalates
  have sound := (Walk.ofTree_accounts other tree depthLimit).sound
  have recorded := Walk.ofTree_recorded other tree depthLimit
  have orderly := Walk.ofTree_orderly other tree depthLimit
  have known : id ∈ (Analysis.ofTree other tree).records.keys :=
    (Analysis.mem_keys_iff sound recorded).2
      (sound.kind?_ofWalk_settle (escalates.kind?_eq sound))
  rcases Table.mem_keys_iff.1 known with ⟨record, found⟩
  exact Placement.location?_of_ne_noEscape placed found
    (Analysis.ne_noEscape_of_escalates sound orderly recorded escalates found)

end ComparesModes

open ComparesModes in
/-- With the unknown state at the top, an analysis finds the same graph as with it at the bottom, and
no more objects that stay where they were made: exactly those that are never used and were not cut
off.  None of them is replaced by locals, and what escapes through a sink or was cut off goes to the
heap in both orders. -/
theorem comparesModes (config : Config) (tree : Tree) : ComparesModes config tree := by
  have same (other : Config) (sizes : config.defaultSizes = other.defaultSizes) :
      Walk.ofTree config tree depthLimit = Walk.ofTree other tree depthLimit :=
    Walk.ofTree_eq_of_defaultSizes sizes tree depthLimit
  have sound (other : Config) := (Walk.ofTree_accounts other tree depthLimit).sound
  have recorded (other : Config) := Walk.ofTree_recorded other tree depthLimit
  have orderly (other : Config) := Walk.ofTree_orderly other tree depthLimit
  have noEscape_iff (id : NodeId) (record : EscapeRecord)
      (found : (Analysis.ofTree config.strict tree).records.find? id = some record) :=
    Analysis.state_eq_noEscape_iff_unused (sound config.strict) (orderly config.strict)
      (recorded config.strict) rfl found
  have irreplaceable : ∀ record ∈ (Analysis.ofTree config.strict tree).records.values,
      record.isScalarReplaceable = false := by
    intro record listed
    rcases List.mem_map.1 listed with ⟨⟨id, record⟩, entry, rfl⟩
    exact Analysis.isScalarReplaceable_eq_false (sound config.strict) (orderly config.strict)
      (recorded config.strict) rfl (Table.find?_eq_some_iff.2 entry)
  constructor
  case values_eq =>
    rw [stateless_ofTree, stateless_ofTree, ← same config.strict rfl, ← same config.lenient rfl]
  case flow_eq =>
    rw [Analysis.ofTree, Analysis.ofTree, Analysis.flow_ofWalk, Analysis.flow_ofWalk,
      ← same config.strict rfl, ← same config.lenient rfl]
  case noEscape =>
    intro id record found confined
    rcases (noEscape_iff id record found).1 confined with ⟨unused, uncut⟩
    rw [← same config.strict rfl, same config.lenient rfl] at uncut
    have keys : (Analysis.ofTree config.strict tree).records.keys =
        (Analysis.ofTree config.lenient tree).records.keys := by
      rw [Analysis.ofTree, Analysis.ofTree, Analysis.keys_ofWalk, Analysis.keys_ofWalk,
        ← same config.strict rfl, ← same config.lenient rfl]
    have known : id ∈ (Analysis.ofTree config.lenient tree).records.keys :=
      keys ▸ Table.mem_keys_iff.2 ⟨record, found⟩
    rcases Table.mem_keys_iff.1 known with ⟨other, foundOther⟩
    refine ⟨other, foundOther, ?_⟩
    refine Analysis.state_eq_noEscape_of_unused (sound config.lenient) (orderly config.lenient)
      (recorded config.lenient) ?_ uncut foundOther
    rw [Analysis.Unused, Analysis.edges_ofWalk] at unused ⊢
    rw [← same config.lenient rfl, same config.strict rfl]
    exact unused
  case noEscape_iff =>
    rw [same config.strict rfl]
    exact noEscape_iff
  case placed_iff => exact fun order _ => Placement.exists_ofTree?_iff
  case replaces_none =>
    exact fun placement placed id => ⟨Placement.location?_ne_scalarReplaced placed irreplaceable,
      Placement.plan?_eq_none placed irreplaceable⟩
  case heap =>
    intro order listed placement placed id escalates
    have sizes : config.defaultSizes = order.defaultSizes := by
      simp only [List.mem_cons, List.not_mem_nil, or_false] at listed
      obtain rfl | rfl := listed <;> rfl
    exact location?_of_escalates sizes placed escalates

end EscapePlan
