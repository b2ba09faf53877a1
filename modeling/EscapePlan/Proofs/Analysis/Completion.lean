import EscapePlan.Proofs.Analysis.Settling
import EscapePlan.Proofs.Flow.Conversion
import EscapePlan.Proofs.Flow.Links

/-!
# What comes after a walk

Conversion to single assignment form and propagation keep all values and edges.  They add nodes of
phis, and edges that join such nodes and the nodes of variables.  Records keep what they hold, and
their states rise.
-/

namespace EscapePlan

namespace Propagation

variable {unknownIsBottom : Bool} {graph : ValueGraph}

theorem node_raise (record : EscapeRecord) :
    (raise unknownIsBottom graph record).node = record.node := by
  unfold raise
  split
  next => rfl
  next =>
    dsimp only
    split
    next => rfl
    next => rfl

theorem fields_raise (record : EscapeRecord) :
    (raise unknownIsBottom graph record).fields = record.fields := by
  unfold raise
  split
  next => rfl
  next =>
    dsimp only
    split
    next => rfl
    next => rfl

theorem level_le_raise (record : EscapeRecord) :
    record.state.level unknownIsBottom ≤
      (raise unknownIsBottom graph record).state.level unknownIsBottom := by
  unfold raise
  split
  next => exact Nat.le_refl _
  next state =>
    dsimp only
    split
    next => exact Nat.le_refl _
    next =>
      rw [EscapeState.level_mergeWith]
      exact Nat.le_max_left _ _

/-- A record is raised as high as its node lies. -/
theorem level_le_raise_of_state? {record : EscapeRecord} {state : EscapeState}
    (found : graph.state? record.node = some state) :
    state.level unknownIsBottom ≤
      (raise unknownIsBottom graph record).state.level unknownIsBottom := by
  have merged : state.level unknownIsBottom ≤
      (record.state.mergeWith unknownIsBottom state).level unknownIsBottom := by
    rw [EscapeState.level_mergeWith]
    exact Nat.le_max_right _ _
  rw [raise, found]
  dsimp only
  split
  next unchanged => exact unchanged ▸ merged
  next => exact merged

theorem level_initialState_le_seed {records : Records} {id : NodeId} {node : ValueNode} :
    node.kind.initialState.level unknownIsBottom ≤
      (seed unknownIsBottom records id node).level unknownIsBottom := by
  rw [seed]
  split
  next => exact Nat.le_refl _
  next =>
    rw [EscapeState.level_mergeWith]
    exact Nat.le_max_left _ _

/-- A value ends no lower than any value that it flows into begins. -/
theorem level_initialState_le {records : Records} {edge : Edge} (listed : edge ∈ graph.edges)
    {node : ValueNode} (found : graph.node? edge.target = some node) {state : EscapeState}
    (reached : (propagate unknownIsBottom graph records).1.state? edge.source = some state) :
    node.kind.initialState.level unknownIsBottom ≤ state.level unknownIsBottom := by
  have invariant := invariant_propagate unknownIsBottom graph records
  have start : (seedAll unknownIsBottom records graph).state? edge.target =
      some (seed unknownIsBottom records edge.target node) := by
    rw [state?_seedAll, found]
    rfl
  rcases ValueGraph.exists_state?_of_stateless_eq invariant.stateless.symm start with
    ⟨target, foundTarget⟩
  have settled : Settled unknownIsBottom (propagate unknownIsBottom graph records).1
      edge.source := by
    by_contra unsettled
    exact absurd (invariant.queued _ unsettled) List.not_mem_nil
  have kept : edge ∈ (propagate unknownIsBottom graph records).1.edges := by
    rw [ValueGraph.edges_eq_of_stateless_eq (stateless_propagate unknownIsBottom graph records)]
    exact listed
  calc node.kind.initialState.level unknownIsBottom
      ≤ (seed unknownIsBottom records edge.target node).level unknownIsBottom :=
        level_initialState_le_seed
    _ ≤ target.level unknownIsBottom := invariant.above _ _ _ start foundTarget
    _ ≤ state.level unknownIsBottom :=
        settled state reached edge (ValueGraph.mem_outgoing.2 ⟨Array.mem_toList_iff.2 kept, rfl⟩)
          target foundTarget

/-- All uses of an object are accesses to its fields, and none of them is shared. -/
theorem usedByFieldsOnly_iff {allocation : NodeId} :
    usedByFieldsOnly graph allocation = true ↔
      ∀ edge ∈ graph.edges, edge.source = allocation →
        (∃ kind, graph.kind? edge.target = some kind ∧ kind.isFieldAccess = true) ∧
          ∀ other ∈ graph.edges, other.target = edge.target → other.kind = .defUse →
            graph.isAllocation other.source = true → other.source = allocation := by
  have shares (access : NodeId) : sharesAccess graph allocation access = false ↔
      ∀ other ∈ graph.edges, other.target = access → other.kind = .defUse →
        graph.isAllocation other.source = true → other.source = allocation := by
    simp only [sharesAccess, List.any_eq_false, ValueGraph.mem_incoming]
    grind
  simp only [usedByFieldsOnly, List.all_eq_true, ValueGraph.mem_outgoing, Bool.and_eq_true,
    Bool.not_eq_true', shares, Option.any_eq_true, Array.mem_toList_iff, and_imp]

end Propagation

/-- A listed value belongs to the key that is listed in its place. -/
theorem Table.exists_key {α : Type} {table : Table α} {place : Nat} {value : α}
    (listed : table.values[place]? = some value) :
    ∃ key, table.keys[place]? = some key ∧ table.find? key = some value := by
  rw [values, List.getElem?_map] at listed
  rcases Option.map_eq_some_iff.1 listed with ⟨⟨key, value⟩, found, rfl⟩
  refine ⟨key, ?_, find?_eq_some_iff.2 (List.mem_of_getElem? found)⟩
  rw [keys, List.getElem?_map, found]
  rfl

namespace DataFlowGraph

theorem names_analyzed {flow : ControlFlow} {id : NodeId} (names : flow.analyzed.Names id) :
    flow.Names id := by
  have agree := flow.agree_analyzed.of_view (·.definitions)
  rcases names with ⟨number, block, found, definition, member, nodeEq⟩ | ⟨phi, member, nodeEq⟩
  · have same := agree.blocks number
    rw [found] at same
    rcases Option.map_eq_some_iff.1 same.symm with ⟨old, foundOld, definitionsEq⟩
    exact .inl ⟨number, old, foundOld, definition, definitionsEq ▸ member, nodeEq⟩
  · rw [ControlFlow.phis_analyzed] at member
    exact .inr ⟨phi, member, nodeEq⟩

/-- A node has a version in single assignment form: it defines a variable, or it is that of a
phi. -/
def Versioned (graph : DataFlowGraph) (id : NodeId) : Prop :=
  graph.flow.Names id ∨ graph.convertToSsa.values.kind? id = some .phi

/-- A node is that of a phi, which was there or has been placed. -/
def Joins (graph : DataFlowGraph) (id : NodeId) : Prop :=
  (∃ phi ∈ graph.flow.phis, phi.node = id) ∨
    graph.values.size ≤ id ∧ graph.convertToSsa.values.kind? id = some .phi

theorem Joins.versioned {graph : DataFlowGraph} {id : NodeId} (joins : graph.Joins id) :
    graph.Versioned id :=
  joins.imp .inr And.right

theorem joins_of_phi {graph : DataFlowGraph} {phi : Phi} (member : phi ∈ graph.withPhis.flow.phis) :
    graph.Joins phi.node := by
  rw [Joins, kind?_convertToSsa]
  exact (of_mem_phis_withPhis member).imp_left fun old => ⟨phi, old, rfl⟩

/-- Conversion adds edges from nodes that have versions to those of phis only. -/
theorem of_mem_edges_convertToSsa {graph : DataFlowGraph} {edge : Edge}
    (listed : edge ∈ graph.convertToSsa.values.edges) :
    edge ∈ graph.values.edges ∨ graph.Versioned edge.source ∧ graph.Joins edge.target := by
  rw [values_convertToSsa, foldl_linkPhi] at listed
  rcases ValueGraph.mem_foldl_addEdge listed with old | added
  · rw [edges_withPhis] at old
    exact .inl old
  · rcases List.mem_map.1 added with ⟨link, member, rfl⟩
    refine .inr (ControlFlow.mem_links_rename ?_ ?_ member)
    · intro number block found definition defined
      rcases definitions_foldl_placePhi found with ⟨old, foundOld, definitions⟩
      exact .inl (names_analyzed (.inl ⟨number, old, foundOld, definition, definitions ▸ defined,
        rfl⟩))
    · exact fun phi phiMember => ⟨(joins_of_phi phiMember).versioned, joins_of_phi phiMember⟩

end DataFlowGraph

namespace Analysis

/-- The record of a site: the one of its number, if it comes from its node. -/
def recordOf? (analysis : Analysis) (site : Site) : Option EscapeRecord :=
  analysis.records.values[site.number]?.filter fun record =>
    (analysis.graph.values.node? record.node).bind (·.origin) = some site.index

/-- The analysis found that the objects of a site may be reachable from anywhere. -/
def LetsEscape (unknownIsBottom : Bool) (analysis : Analysis) (site : Site) : Prop :=
  ∃ record, analysis.recordOf? site = some record ∧
    (record.state = .globalEscape ∨ unknownIsBottom = false ∧ record.state = .unknown)

theorem not_letsEscape_of_noEscape {analysis : Analysis} {site : Site} {record : EscapeRecord}
    {unknownIsBottom : Bool} (found : analysis.recordOf? site = some record)
    (noEscape : record.state = .noEscape) : ¬ analysis.LetsEscape unknownIsBottom site := by
  rintro ⟨other, foundOther, escaping⟩
  cases found.symm.trans foundOther
  rcases escaping with state | ⟨-, state⟩
  · cases noEscape.symm.trans state
  · cases noEscape.symm.trans state

variable {config : Config} {walk : Walk}

theorem values_ofWalk : (ofWalk config walk).graph.values =
    (propagate config.unknownIsBottom walk.graph.convertToSsa.values walk.records).1 :=
  rfl

/-- Values stay what they are but for their states. -/
theorem exists_node?_ofWalk {id : NodeId} {node : ValueNode}
    (found : walk.graph.values.node? id = some node) :
    ∃ state, (ofWalk config walk).graph.values.node? id = some { node with state } := by
  have shape := Propagation.stateless_propagate config.unknownIsBottom
    walk.graph.convertToSsa.values walk.records
  exact ValueGraph.exists_node?_of_stateless_eq shape.symm (DataFlowGraph.node?_convertToSsa found)

theorem origin_ofWalk {id : NodeId} {node : ValueNode}
    (found : walk.graph.values.node? id = some node) :
    ((ofWalk config walk).graph.values.node? id).bind (·.origin) = node.origin := by
  rcases @exists_node?_ofWalk config walk id node found with ⟨state, kept⟩
  rw [kept]
  rfl

theorem kind?_ofWalk {id : NodeId} {kind : NodeKind} (known : walk.kind? id = some kind) :
    (ofWalk config walk).graph.values.kind? id = some kind := by
  rcases Option.map_eq_some_iff.1 known with ⟨node, found, rfl⟩
  rcases @exists_node?_ofWalk config walk id node found with ⟨state, kept⟩
  rw [ValueGraph.kind?, kept]
  rfl

theorem edges_ofWalk : (ofWalk config walk).graph.values.edges =
    walk.graph.convertToSsa.values.edges :=
  ValueGraph.edges_eq_of_stateless_eq (Propagation.stateless_propagate config.unknownIsBottom
    walk.graph.convertToSsa.values walk.records)

theorem kind?_convertToSsa (id : NodeId) : (ofWalk config walk).graph.values.kind? id =
    walk.graph.convertToSsa.values.kind? id := by
  have shape := Propagation.stateless_propagate config.unknownIsBottom
    walk.graph.convertToSsa.values walk.records
  have same := congrArg (fun graph : ValueGraph => (graph.node? id).map (·.kind)) shape
  simp only [ValueGraph.node?_stateless, Option.map_map] at same
  exact same

theorem records_ofWalk :
    (ofWalk config walk).records = judgeRecords config.enableScalarReplacement
      (propagate config.unknownIsBottom walk.graph.convertToSsa.values walk.records).1
      (walk.records.map (Propagation.raise config.unknownIsBottom
        (propagate config.unknownIsBottom walk.graph.convertToSsa.values walk.records).1)) :=
  rfl

theorem keys_ofWalk : (ofWalk config walk).records.keys = walk.records.keys := by
  rw [records_ofWalk, judgeRecords, Table.keys_map, Table.keys_map]

/-- What becomes of a record: it is judged by the final graph, and its state rises. -/
structure Judges (config : Config) (walk : Walk) (before after : EscapeRecord) : Prop where
  node_eq : after.node = before.node
  fields_eq : after.fields = before.fields
  level_le : before.state.level config.unknownIsBottom ≤ after.state.level config.unknownIsBottom
  level_node_le : ∀ state, (ofWalk config walk).graph.values.state? after.node = some state →
    state.level config.unknownIsBottom ≤ after.state.level config.unknownIsBottom
  replaceable_iff : after.isScalarReplaceable = true ↔
    after.state = .noEscape ∧ config.enableScalarReplacement = true ∧
      (∃ field, after.Uses field) ∧
      usedByFieldsOnly (ofWalk config walk).graph.values after.node = true

theorem exists_use_iff {record : EscapeRecord} :
    (∃ field, record.Uses field) ↔ record.fields.isEmpty = false := by
  cases fieldsEq : record.fields with
  | nil => simp [EscapeRecord.Uses, fieldsEq]
  | cons field rest => simp [EscapeRecord.Uses, fieldsEq]

theorem find?_ofWalk {id : NodeId} {record : EscapeRecord}
    (found : walk.records.find? id = some record) :
    ∃ judged, (ofWalk config walk).records.find? id = some judged ∧
      Judges config walk record judged := by
  rw [records_ofWalk, judgeRecords, Table.find?_map, Table.find?_map, found]
  refine ⟨_, rfl, Propagation.node_raise record, Propagation.fields_raise record,
    Propagation.level_le_raise record, fun state reached => ?_, ?_⟩
  · dsimp only at reached
    rw [Propagation.node_raise] at reached
    exact Propagation.level_le_raise_of_state? reached
  rw [exists_use_iff, values_ofWalk]
  simp only [EscapeRecord.isScalarReplaceable, Propagation.node_raise, Propagation.fields_raise,
    Bool.and_eq_true, decide_eq_true_eq, Bool.not_eq_true']
  tauto

/-- Only what may be reachable from anywhere lies as high as what is. -/
theorem escaping_of_level {unknownIsBottom : Bool} {state : EscapeState}
    (level : EscapeState.globalEscape.level unknownIsBottom ≤ state.level unknownIsBottom) :
    state = .globalEscape ∨ unknownIsBottom = false ∧ state = .unknown := by
  revert level
  cases unknownIsBottom <;> cases state <;> decide

variable (sound : walk.Sound)
include sound

/-- The record of a site after the walk, and what becomes of it. -/
theorem exists_judged (config : Config) {id : NodeId} (known : id ∈ walk.records.keys) :
    ∃ record judged, walk.settle.records.find? id = some record ∧
      (ofWalk config walk.settle).records.find? id = some judged ∧ judged.node = id ∧
      Judges config walk.settle record judged := by
  rcases Table.mem_keys_iff.1 known with ⟨first, foundFirst⟩
  rcases sound.settles.record id first foundFirst with ⟨record, found, becomes⟩
  rcases @find?_ofWalk config walk.settle id record found with ⟨judged, foundJudged, judges⟩
  refine ⟨record, judged, found, foundJudged, ?_, judges⟩
  rw [judges.node_eq, becomes.node_eq]
  exact (sound.record_new id first foundFirst).1

/-- The record of a site is that of its node. -/
theorem recordOf?_iff {site : Site} {judged : EscapeRecord} :
    (ofWalk config walk.settle).recordOf? site = some judged ↔
      walk.Represents judged.node (.site site) ∧
        (ofWalk config walk.settle).records.find? judged.node = some judged := by
  have settles := sound.settles
  have numbered (id : NodeId) : (ofWalk config walk.settle).records.keys[site.number]? = some id ↔
      ∃ scope, walk.sites[site.number]? = some (id, scope) := by
    rw [keys_ofWalk, settles.keys_eq]
    show walk.records.keys[site.number]? = some id ↔ _
    rw [sound.keys_eq, List.getElem?_map, Array.getElem?_toList, Option.map_eq_some_iff]
    exact ⟨fun ⟨⟨_, scope⟩, found, same⟩ => ⟨scope, same ▸ found⟩,
      fun ⟨scope, found⟩ => ⟨(id, scope), found, rfl⟩⟩
  have origin {id : NodeId} {node : ValueNode} (found : walk.graph.values.node? id = some node) :
      ((ofWalk config walk.settle).graph.values.node? id).bind (·.origin) = node.origin := by
    rw [← Walk.node?_resolveAliases] at found
    rcases settles.exists_origin found with ⟨later, foundLater, originLater⟩
    exact (origin_ofWalk foundLater).trans originLater
  rw [recordOf?, Option.filter_eq_some_iff, decide_eq_true_eq]
  constructor
  · rintro ⟨listed, originEq⟩
    rcases Table.exists_key listed with ⟨id, keyEq, foundJudged⟩
    rcases (numbered id).1 keyEq with ⟨scope, siteEq⟩
    have site_ := Array.mem_of_getElem? siteEq
    rcases exists_judged sound config (sound.known_of_site site_) with
      ⟨_, other, -, foundOther, rfl, -⟩
    cases foundJudged.symm.trans foundOther
    rcases Option.map_eq_some_iff.1 (sound.site_known _ site_) with ⟨node, found, kind⟩
    exact ⟨⟨⟨scope, siteEq⟩, node, found, kind, (origin found).symm.trans originEq⟩, foundJudged⟩
  · rintro ⟨⟨numberedAt, node, found, -, originEq⟩, foundRecord⟩
    exact ⟨Table.getElem?_values ((numbered _).2 numberedAt) foundRecord,
      (origin found).trans originEq⟩

/-- What the record of a site has become since the walk was settled. -/
theorem judges_of_recordOf? {site : Site} {judged : EscapeRecord}
    (found : (ofWalk config walk.settle).recordOf? site = some judged) :
    walk.Represents judged.node (.site site) ∧
      ∃ record, walk.settle.records.find? judged.node = some record ∧
        Judges config walk.settle record judged := by
  rcases (recordOf?_iff sound).1 found with ⟨represents, foundJudged⟩
  rcases exists_judged sound config (sound.known_of_represents represents) with
    ⟨record, other, foundRecord, foundOther, -, judges⟩
  cases foundJudged.symm.trans foundOther
  exact ⟨represents, record, foundRecord, judges⟩

/-- A site whose node has escaped once the walk is settled is found to escape. -/
theorem letsEscape_ofWalk {site : Site} {id : NodeId}
    (represents : walk.Represents id (.site site)) (escapes : Walk.Escapes id walk.settle) :
    (ofWalk config walk.settle).LetsEscape config.unknownIsBottom site := by
  have known := sound.known_of_represents represents
  rcases escapes with ⟨record, found, state⟩
  rcases exists_judged sound config known with ⟨other, judged, foundOther, foundJudged, rfl, judges⟩
  cases found.symm.trans foundOther
  refine ⟨judged, (recordOf?_iff sound).2 ⟨represents, foundJudged⟩, escaping_of_level ?_⟩
  rw [← state]
  exact judges.level_le

end Analysis

end EscapePlan
