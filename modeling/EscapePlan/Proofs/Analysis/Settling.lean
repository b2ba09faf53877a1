import EscapePlan.Proofs.Analysis.Aliases
import EscapePlan.Proofs.Propagation

/-!
# What settling a walk keeps

Once a walk is over and aliases are resolved, applying what it has noted adds edges and raises
states; nothing is taken back, and what values denote stays the same.  So a sink that is applied
has let all objects of its value escape for good, and an access that is applied has become a use
of all objects of its base.
-/

namespace EscapePlan

namespace EscapeRecord

/-- A field of the objects of a site is used. -/
def Uses (record : EscapeRecord) (field : String) : Prop :=
  field ∈ record.fields.map (·.name)

/-- What becomes of a record: it stays that of its node, it goes on escaping, and the fields that
are used go on being used. -/
structure Becomes (before after : EscapeRecord) : Prop where
  node_eq : after.node = before.node
  escapes : before.state = .globalEscape → after.state = .globalEscape
  uses : ∀ field, before.Uses field → after.Uses field

theorem Becomes.refl (record : EscapeRecord) : Becomes record record :=
  ⟨rfl, fun escapes => escapes, fun _ uses => uses⟩

theorem Becomes.trans {first second third : EscapeRecord} (one : Becomes first second)
    (two : Becomes second third) : Becomes first third :=
  ⟨two.node_eq.trans one.node_eq, fun escapes => two.escapes (one.escapes escapes),
    fun field uses => two.uses field (one.uses field uses)⟩

theorem mem_names_addField {name other : String} {type : ValueType} {fields : List ScalarField} :
    other ∈ (addField name type fields).map (·.name) ↔
      other ∈ fields.map (·.name) ∨ other = name := by
  have same : (fields.map fun field =>
      if field.name = name ∧ field.type = .unknown then { field with type } else field).map
        (·.name) = fields.map (·.name) := by
    rw [List.map_map]
    apply List.map_congr_left
    intro field _
    rw [Function.comp_apply]
    split
    next => rfl
    next => rfl
  rw [addField]
  split
  next known =>
    rw [same]
    refine ⟨.inl, fun listed => listed.elim id ?_⟩
    rintro rfl
    rcases List.any_eq_true.1 known with ⟨field, member, nameEq⟩
    exact List.mem_map.2 ⟨field, member, of_decide_eq_true nameEq⟩
  next => simp [List.map_append]

/-- Recording a field makes it used, and no other. -/
theorem uses_recordField {record : EscapeRecord} {name other : String} {type : ValueType} :
    (record.recordField name type).Uses other ↔ record.Uses other ∨ other = name :=
  mem_names_addField

theorem becomes_recordField (record : EscapeRecord) (name : String) (type : ValueType) :
    Becomes record (record.recordField name type) :=
  ⟨rfl, fun escapes => escapes, fun _ uses => uses_recordField.2 (.inl uses)⟩

/-- Nothing lies above what is reachable from anywhere. -/
theorem state_escalate_globalEscape (record : EscapeRecord) (reason : EscapeReason)
    (position : Option Position) :
    (record.escalate .globalEscape reason position).state = .globalEscape := by
  have merged : record.state.merge .globalEscape = .globalEscape := by
    cases record.state <;> rfl
  rw [escalate]
  split
  next unchanged => exact unchanged.symm.trans merged
  next => exact merged

theorem becomes_escalate (record : EscapeRecord) (reason : EscapeReason)
    (position : Option Position) :
    Becomes record (record.escalate .globalEscape reason position) := by
  refine ⟨?_, fun _ => record.state_escalate_globalEscape reason position, fun field uses => ?_⟩
  · rw [escalate]
    split
    next => rfl
    next => rfl
  · rw [escalate]
    split
    next => exact uses
    next => exact uses

end EscapeRecord

namespace Walk

/-- What settling keeps from one state of a walk to another, once aliases are resolved. -/
structure Settles (before after : Walk) : Prop where
  node_eq : ∀ id, after.graph.values.stateless.node? id = before.graph.values.stateless.node? id
  edges : ∀ edge ∈ before.graph.values.edges, edge ∈ after.graph.values.edges
  aliases_eq : ∀ id, after.aliases id = before.aliases id
  flow_eq : after.graph.flow = before.graph.flow
  sinks_eq : after.sinks = before.sinks
  sites_eq : after.sites = before.sites
  mentions_eq : after.mentions = before.mentions
  truncated_eq : after.truncated = before.truncated
  keys_eq : after.records.keys = before.records.keys
  record : ∀ id record, before.records.find? id = some record →
    ∃ later, after.records.find? id = some later ∧ record.Becomes later

namespace Settles

variable {first second third : Walk}

theorem refl (walk : Walk) : Settles walk walk :=
  ⟨fun _ => rfl, fun _ listed => listed, fun _ => rfl, rfl, rfl, rfl, rfl, rfl, rfl,
    fun _ record found => ⟨record, found, .refl record⟩⟩

theorem trans (one : Settles first second) (two : Settles second third) : Settles first third where
  node_eq id := (two.node_eq id).trans (one.node_eq id)
  edges edge listed := two.edges edge (one.edges edge listed)
  aliases_eq id := (two.aliases_eq id).trans (one.aliases_eq id)
  flow_eq := two.flow_eq.trans one.flow_eq
  sinks_eq := two.sinks_eq.trans one.sinks_eq
  sites_eq := two.sites_eq.trans one.sites_eq
  mentions_eq := two.mentions_eq.trans one.mentions_eq
  truncated_eq := two.truncated_eq.trans one.truncated_eq
  keys_eq := two.keys_eq.trans one.keys_eq
  record id record found := by
    rcases one.record id record found with ⟨middle, foundMiddle, becomesMiddle⟩
    rcases two.record id middle foundMiddle with ⟨later, foundLater, becomesLater⟩
    exact ⟨later, foundLater, becomesMiddle.trans becomesLater⟩

theorem kind?_eq (settles : Settles first second) (id : NodeId) :
    second.kind? id = first.kind? id := by
  have same := congrArg (Option.map ValueNode.kind) (settles.node_eq id)
  rw [ValueGraph.node?_stateless, ValueGraph.node?_stateless, Option.map_map, Option.map_map]
    at same
  exact same

/-- Values still come from the same tree nodes. -/
theorem exists_origin (settles : Settles first second) {id : NodeId} {node : ValueNode}
    (found : first.graph.values.node? id = some node) :
    ∃ later, second.graph.values.node? id = some later ∧ later.origin = node.origin := by
  have same := congrArg (Option.map ValueNode.origin) (settles.node_eq id)
  rw [ValueGraph.node?_stateless, ValueGraph.node?_stateless, Option.map_map, Option.map_map,
    found] at same
  exact Option.map_eq_some_iff.1 same

/-- Uses do not change what values denote. -/
theorem of_addEdge (walk : Walk) (edge : Edge) (use : edge.kind ≠ .pointsTo) :
    Settles walk { walk with
      graph := { walk.graph with values := walk.graph.values.addEdge edge } } := by
  refine { refl walk with node_eq := fun id => ?_, edges := ?_, aliases_eq := fun id => ?_ }
  · rw [ValueGraph.node?_stateless, ValueGraph.node?_stateless, ValueGraph.node?,
      ValueGraph.nodes_addEdge]
    rfl
  · exact fun _ listed => ValueGraph.mem_edges_addEdge listed
  · have kinds : (walk.graph.values.addEdge edge).isAllocation id =
        walk.graph.values.isAllocation id := by
      rw [ValueGraph.isAllocation, ValueGraph.kind?, ValueGraph.node?, ValueGraph.nodes_addEdge]
      rfl
    rw [aliases, aliases, kinds, ValueGraph.pointsTo_addEdge use]

theorem of_recordField (walk : Walk) (allocation : NodeId) (field : String) (type : ValueType) :
    Settles walk { walk with
      records := walk.records.modify allocation (·.recordField field type) } := by
  refine { refl walk with keys_eq := Table.keys_modify _ _ _, record := ?_ }
  intro id record found
  refine ⟨_, by rw [Table.find?_modify, found]; rfl, ?_⟩
  split
  next => exact record.becomes_recordField field type
  next => exact .refl record

theorem foldl {α : Type} {step : Walk → α → Walk} {items : List α}
    (steps : ∀ item ∈ items, ∀ walk, Settles walk (step walk item)) (walk : Walk) :
    Settles walk (items.foldl step walk) := by
  induction items generalizing walk with
  | nil => exact .refl walk
  | cons item rest inductionHypothesis =>
      rcases List.forall_mem_cons.1 steps with ⟨first, later⟩
      exact (first walk).trans (inductionHypothesis later _)

/-- What a step reaches for an item, a whole run reaches if settling keeps it. -/
theorem foldl_of_mem {α : Type} {step : Walk → α → Walk} {reached : Walk → Prop} {items : List α}
    (steps : ∀ item ∈ items, ∀ walk, Settles walk (step walk item))
    (kept : ∀ {before after}, Settles before after → reached before → reached after)
    {item : α} (listed : item ∈ items) {start : Walk}
    (reaches : ∀ walk, Settles start walk → reached (step walk item)) :
    reached (items.foldl step start) := by
  induction items generalizing start with
  | nil => contradiction
  | cons first rest inductionHypothesis =>
      rcases List.forall_mem_cons.1 steps with ⟨stepsFirst, stepsRest⟩
      rcases List.mem_cons.1 listed with rfl | later
      · exact kept (foldl stepsRest _) (reaches start (.refl start))
      · exact inductionHypothesis stepsRest later fun walk settles =>
          reaches walk ((stepsFirst start).trans settles)

/-- What a whole run has reached was there before, or one of the steps has reached it. -/
theorem of_foldl {α : Type} {step : Walk → α → Walk} {reached : Walk → Prop}
    {reaches : α → Prop} {items : List α} {start : Walk}
    (steps : ∀ item ∈ items, ∀ walk, Settles walk (step walk item))
    (back : ∀ item ∈ items, ∀ walk, Settles start walk → reached (step walk item) →
      reached walk ∨ reaches item)
    (last : reached (items.foldl step start)) : reached start ∨ ∃ item ∈ items, reaches item := by
  induction items generalizing start with
  | nil => exact .inl last
  | cons first rest inductionHypothesis =>
      rcases List.forall_mem_cons.1 steps with ⟨stepsFirst, stepsRest⟩
      rcases List.forall_mem_cons.1 back with ⟨backFirst, backRest⟩
      rcases inductionHypothesis stepsRest (fun item member walk settles =>
        backRest item member walk ((stepsFirst start).trans settles)) last with
        reachedFirst | ⟨item, member, reachesItem⟩
      · exact (backFirst start (.refl start) reachedFirst).imp_right fun reachesFirst =>
          ⟨first, List.mem_cons_self, reachesFirst⟩
      · exact .inr ⟨item, List.mem_cons_of_mem _ member, reachesItem⟩

end Settles

/-- What no step reaches, no run reaches. -/
theorem of_foldl_of_back {α : Type} {step : Walk → α → Walk} {reached : Walk → Prop}
    (back : ∀ item walk, reached (step walk item) → reached walk) {items : List α} {start : Walk}
    (last : reached (items.foldl step start)) : reached start := by
  induction items generalizing start with
  | nil => exact last
  | cons first rest inductionHypothesis => exact back first start (inductionHypothesis last)

/-- An allocation is known to escape for good. -/
def Escapes (allocation : NodeId) (walk : Walk) : Prop :=
  ∃ record, walk.records.find? allocation = some record ∧ record.state = .globalEscape

theorem Escapes.last {allocation : NodeId} {before after : Walk} (settles : Settles before after)
    (escapes : Escapes allocation before) : Escapes allocation after := by
  rcases escapes with ⟨record, found, state⟩
  rcases settles.record allocation record found with ⟨later, foundLater, becomes⟩
  exact ⟨later, foundLater, becomes.escapes state⟩

/-- A field of an allocation is known to be used. -/
def UsesField (allocation : NodeId) (field : String) (walk : Walk) : Prop :=
  ∃ record, walk.records.find? allocation = some record ∧ record.Uses field

theorem UsesField.last {allocation : NodeId} {field : String} {before after : Walk}
    (settles : Settles before after) (uses : UsesField allocation field before) :
    UsesField allocation field after := by
  rcases uses with ⟨record, found, uses⟩
  rcases settles.record allocation record found with ⟨later, foundLater, becomes⟩
  exact ⟨later, foundLater, becomes.uses field uses⟩

/-- An edge has been added. -/
def Joined (edge : Edge) (walk : Walk) : Prop :=
  edge ∈ walk.graph.values.edges

theorem Joined.last {edge : Edge} {before after : Walk} (settles : Settles before after)
    (joined : Joined edge before) : Joined edge after :=
  settles.edges edge joined

/-- An allocation is known to have risen above where it began. -/
def Risen (allocation : NodeId) (walk : Walk) : Prop :=
  ∃ record, walk.records.find? allocation = some record ∧
    ¬ (record.state = .noEscape ∧ record.trail = [])

/-- Applies an access to an allocation. -/
def useOnce (access : Access) (walk : Walk) (allocation : NodeId) : Walk :=
  { walk with
    graph := { walk.graph with
      values := walk.graph.values.addEdge ⟨allocation, access.node, .defUse⟩ }
    records :=
      match access.field with
      | none => walk.records
      | some field => walk.records.modify allocation (·.recordField field access.type) }

theorem settles_useOnce (access : Access) (walk : Walk) (allocation : NodeId) :
    Settles walk (useOnce access walk allocation) := by
  rw [useOnce]
  cases access.field with
  | none => exact .of_addEdge walk ⟨allocation, access.node, .defUse⟩ nofun
  | some field =>
      exact (Settles.of_addEdge walk ⟨allocation, access.node, .defUse⟩ nofun).trans
        (.of_recordField _ allocation field access.type)

theorem usesField_useOnce {access : Access} {walk : Walk} {allocation : NodeId} {field : String}
    (known : allocation ∈ walk.records.keys) (fieldEq : access.field = some field) :
    UsesField allocation field (useOnce access walk allocation) := by
  rcases Table.mem_keys_iff.1 known with ⟨record, found⟩
  refine ⟨record.recordField field access.type, ?_, EscapeRecord.uses_recordField.2 (.inr rfl)⟩
  rw [useOnce, fieldEq]
  show (walk.records.modify allocation (·.recordField field access.type)).find? allocation = _
  rw [Table.find?_modify, found, Option.map_some, if_pos rfl]

theorem settles_applyAccess (walk : Walk) (access : Access) :
    Settles walk (walk.applyAccess access) :=
  .foldl (fun allocation _ walk => settles_useOnce access walk allocation) walk

/-- The walk with another record of an allocation. -/
def withRecord (walk : Walk) (allocation : NodeId) (record : EscapeRecord) : Walk :=
  { walk with
    graph := { walk.graph with values := walk.graph.values.setState allocation record.state }
    records := walk.records.insert allocation record }

theorem escalate_of_found {walk : Walk} {allocation : NodeId} {record : EscapeRecord}
    (found : walk.records.find? allocation = some record) (reason : EscapeReason)
    (position : Option Position) :
    walk.escalate reason position allocation =
      if (record.escalate .globalEscape reason position).state = record.state then walk
      else walk.withRecord allocation (record.escalate .globalEscape reason position) := by
  rw [escalate, found]
  rfl

theorem settles_withRecord {walk : Walk} {allocation : NodeId} {record raised : EscapeRecord}
    (found : walk.records.find? allocation = some record) (becomes : record.Becomes raised) :
    Settles walk (walk.withRecord allocation raised) := by
  have stateless : (walk.withRecord allocation raised).graph.values.stateless =
      walk.graph.values.stateless := ValueGraph.stateless_setState _ _ _
  refine { Settles.refl walk with
    node_eq := fun id => congrArg (·.node? id) stateless
    keys_eq := Table.keys_insert_of_mem (Table.mem_keys_iff.2 ⟨record, found⟩)
    aliases_eq := fun id => ?_
    record := fun id other foundOther => ?_ }
  · have kinds : (walk.withRecord allocation raised).graph.values.isAllocation id =
        walk.graph.values.isAllocation id := by
      have same := congrArg (fun graph : ValueGraph => (graph.node? id).map (·.kind)) stateless
      simp only [ValueGraph.node?_stateless, Option.map_map] at same
      exact congrArg (fun kind => decide (kind = some NodeKind.allocation)) same
    rw [aliases, aliases, kinds]
    rfl
  · rw [withRecord, Table.find?_insert]
    by_cases same : id = allocation
    · subst same
      cases found.symm.trans foundOther
      exact ⟨raised, if_pos rfl, becomes⟩
    · exact ⟨other, (if_neg same).trans foundOther, .refl other⟩

/-- Raising the state of an allocation keeps everything else. -/
theorem settles_escalate (walk : Walk) (reason : EscapeReason) (position : Option Position)
    (allocation : NodeId) : Settles walk (walk.escalate reason position allocation) := by
  cases found : walk.records.find? allocation with
  | none =>
      rw [escalate, found]
      exact .refl walk
  | some record =>
      rw [escalate_of_found found]
      split
      next => exact .refl walk
      next => exact settles_withRecord found (record.becomes_escalate reason position)

theorem escapes_escalate {walk : Walk} {allocation : NodeId} (known : allocation ∈ walk.records.keys)
    (reason : EscapeReason) (position : Option Position) :
    Escapes allocation (walk.escalate reason position allocation) := by
  rcases Table.mem_keys_iff.1 known with ⟨record, found⟩
  have raised := record.state_escalate_globalEscape reason position
  rw [escalate_of_found found]
  split
  next unchanged => exact ⟨record, found, unchanged.symm.trans raised⟩
  next =>
    refine ⟨_, ?_, raised⟩
    rw [withRecord, Table.find?_insert, if_pos rfl]

/-- Applies a sink to an allocation. -/
def sinkOnce (sink : Sink) (walk : Walk) (allocation : NodeId) : Walk :=
  { walk with
    graph := { walk.graph with
      values := walk.graph.values.addEdge ⟨allocation, sink.target, sink.kind⟩ }
    : Walk }.escalate sink.reason sink.position allocation

theorem settles_sinkOnce {sink : Sink} (use : sink.kind ≠ .pointsTo) (walk : Walk)
    (allocation : NodeId) : Settles walk (sinkOnce sink walk allocation) :=
  (Settles.of_addEdge walk ⟨allocation, sink.target, sink.kind⟩ use).trans
    (settles_escalate _ sink.reason sink.position allocation)

theorem escapes_sinkOnce {sink : Sink} {walk : Walk} {allocation : NodeId}
    (known : allocation ∈ walk.records.keys) : Escapes allocation (sinkOnce sink walk allocation) :=
  @escapes_escalate { walk with
    graph := { walk.graph with
      values := walk.graph.values.addEdge ⟨allocation, sink.target, sink.kind⟩ } }
    allocation known sink.reason sink.position

theorem settles_applySink {sink : Sink} (use : sink.kind ≠ .pointsTo) (walk : Walk) :
    Settles walk (walk.applySink sink) :=
  .foldl (fun allocation _ walk => settles_sinkOnce use walk allocation) walk

theorem settles_escalateTruncated (walk : Walk) : Settles walk walk.escalateTruncated := by
  rw [escalateTruncated]
  split
  next => exact .refl walk
  next => exact .foldl (fun allocation _ walk => settles_escalate walk _ _ allocation) walk

theorem settles_applyAccesses (walk : Walk) :
    Settles walk (walk.accesses.foldl applyAccess walk) := by
  rw [← Array.foldl_toList]
  exact .foldl (fun access _ walk => settles_applyAccess walk access) walk

theorem settles_applySinks {sinks : Array Sink} (uses : ∀ sink ∈ sinks, sink.kind ≠ .pointsTo)
    (walk : Walk) : Settles walk (sinks.foldl applySink walk) := by
  rw [← Array.foldl_toList]
  exact .foldl (fun sink member walk =>
    settles_applySink (uses sink (Array.mem_toList_iff.1 member)) walk) walk

/-! ## The stages of settling -/

/-- The walk once accesses have been applied. -/
def applyAccesses (walk : Walk) : Walk :=
  walk.accesses.foldl applyAccess walk.resolveAliases

/-- The walk once accesses and sinks have been applied. -/
def applySinks (walk : Walk) : Walk :=
  walk.sinks.foldl applySink walk.applyAccesses

theorem settles_resolved (walk : Walk) : Settles walk.resolveAliases walk.applyAccesses :=
  settles_applyAccesses walk.resolveAliases

theorem settle_eq (walk : Walk) : walk.settle = walk.applySinks.escalateTruncated := by
  have sinksEq : walk.applyAccesses.sinks = walk.sinks := (settles_resolved walk).sinks_eq
  show (walk.applyAccesses.sinks.foldl applySink walk.applyAccesses).escalateTruncated = _
  rw [sinksEq]
  rfl

variable {walk : Walk} (sound : walk.Sound)
include sound

theorem Sound.settles_accessed : Settles walk.applyAccesses walk.applySinks :=
  settles_applySinks (fun sink member => (sound.sink_known sink member).1) walk.applyAccesses

theorem Sound.settles_sunk : Settles walk.resolveAliases walk.applySinks :=
  (settles_resolved walk).trans sound.settles_accessed

omit sound in
theorem settles_applied : Settles walk.applySinks walk.settle := by
  rw [settle_eq]
  exact settles_escalateTruncated walk.applySinks

/-- Nothing is taken back. -/
theorem Sound.settles : Settles walk.resolveAliases walk.settle :=
  sound.settles_sunk.trans settles_applied

theorem Sound.known_of_site {allocation : NodeId} {scope : Nat}
    (site : (allocation, scope) ∈ walk.sites) : allocation ∈ walk.records.keys := by
  rw [sound.keys_eq]
  exact List.mem_map.2 ⟨_, Array.mem_toList_iff.2 site, rfl⟩

theorem Sound.known_of_represents {id : NodeId} {site : Site}
    (represents : walk.Represents id (.site site)) : id ∈ walk.records.keys := by
  rcases represents.1 with ⟨scope, numbered⟩
  exact sound.known_of_site (Array.mem_of_getElem? numbered)

theorem Sound.kind?_of_known {allocation : NodeId} (known : allocation ∈ walk.records.keys) :
    walk.kind? allocation = some .allocation := by
  rw [sound.keys_eq] at known
  rcases List.mem_map.1 known with ⟨site, member, rfl⟩
  exact sound.site_known site (Array.mem_toList_iff.1 member)

/-! ## What settling reaches -/

/-- Every sink is applied to everything that its value may denote. -/
theorem Sound.settle_of_sink {reached : Walk → Prop}
    (kept : ∀ {before after}, Settles before after → reached before → reached after) {sink : Sink}
    (noted : sink ∈ walk.sinks) {allocation : NodeId}
    (listed : allocation ∈ walk.resolveAliases.aliases sink.value)
    (reaches : ∀ later, Settles walk.resolveAliases later →
      reached (sinkOnce sink later allocation)) : reached walk.settle := by
  apply kept settles_applied
  rw [applySinks, ← Array.foldl_toList]
  refine Settles.foldl_of_mem (fun sink member walk => settles_applySink
    (sound.sink_known sink (Array.mem_toList_iff.1 member)).1 walk) kept
    (Array.mem_toList_iff.2 noted) fun middle settles => ?_
  have before := (settles_resolved walk).trans settles
  have use := (sound.sink_known sink noted).1
  have still : allocation ∈ middle.aliases sink.value := by
    rwa [before.aliases_eq]
  exact Settles.foldl_of_mem (fun other _ walk => settles_sinkOnce use walk other) kept still
    fun later settles => reaches later (before.trans settles)

/-- Every access is applied to everything that its base may denote. -/
theorem Sound.settle_of_access {reached : Walk → Prop}
    (kept : ∀ {before after}, Settles before after → reached before → reached after)
    {access : Access} (noted : access ∈ walk.accesses) {allocation : NodeId}
    (listed : allocation ∈ walk.resolveAliases.aliases access.base)
    (reaches : ∀ later, Settles walk.resolveAliases later →
      reached (useOnce access later allocation)) : reached walk.settle := by
  apply kept (sound.settles_accessed.trans settles_applied)
  rw [applyAccesses, ← Array.foldl_toList]
  refine Settles.foldl_of_mem (fun access _ walk => settles_applyAccess walk access) kept
    (Array.mem_toList_iff.2 noted) fun middle before => ?_
  have still : allocation ∈ middle.aliases access.base := by
    rwa [before.aliases_eq]
  exact Settles.foldl_of_mem (fun other _ walk => settles_useOnce access walk other) kept still
    fun later settles => reaches later (before.trans settles)

omit sound in
/-- Values that were known when aliases were resolved can be joined later on. -/
theorem joined_addEdge {later : Walk} (settles : Settles walk.resolveAliases later) {edge : Edge}
    {source target : NodeKind} (knownSource : walk.kind? edge.source = some source)
    (knownTarget : walk.kind? edge.target = some target) :
    edge ∈ (later.graph.values.addEdge edge).edges := by
  rw [← kind?_resolveAliases, ← settles.kind?_eq] at knownSource knownTarget
  exact ValueGraph.addEdge_mem (Walker.kind?_lt knownSource) (Walker.kind?_lt knownTarget)

/-- Every access has become a use of everything that its base may denote. -/
theorem Sound.joined_access {access : Access} {allocation : NodeId} (noted : access ∈ walk.accesses)
    (listed : allocation ∈ walk.resolveAliases.aliases access.base) :
    Joined ⟨allocation, access.node, .defUse⟩ walk.settle := by
  rcases sound.access_known access noted with ⟨kind, target, -⟩
  apply sound.settle_of_access Joined.last noted listed
  exact fun later settles => joined_addEdge settles (sound.kind?_of_mem_aliases listed) target

/-- The field of an access is used of everything that its base may denote. -/
theorem Sound.usesField_settle {access : Access} {allocation : NodeId} {field : String}
    (noted : access ∈ walk.accesses) (listed : allocation ∈ walk.resolveAliases.aliases access.base)
    (known : allocation ∈ walk.records.keys) (fieldEq : access.field = some field) :
    UsesField allocation field walk.settle := by
  apply sound.settle_of_access UsesField.last noted listed
  exact fun later settles => usesField_useOnce (settles.keys_eq ▸ known) fieldEq

omit sound in
/-- Raising a state adds no edges. -/
theorem edges_escalate (walk : Walk) (reason : EscapeReason) (position : Option Position)
    (allocation : NodeId) :
    (walk.escalate reason position allocation).graph.values.edges = walk.graph.values.edges := by
  rw [escalate]
  split
  next => rfl
  next =>
    dsimp only
    split
    next => rfl
    next => rfl

/-- Every sink has become an edge from everything that its value may denote. -/
theorem Sound.joined_sink {sink : Sink} {allocation : NodeId} (noted : sink ∈ walk.sinks)
    (listed : allocation ∈ walk.resolveAliases.aliases sink.value) {kind : NodeKind}
    (target : walk.kind? sink.target = some kind) :
    Joined ⟨allocation, sink.target, sink.kind⟩ walk.settle := by
  apply sound.settle_of_sink Joined.last noted listed
  intro later settles
  rw [Joined, sinkOnce, edges_escalate]
  exact joined_addEdge settles (sound.kind?_of_mem_aliases listed) target

/-- Everything that the value of a sink may denote has escaped once a walk is settled. -/
theorem Sound.escapes_settle {sink : Sink} {allocation : NodeId} (noted : sink ∈ walk.sinks)
    (listed : allocation ∈ walk.resolveAliases.aliases sink.value)
    (known : allocation ∈ walk.records.keys) : Escapes allocation walk.settle := by
  apply sound.settle_of_sink Escapes.last noted listed
  exact fun later settles => escapes_sinkOnce (settles.keys_eq ▸ known)

/-- What truncated scopes reach: what they make, and what their variables denote. -/
theorem Sound.mem_truncatedReach {id : NodeId} : id ∈ walk.applySinks.truncatedReach ↔
    (∃ scope ∈ walk.truncated, (id, scope) ∈ walk.sites) ∨
      ∃ mention ∈ walk.mentions, mention.2.scope ∈ walk.truncated ∧
        id ∈ walk.resolveAliases.aliases mention.1 := by
  have settles := sound.settles_sunk
  have truncatedEq : walk.applySinks.truncated = walk.truncated := settles.truncated_eq
  have sitesEq : walk.applySinks.sites = walk.sites := settles.sites_eq
  have mentionsEq : walk.applySinks.mentions = walk.mentions := settles.mentions_eq
  have points {mention : NodeId × VarKey} (noted : mention ∈ walk.mentions) :
      walk.applySinks.graph.values.pointsTo mention.1 = walk.resolveAliases.aliases mention.1 := by
    rcases sound.mention_known mention noted with ⟨kind, known, variable_⟩
    have other : ¬ walk.applySinks.graph.values.isAllocation mention.1 = true := by
      rw [ValueGraph.isAllocation, decide_eq_true_eq]
      show walk.applySinks.kind? mention.1 ≠ _
      rw [settles.kind?_eq, kind?_resolveAliases, known]
      rintro same
      cases same
      contradiction
    rw [← settles.aliases_eq, aliases, if_neg other]
  have allocated (reached : (∃ scope ∈ walk.truncated, (id, scope) ∈ walk.sites) ∨
      ∃ mention ∈ walk.mentions, mention.2.scope ∈ walk.truncated ∧
        id ∈ walk.resolveAliases.aliases mention.1) :
      id < walk.applySinks.graph.values.size := by
    have kind : walk.kind? id = some .allocation := by
      rcases reached with ⟨scope, -, site⟩ | ⟨mention, -, -, listed⟩
      · exact sound.site_known _ site
      · exact sound.kind?_of_mem_aliases listed
    rw [← kind?_resolveAliases, ← settles.kind?_eq] at kind
    exact Walker.kind?_lt kind
  rw [truncatedReach, List.mem_filter, List.mem_range, Bool.or_eq_true, List.contains_iff_mem,
    List.contains_iff_mem, List.mem_map, List.mem_flatMap, truncatedEq, sitesEq, mentionsEq]
  simp only [List.mem_filter, Array.mem_toList_iff, List.contains_iff_mem]
  constructor
  · rintro ⟨-, ⟨⟨_, scope⟩, ⟨site, cut⟩, rfl⟩ | ⟨mention, ⟨noted, cut⟩, listed⟩⟩
    · exact .inl ⟨scope, cut, site⟩
    · exact .inr ⟨mention, noted, cut, points noted ▸ listed⟩
  · intro reached
    refine ⟨allocated reached, reached.imp ?_ ?_⟩
    · rintro ⟨scope, cut, site⟩
      exact ⟨(id, scope), ⟨site, cut⟩, rfl⟩
    · rintro ⟨mention, noted, cut, listed⟩
      exact ⟨mention, ⟨noted, cut⟩, points noted ▸ listed⟩

/-- Everything that a scope makes in which the tree is cut off has escaped. -/
theorem Sound.escapes_truncated {allocation : NodeId} {scope : Nat}
    (site : (allocation, scope) ∈ walk.sites) (cut : scope ∈ walk.truncated) :
    Escapes allocation walk.settle := by
  have settles := sound.settles_sunk
  have keys : allocation ∈ walk.applySinks.records.keys := by
    rw [settles.keys_eq]
    exact sound.known_of_site site
  have some_ : ¬ walk.applySinks.truncated.isEmpty = true := by
    have truncatedEq : walk.applySinks.truncated = walk.truncated := settles.truncated_eq
    rw [truncatedEq, List.isEmpty_iff]
    exact List.ne_nil_of_mem cut
  rw [settle_eq, escalateTruncated, if_neg some_]
  refine Settles.foldl_of_mem (fun allocation _ walk => settles_escalate walk _ _ allocation)
    Escapes.last (sound.mem_truncatedReach.2 (.inl ⟨scope, cut, site⟩)) fun later settles => ?_
  exact escapes_escalate (settles.keys_eq ▸ keys) _ _

/-! ## What settling leaves -/

omit sound in
theorem edges_escalateTruncated (walk : Walk) :
    walk.escalateTruncated.graph.values.edges = walk.graph.values.edges := by
  have raised (items : List NodeId) (walk : Walk) :
      (items.foldl (escalate · .passedToUnknown none) walk).graph.values.edges =
        walk.graph.values.edges := by
    induction items generalizing walk with
    | nil => rfl
    | cons first rest inductionHypothesis =>
        rw [List.foldl_cons, inductionHypothesis, edges_escalate]
  rw [escalateTruncated]
  split
  next => rfl
  next => exact raised _ walk

omit sound in
theorem of_mem_edges_applyAccess {access : Access} {edge : Edge} {walk : Walk}
    (listed : edge ∈ (walk.applyAccess access).graph.values.edges) :
    edge ∈ walk.graph.values.edges ∨
      ∃ allocation ∈ walk.aliases access.base, edge = ⟨allocation, access.node, .defUse⟩ := by
  apply @Settles.of_foldl NodeId (useOnce access) (edge ∈ ·.graph.values.edges)
    (edge = ⟨·, access.node, .defUse⟩) _ _ (fun other _ walk => settles_useOnce access walk other)
    _ listed
  intro allocation _ later _ added
  exact (ValueGraph.mem_of_mem_addEdge added).imp_right And.left

omit sound in
theorem of_mem_edges_applySink {sink : Sink} (use : sink.kind ≠ .pointsTo) {edge : Edge}
    {walk : Walk} (listed : edge ∈ (walk.applySink sink).graph.values.edges) :
    edge ∈ walk.graph.values.edges ∨
      ∃ allocation ∈ walk.aliases sink.value, edge = ⟨allocation, sink.target, sink.kind⟩ := by
  apply @Settles.of_foldl NodeId (sinkOnce sink) (edge ∈ ·.graph.values.edges)
    (edge = ⟨·, sink.target, sink.kind⟩) _ _ (fun other _ walk => settles_sinkOnce use walk other)
    _ listed
  intro allocation _ later _ added
  rw [sinkOnce, edges_escalate] at added
  exact (ValueGraph.mem_of_mem_addEdge added).imp_right And.left

/-- The edges that settling adds come from what the bases of accesses and the values of sinks may
denote. -/
theorem Sound.of_mem_edges_settle {edge : Edge} (listed : edge ∈ walk.settle.graph.values.edges) :
    edge ∈ walk.resolveAliases.graph.values.edges ∨
      (∃ access ∈ walk.accesses, ∃ allocation ∈ walk.resolveAliases.aliases access.base,
        edge = ⟨allocation, access.node, .defUse⟩) ∨
      ∃ sink ∈ walk.sinks, ∃ allocation ∈ walk.resolveAliases.aliases sink.value,
        edge = ⟨allocation, sink.target, sink.kind⟩ := by
  have uses : ∀ sink ∈ walk.sinks.toList, sink.kind ≠ .pointsTo := fun sink member =>
    (sound.sink_known sink (Array.mem_toList_iff.1 member)).1
  have sunk := @Settles.of_foldl Sink applySink (edge ∈ ·.graph.values.edges)
    (fun sink => ∃ allocation ∈ walk.resolveAliases.aliases sink.value,
      edge = ⟨allocation, sink.target, sink.kind⟩) walk.sinks.toList walk.applyAccesses
    (fun sink member => settles_applySink (uses sink member)) ?_ ?_
  · have accessed := @Settles.of_foldl Access applyAccess (edge ∈ ·.graph.values.edges)
      (fun access => ∃ allocation ∈ walk.resolveAliases.aliases access.base,
        edge = ⟨allocation, access.node, .defUse⟩) walk.accesses.toList walk.resolveAliases
      (fun access _ walk => settles_applyAccess walk access) ?_
    · rcases sunk with before | ⟨sink, member, found⟩
      · rw [applyAccesses, ← Array.foldl_toList] at before
        rcases accessed before with old | ⟨access, member, found⟩
        · exact .inl old
        · exact .inr (.inl ⟨access, Array.mem_toList_iff.1 member, found⟩)
      · exact .inr (.inr ⟨sink, Array.mem_toList_iff.1 member, found⟩)
    · intro access _ later settles added
      rw [← settles.aliases_eq]
      exact of_mem_edges_applyAccess added
  · intro sink member later settles added
    rw [← (settles_resolved walk).aliases_eq, ← settles.aliases_eq]
    exact of_mem_edges_applySink (uses sink member) added
  · rw [settle_eq, edges_escalateTruncated, applySinks, ← Array.foldl_toList] at listed
    exact listed

omit sound in
/-- An access adds nothing to a record but the field that is accessed. -/
theorem of_find?_useOnce {access : Access} {allocation id : NodeId} {later : EscapeRecord}
    {walk : Walk} (found : (useOnce access walk allocation).records.find? id = some later) :
    ∃ record, walk.records.find? id = some record ∧ later.state = record.state ∧
      later.trail = record.trail ∧
      ∀ field, later.Uses field → record.Uses field ∨ id = allocation ∧ access.field = some field := by
  cases fieldEq : access.field with
  | none =>
      rw [useOnce, fieldEq] at found
      exact ⟨later, found, rfl, rfl, fun field uses => .inl uses⟩
  | some name =>
      rw [useOnce, fieldEq] at found
      have modified : (walk.records.modify allocation
          (·.recordField name access.type)).find? id = some later := found
      rw [Table.find?_modify] at modified
      rcases Option.map_eq_some_iff.1 modified with ⟨record, foundRecord, rfl⟩
      refine ⟨record, foundRecord, ?_⟩
      split
      next same =>
        refine ⟨rfl, rfl, fun field uses => ?_⟩
        rcases EscapeRecord.uses_recordField.1 uses with old | rfl
        · exact .inl old
        · exact .inr ⟨same, rfl⟩
      next => exact ⟨rfl, rfl, fun field uses => .inl uses⟩

omit sound in
/-- Only the allocation that escapes gets another record, and its fields stay what they are. -/
theorem of_find?_escalate {walk : Walk} {reason : EscapeReason} {position : Option Position}
    {allocation id : NodeId} {later : EscapeRecord}
    (found : (walk.escalate reason position allocation).records.find? id = some later) :
    ∃ record, walk.records.find? id = some record ∧ later.fields = record.fields ∧
      (later = record ∨ id = allocation) := by
  cases foundRecord : walk.records.find? allocation with
  | none =>
      rw [escalate, foundRecord] at found
      exact ⟨later, found, rfl, .inl rfl⟩
  | some record =>
      rw [escalate_of_found foundRecord] at found
      split at found
      next => exact ⟨later, found, rfl, .inl rfl⟩
      next =>
        rw [withRecord, Table.find?_insert] at found
        split at found
        next same =>
          cases found
          refine ⟨record, same ▸ foundRecord, ?_, .inr same⟩
          rw [EscapeRecord.escalate]
          split
          next => rfl
          next => rfl
        next => exact ⟨later, found, rfl, .inl rfl⟩

omit sound in
theorem of_find?_sinkOnce {walk : Walk} {sink : Sink} {allocation id : NodeId}
    {later : EscapeRecord} (found : (sinkOnce sink walk allocation).records.find? id = some later) :
    ∃ record, walk.records.find? id = some record ∧ later.fields = record.fields ∧
      (later = record ∨ id = allocation) :=
  @of_find?_escalate { walk with
    graph := { walk.graph with
      values := walk.graph.values.addEdge ⟨allocation, sink.target, sink.kind⟩ } }
    sink.reason sink.position allocation id later found

/-- A field is used only if it is accessed. -/
theorem Sound.of_usesField_settle {id : NodeId} {field : String}
    (uses : UsesField id field walk.settle) :
    ∃ access ∈ walk.accesses, access.field = some field ∧
      id ∈ walk.resolveAliases.aliases access.base := by
  have unsunk : UsesField id field walk.applySinks := by
    rw [settle_eq, escalateTruncated] at uses
    split at uses
    next => exact uses
    next =>
      refine @of_foldl_of_back NodeId (escalate · .passedToUnknown none) _ ?_ _ _ uses
      rintro allocation before ⟨later, found, uses⟩
      rcases of_find?_escalate found with ⟨record, foundRecord, fields, -⟩
      exact ⟨record, foundRecord, by rwa [EscapeRecord.Uses, ← fields]⟩
  have accessed : UsesField id field walk.applyAccesses := by
    rw [applySinks, ← Array.foldl_toList] at unsunk
    refine of_foldl_of_back (fun sink before later => ?_) unsunk
    refine @of_foldl_of_back NodeId (sinkOnce sink) (UsesField id field) ?_ _ before later
    rintro allocation before ⟨later, found, uses⟩
    rcases of_find?_sinkOnce found with ⟨record, foundRecord, fields, -⟩
    exact ⟨record, foundRecord, by rwa [EscapeRecord.Uses, ← fields]⟩
  rw [applyAccesses, ← Array.foldl_toList] at accessed
  have start : ¬ UsesField id field walk.resolveAliases := by
    rintro ⟨record, found, uses⟩
    have none : record.fields = [] := (sound.record_new id record found).2.2.2
    rw [EscapeRecord.Uses, none] at uses
    contradiction
  have back : ∀ access ∈ walk.accesses.toList, ∀ later, Settles walk.resolveAliases later →
      UsesField id field (later.applyAccess access) → UsesField id field later ∨
        access.field = some field ∧ id ∈ walk.resolveAliases.aliases access.base := by
    intro access _ later settles uses
    rw [← settles.aliases_eq]
    refine (@Settles.of_foldl NodeId (useOnce access) (UsesField id field)
      (fun allocation => id = allocation ∧ access.field = some field) _ later
      (fun allocation _ walk => settles_useOnce access walk allocation) ?_ uses).imp_right ?_
    · rintro allocation _ before _ ⟨record, found, uses⟩
      rcases of_find?_useOnce found with ⟨old, foundOld, -, -, fields⟩
      exact (fields field uses).imp_left fun uses => ⟨old, foundOld, uses⟩
    · rintro ⟨allocation, member, rfl, fieldEq⟩
      exact ⟨fieldEq, member⟩
  rcases Settles.of_foldl (fun access _ walk => settles_applyAccess walk access) back accessed with
    never | ⟨access, member, fieldEq, listed⟩
  · exact absurd never start
  · exact ⟨access, Array.mem_toList_iff.1 member, fieldEq, listed⟩

/-- An allocation rises only through a sink. -/
theorem Sound.of_risen_applySinks {id : NodeId} (risen : Risen id walk.applySinks) :
    ∃ sink ∈ walk.sinks, id ∈ walk.resolveAliases.aliases sink.value := by
  have start : ¬ Risen id walk.applyAccesses := by
    intro risen
    rw [applyAccesses, ← Array.foldl_toList] at risen
    have never : Risen id walk.resolveAliases := by
      refine of_foldl_of_back (fun access before later => ?_) risen
      refine @of_foldl_of_back NodeId (useOnce access) (Risen id) ?_ _ before later
      rintro allocation between ⟨record, found, other⟩
      rcases of_find?_useOnce found with ⟨old, foundOld, state, trail, -⟩
      exact ⟨old, foundOld, by rwa [← state, ← trail]⟩
    rcases never with ⟨record, found, other⟩
    rcases sound.record_new id record found with ⟨-, state, trail, -⟩
    exact other ⟨state, trail⟩
  have back : ∀ sink ∈ walk.sinks.toList, ∀ later, Settles walk.applyAccesses later →
      Risen id (later.applySink sink) → Risen id later ∨
        id ∈ walk.resolveAliases.aliases sink.value := by
    intro sink member later settles risen
    have use := (sound.sink_known sink (Array.mem_toList_iff.1 member)).1
    rw [← ((settles_resolved walk).trans settles).aliases_eq]
    refine (@Settles.of_foldl NodeId (sinkOnce sink) (Risen id) (id = ·) _ later
      (fun allocation _ walk => settles_sinkOnce use walk allocation) ?_ risen).imp_right ?_
    · rintro allocation _ before _ ⟨record, found, other⟩
      rcases of_find?_sinkOnce found with ⟨old, foundOld, -, rfl | same⟩
      · exact .inl ⟨record, foundOld, other⟩
      · exact .inr same
    · rintro ⟨allocation, listed, rfl⟩
      exact listed
  have steps : ∀ sink ∈ walk.sinks.toList, ∀ walk, Settles walk (walk.applySink sink) :=
    fun sink member => settles_applySink (sound.sink_known sink (Array.mem_toList_iff.1 member)).1
  rw [applySinks, ← Array.foldl_toList] at risen
  rcases Settles.of_foldl steps back risen with never | ⟨sink, member, listed⟩
  · exact absurd never start
  · exact ⟨sink, Array.mem_toList_iff.1 member, listed⟩

/-- What meets no sink stays as it began. -/
theorem Sound.kept_of_unsunk {id : NodeId} (known : id ∈ walk.records.keys)
    (unsunk : ∀ sink ∈ walk.sinks, id ∉ walk.resolveAliases.aliases sink.value) :
    ∃ record, walk.applySinks.records.find? id = some record ∧ record.state = .noEscape ∧
      record.trail = [] := by
  have still : ¬ Risen id walk.applySinks := by
    intro risen
    rcases sound.of_risen_applySinks risen with ⟨sink, noted, listed⟩
    exact unsunk sink noted listed
  have keysEq : walk.applySinks.records.keys = walk.records.keys := sound.settles_sunk.keys_eq
  rw [← keysEq] at known
  rcases Table.mem_keys_iff.1 known with ⟨record, found⟩
  refine ⟨record, found, ?_⟩
  by_contra risen
  exact still ⟨record, found, risen⟩

end Walk

end EscapePlan
