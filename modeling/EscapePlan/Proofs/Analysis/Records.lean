import EscapePlan.Proofs.Analysis.Completion

/-!
# What becomes of a record

Settling a walk goes over everything that has been noted, but for one record only what concerns its
own node counts: `Walk.settledRecord` says what becomes of it.  Afterwards the record is raised to the state of
its node and judged.
-/

namespace EscapePlan

namespace EscapeRecord

/-- Notes an access to the object of a record. -/
def access (record : EscapeRecord) (access : Access) : EscapeRecord :=
  match access.field with
  | none => record
  | some field => record.recordField field access.type

/-- Lets the object of a record escape through a sink. -/
def sink (record : EscapeRecord) (sink : Sink) : EscapeRecord :=
  record.escalate .globalEscape sink.reason sink.position

/-- A field with its type, if it was not known before. -/
def typed (name : String) (type : ValueType) (field : ScalarField) : ScalarField :=
  if field.name = name ∧ field.type = .unknown then { field with type } else field

theorem addField_of_known {name : String} {fields : List ScalarField}
    (known : name ∈ fields.map (·.name)) (type : ValueType) :
    addField name type fields = fields.map (typed name type) := by
  rw [addField, if_pos (by simpa using known)]
  rfl

theorem addField_of_unknown {name : String} {fields : List ScalarField}
    (unknown : name ∉ fields.map (·.name)) (type : ValueType) :
    addField name type fields = fields ++ [.ofPlace name type fields.length] := by
  rw [addField, if_neg (by simpa using unknown)]

theorem map_typed_of_unknown {name : String} {fields : List ScalarField}
    (unknown : name ∉ fields.map (·.name)) (type : ValueType) :
    fields.map (typed name type) = fields := by
  refine (List.map_congr_left fun field member => ?_).trans fields.map_id
  rw [typed, if_neg]
  · rfl
  · rintro ⟨rfl, -⟩
    exact unknown (List.mem_map_of_mem member)

/-- Using a field again changes nothing. -/
theorem addField_addField (name : String) (type : ValueType) (fields : List ScalarField) :
    addField name type (addField name type fields) = addField name type fields := by
  have still : name ∈ (addField name type fields).map (·.name) := mem_names_addField.2 (.inr rfl)
  rw [addField_of_known still]
  by_cases known : name ∈ fields.map (·.name)
  · rw [addField_of_known known, List.map_map]
    refine List.map_congr_left fun field _ => ?_
    rw [Function.comp_apply]
    by_cases same : field.name = name ∧ field.type = .unknown <;> simp [typed, same]
  · rw [addField_of_unknown known, List.map_append, map_typed_of_unknown known]
    simp [typed, ScalarField.ofPlace]

theorem access_access (record : EscapeRecord) (access : Access) :
    (record.access access).access access = record.access access := by
  cases field : access.field with
  | none => simp [EscapeRecord.access, field]
  | some name => simp [EscapeRecord.access, field, recordField, addField_addField]

/-- What has escaped for good escapes no further. -/
theorem escalate_escalate (record : EscapeRecord) (reason : EscapeReason)
    (position : Option Position) :
    (record.escalate .globalEscape reason position).escalate .globalEscape reason position =
      record.escalate .globalEscape reason position := by
  have merged : EscapeState.globalEscape.merge .globalEscape = .globalEscape := rfl
  have state := record.state_escalate_globalEscape reason position
  generalize record.escalate .globalEscape reason position = raised at state
  rw [escalate, state, merged, if_pos rfl]

end EscapeRecord

/-! ## One record in a run -/

/-- What a run does to one entry of a table, if each step changes the entry of its own item only and
changing an entry again has no effect. -/
theorem find?_foldl {σ α : Type} {look : σ → Option α} {step : σ → NodeId → σ} {change : α → α}
    {id : NodeId} (again : ∀ entry, change (change entry) = change entry)
    (each : ∀ state item,
      look (step state item) = (look state).map fun entry => if id = item then change entry else entry)
    (items : List NodeId) (start : σ) :
    look (items.foldl step start) =
      (look start).map fun entry => if id ∈ items then change entry else entry := by
  induction items generalizing start with
  | nil => simp
  | cons item rest inductionHypothesis =>
      rw [List.foldl_cons, inductionHypothesis, each, Option.map_map]
      congr 1
      funext entry
      by_cases same : id = item <;> by_cases later : id ∈ rest <;>
        simp [same, later, again]

namespace Walk

variable {walk : Walk} {id : NodeId}

theorem find?_useOnce (access : Access) (walk : Walk) (allocation : NodeId) :
    (useOnce access walk allocation).records.find? id =
      (walk.records.find? id).map fun record =>
        if id = allocation then record.access access else record := by
  rw [useOnce]
  cases field : access.field with
  | none => simp [EscapeRecord.access, field]
  | some name =>
      simp only [EscapeRecord.access, field]
      exact Table.find?_modify _ _ _ _

theorem find?_applyAccess (walk : Walk) (access : Access) :
    (walk.applyAccess access).records.find? id = (walk.records.find? id).map fun record =>
      if id ∈ walk.aliases access.base then record.access access else record :=
  @find?_foldl _ _ (fun walk : Walk => walk.records.find? id) (useOnce access) _ id
    (EscapeRecord.access_access · access) (find?_useOnce access) _ walk

theorem find?_escalate (walk : Walk) (reason : EscapeReason) (position : Option Position)
    (allocation : NodeId) :
    (walk.escalate reason position allocation).records.find? id =
      (walk.records.find? id).map fun record =>
        if id = allocation then record.escalate .globalEscape reason position else record := by
  cases found : walk.records.find? allocation with
  | none =>
      rw [escalate, found]
      by_cases same : id = allocation
      · rw [same, found]
        rfl
      · simp [same]
  | some record =>
      rw [escalate_of_found found]
      by_cases same : id = allocation
      · subst same
        split
        next unchanged =>
          rw [found, Option.map_some, if_pos rfl]
          rw [EscapeRecord.escalate] at unchanged ⊢
          grind
        next =>
          rw [withRecord, Table.find?_insert, if_pos rfl, found, Option.map_some, if_pos rfl]
      · split
        next => simp
        next =>
          rw [withRecord, Table.find?_insert, if_neg same]
          simp

theorem find?_sinkOnce (sink : Sink) (walk : Walk) (allocation : NodeId) :
    (sinkOnce sink walk allocation).records.find? id = (walk.records.find? id).map fun record =>
      if id = allocation then record.sink sink else record :=
  find?_escalate { walk with
    graph := { walk.graph with
      values := walk.graph.values.addEdge ⟨allocation, sink.target, sink.kind⟩ } } _ _ _

theorem find?_applySink (walk : Walk) (sink : Sink) :
    (walk.applySink sink).records.find? id = (walk.records.find? id).map fun record =>
      if id ∈ walk.aliases sink.value then record.sink sink else record :=
  @find?_foldl _ _ (fun walk : Walk => walk.records.find? id) (sinkOnce sink) _ id
    (fun record => record.escalate_escalate sink.reason sink.position) (find?_sinkOnce sink) _ walk

/-! ## Settled records -/

/-- The record of a node once all accesses to it have been noted. -/
def accessedRecord (walk : Walk) (id : NodeId) (record : EscapeRecord) : EscapeRecord :=
  walk.accesses.toList.foldl (fun record access =>
    if id ∈ walk.resolveAliases.aliases access.base then record.access access else record) record

/-- The record of a node once it has met its sinks, too. -/
def sunkRecord (walk : Walk) (id : NodeId) (record : EscapeRecord) : EscapeRecord :=
  walk.sinks.toList.foldl (fun record sink =>
    if id ∈ walk.resolveAliases.aliases sink.value then record.sink sink else record)
    (walk.accessedRecord id record)

/-- The record of a node once its walk is settled. -/
def settledRecord (walk : Walk) (id : NodeId) (record : EscapeRecord) : EscapeRecord :=
  if id ∈ walk.applySinks.truncatedReach then
    (walk.sunkRecord id record).escalate .globalEscape .passedToUnknown none
  else walk.sunkRecord id record

/-- What a run over notes does to one record, if aliases stay what they are. -/
theorem find?_foldl_of_settles {α : Type} {step : Walk → α → Walk} {value : α → NodeId}
    {change : EscapeRecord → α → EscapeRecord} {items : List α} {start : Walk}
    (steps : ∀ item ∈ items, ∀ walk, Settles walk (step walk item))
    (each : ∀ walk item, (step walk item).records.find? id =
      (walk.records.find? id).map fun record =>
        if id ∈ walk.aliases (value item) then change record item else record)
    (resolved : Settles walk.resolveAliases start) :
    (items.foldl step start).records.find? id = (start.records.find? id).map fun record =>
      items.foldl (fun record item =>
        if id ∈ walk.resolveAliases.aliases (value item) then change record item else record)
        record := by
  induction items generalizing start with
  | nil => simp
  | cons item rest inductionHypothesis =>
      rcases List.forall_mem_cons.1 steps with ⟨first, later⟩
      rw [List.foldl_cons, inductionHypothesis later (resolved.trans (first start)), each,
        resolved.aliases_eq, Option.map_map]
      rfl

theorem find?_applyAccesses :
    walk.applyAccesses.records.find? id =
      (walk.records.find? id).map (walk.accessedRecord id) := by
  rw [applyAccesses, ← Array.foldl_toList]
  exact find?_foldl_of_settles (fun access _ walk => settles_applyAccess walk access)
    find?_applyAccess (.refl _)

variable (sound : walk.Sound)
include sound

theorem Sound.find?_applySinks :
    walk.applySinks.records.find? id = (walk.records.find? id).map (walk.sunkRecord id) := by
  have use : ∀ sink ∈ walk.sinks.toList, ∀ walk, Settles walk (walk.applySink sink) :=
    fun sink noted => settles_applySink (sound.sink_known sink (Array.mem_toList_iff.1 noted)).1
  rw [applySinks, ← Array.foldl_toList]
  refine (find?_foldl_of_settles use find?_applySink (settles_resolved walk)).trans ?_
  rw [find?_applyAccesses, Option.map_map]
  rfl

/-- What becomes of a record when a walk is settled. -/
theorem Sound.find?_settle :
    walk.settle.records.find? id = (walk.records.find? id).map (walk.settledRecord id) := by
  have sunk := @Sound.find?_applySinks walk id sound
  have reached := @find?_foldl _ _ (fun walk : Walk => walk.records.find? id)
    (fun walk => walk.escalate .passedToUnknown none) _ id
    (fun record => record.escalate_escalate .passedToUnknown none)
    (fun walk => find?_escalate walk .passedToUnknown none)
    walk.applySinks.truncatedReach walk.applySinks
  rw [settle_eq, escalateTruncated]
  split
  next empty =>
    have never : id ∉ walk.applySinks.truncatedReach := by
      rw [List.isEmpty_iff] at empty
      simp [truncatedReach, empty]
    rw [sunk]
    congr 1
    funext record
    rw [settledRecord, if_neg never]
  next =>
    rw [reached, sunk, Option.map_map]
    rfl

end Walk

/-! ## Final records -/

/-- A record after propagation, in a final graph. -/
def Analysis.finalRecord (config : Config) (graph : ValueGraph) (record : EscapeRecord) :
    EscapeRecord :=
  let raised := Propagation.raise config.unknownIsBottom graph record
  { raised with
    canScalarReplace := config.enableScalarReplacement && raised.state = .noEscape &&
      !raised.fields.isEmpty && usedByFieldsOnly graph raised.node }

/-- What becomes of a record in the end. -/
theorem Analysis.find?_ofWalk_eq (config : Config) (walk : Walk) (id : NodeId) :
    (ofWalk config walk).records.find? id =
      (walk.records.find? id).map (finalRecord config (ofWalk config walk).graph.values) := by
  rw [records_ofWalk, judgeRecords, Table.find?_map, Table.find?_map, Option.map_map]
  rfl

end EscapePlan
