import EscapePlan.Proofs.Analysis.Records
import EscapePlan.Proofs.Isolation.Outsets
import EscapePlan.Proofs.Placement.Frame
import EscapePlan.Proofs.Placement.Replacement

/-!
# How frame, plans, summaries and figures agree

The frame, the plans for scalar replacement, the summaries and the figures of a placement are
worked out separately from the same records.  They agree on every tree and under every
configuration for which there is a placement: there is none exactly if the sizes on a frame of the
largest size cannot be added up.
-/

namespace EscapePlan

/-- Items with a value correspond to their values in order. -/
theorem forall₂_filterMap {α β : Type} {value? : α → Option β} {related : α → β → Prop}
    {items : List α} (each : ∀ item ∈ items, ∃ value, value? item = some value ∧ related item value) :
    List.Forall₂ related items (items.filterMap value?) := by
  induction items with
  | nil => exact .nil
  | cons item rest inductionHypothesis =>
      obtain ⟨first, others⟩ := List.forall_mem_cons.1 each
      obtain ⟨value, found, holds⟩ := first
      rw [List.filterMap_cons_some found]
      exact .cons holds (inductionHypothesis others)

/-- Selections from lists that correspond have the same figures. -/
theorem map_filter_eq_of_forall₂ {α β γ : Type} {related : α → β → Prop} {items : List α}
    {others : List β} (all : List.Forall₂ related items others) {select : α → Bool}
    {choose : β → Bool} {figure : α → γ} {amount : β → γ}
    (alike : ∀ item other, related item other →
      (select item = true ↔ choose other = true) ∧
        (select item = true → figure item = amount other)) :
    (items.filter select).map figure = (others.filter choose).map amount := by
  induction all with
  | nil => rfl
  | cons first _ inductionHypothesis =>
      obtain ⟨selected, same⟩ := alike _ _ first
      rw [List.filter_cons, List.filter_cons]
      split
      next chosen => simp [selected.1 chosen, same chosen, inductionHypothesis]
      next left => simp [mt selected.2 left, inductionHypothesis]

/-- Selections from lists that correspond are equally long. -/
theorem length_filter_eq_of_forall₂ {α β : Type} {related : α → β → Prop} {items : List α}
    {others : List β} (all : List.Forall₂ related items others) {select : α → Bool}
    {choose : β → Bool}
    (alike : ∀ item other, related item other → (select item = true ↔ choose other = true)) :
    (items.filter select).length = (others.filter choose).length := by
  have same := @map_filter_eq_of_forall₂ _ _ Unit related _ _ all select choose (fun _ => ())
    (fun _ => ()) fun item other holds => ⟨alike item other holds, fun _ => rfl⟩
  simpa using congrArg List.length same

namespace EscapeRecord

/-! ## What a record keeps -/

/-- The record as it was when nothing was known about its site. -/
def blank (record : EscapeRecord) : EscapeRecord :=
  { record with state := .noEscape, trail := [], canScalarReplace := false, fields := [] }

/-- A state that has risen has left a trace, and none is below the first. -/
structure Traced (record : EscapeRecord) : Prop where
  state_ne : record.state ≠ .unknown
  trail_eq_nil_iff : record.trail = [] ↔ record.state = .noEscape

variable {record : EscapeRecord}

@[simp] theorem blank_escalate (state : EscapeState) (reason : EscapeReason)
    (position : Option Position) : (record.escalate state reason position).blank = record.blank := by
  simp only [escalate]
  split <;> rfl

@[simp] theorem blank_access (access : Access) : (record.access access).blank = record.blank := by
  simp only [EscapeRecord.access]
  split <;> rfl

theorem Traced.access (traced : record.Traced) (access : Access) : (record.access access).Traced := by
  simp only [EscapeRecord.access]
  split
  · exact traced
  · exact ⟨traced.state_ne, traced.trail_eq_nil_iff⟩

theorem Traced.escalate (traced : record.Traced) (reason : EscapeReason)
    (position : Option Position) : (record.escalate .globalEscape reason position).Traced := by
  have state := record.state_escalate_globalEscape reason position
  have trail : (record.escalate .globalEscape reason position).trail ≠ [] := by
    rw [EscapeRecord.escalate] at state ⊢
    split
    next unchanged =>
      rw [if_pos unchanged] at state
      simp [traced.trail_eq_nil_iff, state]
    next => simp
  exact ⟨by simp [state], by simp [state, trail]⟩

/-- What settling does to a record keeps whatever accesses and rises keep. -/
theorem of_settledRecord {kept : EscapeRecord → Prop} (start : kept record)
    (accesses : ∀ record access, kept record → kept (record.access access))
    (rises : ∀ record reason position, kept record →
      kept (record.escalate .globalEscape reason position)) (walk : Walk) (id : NodeId) :
    kept (walk.settledRecord id record) := by
  have accessed : kept (walk.accessedRecord id record) := by
    refine List.foldlRecOn (motive := kept) _ _ start fun record holds access _ => ?_
    split
    · exact accesses record access holds
    · exact holds
  have sunk : kept (walk.sunkRecord id record) := by
    refine List.foldlRecOn (motive := kept) _ _ accessed fun record holds sink _ => ?_
    split
    · exact rises record _ _ holds
    · exact holds
  rw [Walk.settledRecord]
  split
  · exact rises _ _ _ sunk
  · exact sunk

theorem blank_settledRecord (walk : Walk) (id : NodeId) :
    (walk.settledRecord id record).blank = record.blank :=
  @of_settledRecord record (fun later => later.blank = record.blank) rfl
    (fun _ access same => (blank_access access).trans same)
    (fun _ reason position same => (blank_escalate _ reason position).trans same) walk id

theorem Traced.settledRecord (traced : record.Traced) (walk : Walk) (id : NodeId) :
    (walk.settledRecord id record).Traced :=
  of_settledRecord traced (fun _ access traced => traced.access access)
    (fun _ reason position traced => traced.escalate reason position) walk id

end EscapeRecord

namespace Propagation

variable {unknownIsBottom : Bool} {graph : ValueGraph} {record : EscapeRecord}

theorem blank_raise : (raise unknownIsBottom graph record).blank = record.blank := by
  simp only [raise]
  split
  · rfl
  · split <;> rfl

/-- No state but the first is merged to the first. -/
theorem eq_noEscape_of_mergeWith {first second : EscapeState} (known : first ≠ .unknown)
    (merged : first.mergeWith unknownIsBottom second = .noEscape) : first = .noEscape := by
  revert known merged
  cases unknownIsBottom <;> cases first <;> cases second <;> decide

/-- A record that is raised still tells by its trail whether its state has risen. -/
theorem trail_raise_eq_nil_iff (traced : record.Traced) :
    (raise unknownIsBottom graph record).trail = [] ↔
      (raise unknownIsBottom graph record).state = .noEscape := by
  simp only [raise]
  split
  · exact traced.trail_eq_nil_iff
  next state found =>
    split
    next => exact traced.trail_eq_nil_iff
    next rises =>
      refine iff_of_false (by simp) fun merged => rises ?_
      exact merged.trans (eq_noEscape_of_mergeWith traced.state_ne merged).symm

end Propagation

namespace Analysis

/-- What an analysis tells about every site: its size is what the frame goes by, and its trail shows
whether it has risen. -/
structure Tells (config : Config) (record : EscapeRecord) : Prop where
  size_eq : StackLayout.sizeOf config record = record.size
  trail_eq_nil_iff : record.trail = [] ↔ record.state = .noEscape

theorem blank_finalRecord (config : Config) (graph : ValueGraph) (record : EscapeRecord) :
    (finalRecord config graph record).blank = record.blank :=
  @Propagation.blank_raise config.unknownIsBottom graph record

/-- A size that was not counted is the default of its type. -/
theorem sizeOf_siteRecord (config : Config) (node : NodeId) (objectType : ObjectType)
    (className : Option String) (position : Option Position) (count : Nat) :
    StackLayout.sizeOf config
        (Walker.siteRecord config node objectType className position count) =
      (Walker.siteRecord config node objectType className position count).size := by
  rw [Walker.siteRecord]
  split
  · simp [StackLayout.sizeOf, EscapeRecord.new]
  · simp [StackLayout.sizeOf, EscapeRecord.new]

theorem blank_siteRecord (config : Config) (node : NodeId) (objectType : ObjectType)
    (className : Option String) (position : Option Position) (count : Nat) :
    (Walker.siteRecord config node objectType className position count).blank =
      Walker.siteRecord config node objectType className position count := by
  rw [Walker.siteRecord]
  split <;> rfl

theorem traced_siteRecord (config : Config) (node : NodeId) (objectType : ObjectType)
    (className : Option String) (position : Option Position) (count : Nat) :
    (Walker.siteRecord config node objectType className position count).Traced := by
  obtain ⟨state, trail, -⟩ :=
    Walker.blank_siteRecord config node objectType className position count
  exact ⟨by simp [state], by simp [state, trail]⟩

/-- A final record is what the one of its site becomes when it is settled and judged. -/
theorem exists_start {config : Config} {tree : Tree} {record : EscapeRecord}
    (listed : record ∈ (ofTree config tree).records.values) :
    ∃ start, (Walk.ofTree config tree depthLimit).records.find? record.node = some start ∧
      record = finalRecord config (ofTree config tree).graph.values
        ((Walk.ofTree config tree depthLimit).settledRecord record.node start) := by
  have sound := (Walk.ofTree_accounts config tree depthLimit).sound
  obtain ⟨⟨id, record⟩, member, rfl⟩ := List.mem_map.1 listed
  have found := Table.find?_eq_some_iff.2 member
  obtain rfl := Placement.node_of_find? found
  rw [ofTree, find?_ofWalk_eq, sound.find?_settle, Option.map_map] at found
  obtain ⟨start, foundStart, same⟩ := Option.map_eq_some_iff.1 found
  exact ⟨start, foundStart, same.symm⟩

/-- Whatever becomes of the record of a site, its size stays, and every rise leaves a trace. -/
theorem tells_of_mem_values (config : Config) (tree : Tree) {record : EscapeRecord}
    (listed : record ∈ (ofTree config tree).records.values) : Tells config record := by
  have orderly := Walk.ofTree_orderly config tree depthLimit
  obtain ⟨start, found, same⟩ := exists_start listed
  generalize record.node = id at found same
  subst same
  obtain ⟨objectType, className, position, count, rfl⟩ := orderly.records id start found
  have traced := (traced_siteRecord config id objectType className position count).settledRecord
    (Walk.ofTree config tree depthLimit) id
  generalize siteEq : Walker.siteRecord config id objectType className position count = site at *
  refine ⟨?_, Propagation.trail_raise_eq_nil_iff traced⟩
  have blankEq := (blank_finalRecord config (ofTree config tree).graph.values
    ((Walk.ofTree config tree depthLimit).settledRecord id site)).trans
      (EscapeRecord.blank_settledRecord _ id)
  generalize finalRecord config _ _ = record at blankEq
  calc StackLayout.sizeOf config record
      = StackLayout.sizeOf config record.blank := rfl
    _ = site.blank.size := by rw [blankEq, ← siteEq, blank_siteRecord, sizeOf_siteRecord]
    _ = record.size := by rw [← blankEq]; rfl

end Analysis

namespace StackLayout

variable {config : Config} {layout : StackLayout} {record : EscapeRecord}
  {records : List EscapeRecord}

/-- What is decided about a record. -/
structure Decides (config : Config) (record : EscapeRecord) (decision : Decision) : Prop where
  node_eq : decision.node = record.node
  size_eq : decision.size = sizeOf config record
  slot_iff : decision.slot.isSome = true ↔ decision.location = .stack
  replaced_iff : decision.location = .scalarReplaced ↔ record.isScalarReplaceable = true

theorem decides_turn : Decides config record (turn config layout record) where
  node_eq := node_turn
  size_eq := size_turn
  slot_iff := by
    rw [slot_turn]
    split <;> simp_all
  replaced_iff := location_turn_eq_scalarReplaced_iff

/-- About every record there is a decision. -/
theorem exists_decides (placed : place? config records = some layout)
    (distinct : (records.map (·.node)).Nodup) (listed : record ∈ records) :
    ∃ decision, layout.decision? record.node = some decision ∧ Decides config record decision := by
  obtain ⟨before, found⟩ := exists_decision?_of_mem distinct listed placed
  exact ⟨_, found, decides_turn⟩

/-- Sites are counted by their decisions. -/
theorem count_of_place? (placed : place? config records = some layout)
    (distinct : (records.map (·.node)).Nodup) (location : Location) :
    layout.count location =
      ((layout.decisionsFor records).filter (·.location = location)).length :=
  ((filled_of_place? distinct placed).decisions_perm.filter _).length_eq

end StackLayout

namespace ScalarPlans

variable {config : Config} {plans : ScalarPlans} {record : EscapeRecord}
  {records : List EscapeRecord}

/-- The plans for records, in the order of the records. -/
def plansFor (plans : ScalarPlans) (records : List EscapeRecord) : List ReplacementPlan :=
  records.filterMap fun record => plans.plan? record.node

/-- How a record is planned to be replaced. -/
structure Plans (record : EscapeRecord) (plan : ReplacementPlan) : Prop where
  fields_eq : plan.mappings.map (fun mapping => (mapping.field, mapping.type)) =
    record.fields.map fun field => (field.name, field.type)
  bytesSaved_eq : plan.bytesSaved = record.size

/-- Objects are replaced one after the other, and no local variable stands for two fields. -/
structure Planned (records : List EscapeRecord) (plans : ScalarPlans) : Prop where
  plans_related : List.Forall₂ Plans records (plans.plansFor records)
  slots_eq : (plans.plansFor records).flatMap (fun plan => plan.mappings.map (·.slot)) =
    List.range plans.localCount
  bytesSaved_eq : plans.bytesSaved = (records.map (·.size.toNat)).sum
  size_eq : plans.plans.size = records.length

theorem slots_mapFields (first : LocalSlot) (fields : List ScalarField) :
    (mapFields first fields).map (·.slot) = List.range' first fields.length := by
  refine List.ext_getElem (by simp [mapFields]) fun place _ _ => ?_
  simp [mapFields]

theorem plans_mapFields (node : NodeId) (first : LocalSlot) (record : EscapeRecord) :
    Plans record ⟨node, mapFields first record.fields, true, record.size⟩ where
  fields_eq := by
    refine List.ext_getElem (by simp [mapFields]) fun place _ _ => ?_
    simp [mapFields]
  bytesSaved_eq := rfl

theorem plan?_foldl_eq_none {id : NodeId} (others : ∀ record ∈ records, id ≠ record.node) :
    (records.foldl planOne empty).plan? id = none :=
  look_foldlM_of_ne keeps_plan? others (foldlM_planOne records empty)

/-- The next object takes the next local variables. -/
theorem Planned.concat (planned : Planned records plans)
    (others : ∀ other ∈ records, other.node ≠ record.node)
    (absent : plans.plan? record.node = none) :
    Planned (records ++ [record]) (plans.planOne record) := by
  have before : (plans.planOne record).plansFor records = plans.plansFor records :=
    List.filterMap_congr fun other listed => plan?_planOne_of_ne (others other listed)
  have last : (plans.planOne record).plan? record.node =
      some ⟨record.node, mapFields plans.localCount record.fields, true, record.size⟩ := by
    rw [plan?, planOne, Table.find?_insert, if_pos rfl]
  have all : (plans.planOne record).plansFor (records ++ [record]) = plans.plansFor records ++
      [⟨record.node, mapFields plans.localCount record.fields, true, record.size⟩] := by
    rw [plansFor, List.filterMap_append, ← plansFor, before]
    simp [last]
  constructor
  · rw [all]
    exact List.rel_append planned.plans_related (.cons (plans_mapFields ..) .nil)
  · rw [all, List.flatMap_append, planned.slots_eq, List.flatMap_singleton, slots_mapFields,
      planOne, List.range_eq_range', List.range_eq_range']
    simpa using @List.range'_append_1 0 plans.localCount record.fields.length
  · simp [planOne, planned.bytesSaved_eq]
  · have counted := (@Table.values_insert_perm _ plans.plans record.node
      ⟨record.node, mapFields plans.localCount record.fields, true, record.size⟩ absent).length_eq
    simpa [planOne, Table.values, Table.size, ← planned.size_eq] using counted

theorem planned_foldl (distinct : (records.map (·.node)).Nodup) :
    Planned records (records.foldl planOne empty) := by
  induction records using List.reverseRecOn with
  | nil => exact ⟨.nil, rfl, rfl, rfl⟩
  | append_singleton earlier record inductionHypothesis =>
      rw [List.map_append, List.nodup_append] at distinct
      obtain ⟨distinctEarlier, -, apart⟩ := distinct
      have others : ∀ other ∈ earlier, other.node ≠ record.node := fun other listed =>
        apart _ (List.mem_map_of_mem listed) record.node (by simp)
      rw [List.foldl_concat]
      exact (inductionHypothesis distinctEarlier).concat others
        (plan?_foldl_eq_none fun other listed => (others other listed).symm)

theorem plan?_eq_none (distinct : (records.map (·.node)).Nodup) (listed : record ∈ records)
    (kept : record.isScalarReplaceable = false) : (plan records).plan? record.node = none := by
  refine plan?_foldl_eq_none fun other listedOther same => ?_
  obtain ⟨listedOther, replaceable⟩ := List.mem_filter.1 listedOther
  rw [List.inj_on_of_nodup_map distinct listed listedOther same, replaceable] at kept
  nomatch kept

theorem plansFor_filter (distinct : (records.map (·.node)).Nodup) :
    (plan records).plansFor (records.filter (·.isScalarReplaceable)) =
      (plan records).plansFor records := by
  rw [plansFor, plansFor, List.filterMap_filter]
  refine List.filterMap_congr fun record listed => ?_
  split
  next => rfl
  next kept => exact (plan?_eq_none distinct listed (by simpa using kept)).symm

end ScalarPlans

namespace Placement

/-! ## What is told about a site -/

/-- What the summary of a site says agrees with its record, the frame and the plans. -/
structure Summarizes (placement : Placement) (record : EscapeRecord) (summary : AllocationSummary) :
    Prop where
  node_eq : summary.node = record.node
  state_eq : summary.state = record.state
  reasons_eq : summary.reasons = record.reasons
  reasons_eq_nil_iff : summary.reasons = [] ↔ summary.state = .noEscape
  decided : placement.stack.decision? summary.node =
    some ⟨summary.node, summary.location, summary.slot, summary.size, summary.decision⟩
  replaceable_iff : summary.location = .scalarReplaced ↔ record.isScalarReplaceable = true
  planned_iff : summary.location = .scalarReplaced ↔
    (placement.scalar.plan? summary.node).isSome = true
  fields_iff : summary.location = .scalarReplaced ↔ summary.fields ≠ []
  slot_iff : summary.slot.isSome = true ↔ summary.location = .stack
  size_eq : summary.size = record.size
  /-- The plan maps the fields of the record in order and saves the size of the decision. -/
  plan : ∀ plan, placement.scalar.plan? summary.node = some plan →
    summary.fields = plan.mappings ∧
      plan.mappings.map (fun mapping => (mapping.field, mapping.type)) =
        record.fields.map (fun field => (field.name, field.type)) ∧
      plan.bytesSaved = summary.size

/-- Frame, plans, summaries and figures of a placement agree. -/
structure Agrees (analysis : Analysis) (placement : Placement) : Prop where
  nodup : (placement.allocations.map (·.node)).Nodup
  /-- There is a summary of every record, in the order of the records. -/
  summarizes : List.Forall₂ placement.Summarizes analysis.records.values placement.allocations
  /-- The plans take the local variables in order, each once. -/
  slots_eq : (placement.allocations.filterMap fun summary =>
      placement.scalar.plan? summary.node).flatMap (fun plan => plan.mappings.map (·.slot)) =
    List.range placement.scalar.localCount
  states_eq : placement.statistics.noEscape + placement.statistics.argEscape +
      placement.statistics.globalEscape + placement.statistics.unknown =
    placement.statistics.totalAllocations
  locations_eq : placement.statistics.stackAllocated + placement.statistics.scalarReplaced +
      placement.statistics.heapAllocated =
    placement.statistics.totalAllocations
  totalAllocations_eq : placement.statistics.totalAllocations = placement.allocations.length
  scalarReplaceable_eq : placement.statistics.scalarReplaceable =
    placement.statistics.scalarReplaced
  plans_size_eq : placement.scalar.plans.size = placement.statistics.scalarReplaced
  scalarBytesSaved_eq : placement.statistics.scalarBytesSaved =
    ((placement.allocations.filter (·.location = .scalarReplaced)).map (·.size.toNat)).sum
  stackBytes_eq : placement.statistics.stackBytes = placement.stack.stackSize

variable {config : Config} {analysis : Analysis} {placement : Placement} {stack : StackLayout}
  {record : EscapeRecord} {records : List EscapeRecord}

theorem fields_ne_nil_of_isScalarReplaceable (replaceable : record.isScalarReplaceable = true) :
    record.fields ≠ [] := by
  simp only [EscapeRecord.isScalarReplaceable, Bool.and_eq_true, Bool.not_eq_true',
    List.isEmpty_eq_false_iff] at replaceable
  exact replaceable.2

/-- Every record has a summary. -/
theorem exists_summarizes
    (placed : StackLayout.place? config analysis.records.values = some stack)
    (distinct : (analysis.records.values.map (·.node)).Nodup)
    (tells : Analysis.Tells config record) (listed : record ∈ analysis.records.values) :
    ∃ summary, AllocationSummary.of? stack (ScalarPlans.plan analysis.records.values) record =
        some summary ∧ (onStack analysis stack).Summarizes record summary := by
  obtain ⟨decision, found, decides⟩ := StackLayout.exists_decides placed distinct listed
  refine ⟨_, congrArg (Option.map _) found, ?_⟩
  have reasons : record.reasons = [] ↔ record.state = .noEscape := by
    simp [EscapeRecord.reasons, tells.trail_eq_nil_iff]
  have decided : (onStack analysis stack).stack.decision? record.node =
      some ⟨record.node, decision.location, decision.slot, decision.size, decision.reason⟩ :=
    found.trans (congrArg some (decides.node_eq ▸ rfl))
  have size : decision.size = record.size := decides.size_eq.trans tells.size_eq
  cases replaceable : record.isScalarReplaceable with
  | true =>
      obtain ⟨first, planned⟩ := ScalarPlans.exists_plan? distinct listed replaceable
      have replaced := decides.replaced_iff.2 replaceable
      have fields := fields_ne_nil_of_isScalarReplaceable replaceable
      have maps := ScalarPlans.plans_mapFields record.node first record
      exact {
        node_eq := rfl
        state_eq := rfl
        reasons_eq := rfl
        reasons_eq_nil_iff := reasons
        decided := decided
        replaceable_iff := decides.replaced_iff
        planned_iff := by simp [replaced, planned]
        fields_iff := by simp [replaced, planned, ScalarPlans.mapFields, fields]
        slot_iff := decides.slot_iff
        size_eq := size
        plan := by
          intro plan foundPlan
          cases planned.symm.trans foundPlan
          exact ⟨by simp [planned], maps.fields_eq, size.symm⟩ }
  | false =>
      have kept : decision.location ≠ .scalarReplaced := by simp [decides.replaced_iff, replaceable]
      have unplanned := ScalarPlans.plan?_eq_none distinct listed replaceable
      exact {
        node_eq := rfl
        state_eq := rfl
        reasons_eq := rfl
        reasons_eq_nil_iff := reasons
        decided := decided
        replaceable_iff := decides.replaced_iff
        planned_iff := by simp [kept, unplanned]
        fields_iff := by simp [kept, unplanned]
        slot_iff := decides.slot_iff
        size_eq := size
        plan := by simp [unplanned] }

theorem summarizes_allocations
    (placed : StackLayout.place? config analysis.records.values = some stack)
    (distinct : (analysis.records.values.map (·.node)).Nodup)
    (tells : ∀ record ∈ analysis.records.values, Analysis.Tells config record) :
    List.Forall₂ (onStack analysis stack).Summarizes analysis.records.values
      (onStack analysis stack).allocations :=
  forall₂_filterMap fun record listed =>
    exists_summarizes placed distinct (tells record listed) listed

/-! ## Figures -/

theorem inState_add (records : List EscapeRecord) :
    Statistics.inState records .noEscape + Statistics.inState records .argEscape +
      Statistics.inState records .globalEscape + Statistics.inState records .unknown =
    records.length := by
  induction records with
  | nil => rfl
  | cons record rest inductionHypothesis =>
      simp only [Statistics.inState, List.filter_cons, List.length_cons] at inductionHypothesis ⊢
      cases record.state <;> simp <;> omega

theorem count_add (layout : StackLayout) :
    layout.count .stack + layout.count .scalarReplaced + layout.count .heap =
      layout.decisions.values.length := by
  simp only [StackLayout.count]
  induction layout.decisions.values with
  | nil => rfl
  | cons decision rest inductionHypothesis =>
      simp only [List.filter_cons, List.length_cons]
      cases decision.location <;> simp <;> omega

/-- The sites that are replaced are counted alike by what can be replaced, by decisions and by
plans. -/
theorem count_scalarReplaced (placed : StackLayout.place? config records = some stack)
    (distinct : (records.map (·.node)).Nodup) :
    stack.count .scalarReplaced = (records.filter (·.isScalarReplaceable)).length := by
  rw [StackLayout.count_of_place? placed distinct]
  refine (length_filter_eq_of_forall₂ (forall₂_filterMap fun record listed =>
    StackLayout.exists_decides placed distinct listed) fun record decision decides => ?_).symm
  simp [decides.replaced_iff]

theorem nodes_of_summarizes {placement : Placement} {summaries : List AllocationSummary}
    (summarizes : List.Forall₂ placement.Summarizes records summaries) :
    summaries.map (·.node) = records.map (·.node) := by
  rw [← List.forall₂_eq_eq_eq, List.forall₂_map_left_iff, List.forall₂_map_right_iff]
  exact summarizes.flip.imp fun _ _ same => same.node_eq

theorem agrees_of_ofAnalysis? (placed : ofAnalysis? config analysis = some placement)
    (distinct : (analysis.records.values.map (·.node)).Nodup)
    (tells : ∀ record ∈ analysis.records.values, Analysis.Tells config record) :
    Agrees analysis placement := by
  obtain ⟨stack, stackPlaced, rfl⟩ := exists_onStack placed
  have summarizes := summarizes_allocations stackPlaced distinct tells
  have planned := @ScalarPlans.planned_foldl (analysis.records.values.filter (·.isScalarReplaceable))
    (List.Nodup.sublist (List.filter_sublist.map _) distinct)
  have filled := StackLayout.filled_of_place? distinct stackPlaced
  have counted := count_scalarReplaced stackPlaced distinct
  have nodes := nodes_of_summarizes summarizes
  have length := summarizes.length_eq
  have decisions : stack.decisions.values.length = analysis.records.values.length := by
    simpa [filled.decisions_perm.length_eq] using congrArg List.length filled.nodes_eq
  exact {
    nodup := nodes ▸ distinct
    summarizes := summarizes
    slots_eq := by
      have plans : (onStack analysis stack).allocations.filterMap (fun summary =>
            (onStack analysis stack).scalar.plan? summary.node) =
          (ScalarPlans.plan analysis.records.values).plansFor
            (analysis.records.values.filter (·.isScalarReplaceable)) := by
        rw [ScalarPlans.plansFor_filter distinct]
        have mapped := congrArg (List.filterMap (onStack analysis stack).scalar.plan?) nodes
        rw [List.filterMap_map, List.filterMap_map] at mapped
        exact mapped
      rw [plans]
      exact planned.slots_eq
    states_eq := (inState_add analysis.records.values).trans length
    locations_eq := (count_add _).trans (decisions.trans length)
    totalAllocations_eq := rfl
    scalarReplaceable_eq := counted.symm
    plans_size_eq := planned.size_eq.trans counted.symm
    scalarBytesSaved_eq := by
      refine planned.bytesSaved_eq.trans (congrArg List.sum ?_)
      refine map_filter_eq_of_forall₂ summarizes fun record summary same => ⟨?_, fun _ => ?_⟩
      · simp [same.replaceable_iff]
      · rw [same.size_eq]
    stackBytes_eq :=
      (StackLayout.bytesPromoted_of_place? distinct stackPlaced).trans filled.stackSize_eq.symm }

/-- There is a placement unless the sizes on the frame cannot be added up; and frame, plans,
summaries and figures of a placement agree on every tree and under every configuration, and the
summaries list the sites in the order in which they were found. -/
theorem agrees_ofTree (config : Config) (tree : Tree) :
    (ofTree? config tree = none ↔ Overflows config tree) ∧
      ∀ placement, ofTree? config tree = some placement →
        Agrees (.ofTree config tree) placement ∧
          placement.allocations.map (·.node) =
            (Walk.ofTree config tree depthLimit).sites.toList.map (·.1) := by
  refine ⟨ofTree?_eq_none_iff, fun placement placed => ?_⟩
  have sound := (walk_accounts config tree).sound
  have agrees := agrees_of_ofAnalysis? placed (distinct_records config tree)
    fun record => Analysis.tells_of_mem_values config tree
  have keysEq : (Analysis.ofTree config tree).records.keys =
      (Walk.ofTree config tree depthLimit).records.keys :=
    Analysis.keys_ofWalk.trans sound.settles.keys_eq
  refine ⟨agrees, ?_⟩
  calc placement.allocations.map (·.node)
      = (Analysis.ofTree config tree).records.values.map (·.node) :=
        nodes_of_summarizes agrees.summarizes
    _ = (Analysis.ofTree config tree).records.keys := nodes_records config tree
    _ = (Walk.ofTree config tree depthLimit).sites.toList.map (·.1) :=
        keysEq.trans sound.keys_eq

/-- Two objects are made. -/
def pair : Tree where
  root := ⟨2⟩
  strings := .ofList ["A", "B"]
  nodes := #[⟨.objectInstantiation ⟨0⟩ [], none⟩, ⟨.objectInstantiation ⟨1⟩ [], none⟩,
    ⟨.root [⟨0⟩, ⟨1⟩], none⟩]

/-- A frame as large as can be, for objects of any size. -/
def boundless : Config where
  maxObjectSize := 4294967295
  maxFrameSize := 4294967295

theorem agrees_ofTree_pair :
    ∃ placement, ofTree? boundless pair = some placement ∧
      Agrees (.ofTree boundless pair) placement ∧ placement.statistics.stackBytes = 128 := by
  have size : (ofTree? boundless pair).map (·.statistics.stackBytes) = some 128 := by cbv
  obtain ⟨placement, placed, bytes⟩ := Option.map_eq_some_iff.1 size
  exact ⟨placement, placed, ((agrees_ofTree boundless pair).2 placement placed).1, bytes⟩

/-- Objects as large as can be. -/
def huge : Config :=
  { boundless with defaultSizes := { object := 4294967295 } }

/-- On a frame as large as can be two objects as large as can be both find room, but what they take
cannot be told in thirty-two bits, and nothing is placed. -/
theorem no_placement_huge : ofTree? huge pair = none ∧ Overflows huge pair := by
  have unplaced : ofTree? huge pair = none := by cbv
  exact ⟨unplaced, ofTree?_eq_none_iff.1 unplaced⟩

end Placement

end EscapePlan
