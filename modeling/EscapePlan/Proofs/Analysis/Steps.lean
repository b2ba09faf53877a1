import EscapePlan.Proofs.Analysis.Invariant
import EscapePlan.Proofs.Graph.Edges
import Mathlib.Tactic.ByContra

/-!
# Single steps of a walk

What each of the actions does that a visit is composed of.
-/

namespace EscapePlan

/-! ## Definitions and edges -/

namespace ControlFlow

variable {flow : ControlFlow} {id : NodeId}

theorem names_modifyBlock {block : BlockId} {change : Block → Block}
    (same : ∀ found, (change found).definitions = found.definitions)
    (names : (flow.modifyBlock block change).Names id) : flow.Names id := by
  rcases names with ⟨number, found, foundEq, definition, member, nodeEq⟩ | phis
  · rw [block?_modifyBlock] at foundEq
    split at foundEq
    next =>
      rcases Option.map_eq_some_iff.1 foundEq with ⟨old, oldEq, rfl⟩
      exact .inl ⟨number, old, oldEq, definition, same old ▸ member, nodeEq⟩
    next => exact .inl ⟨number, found, foundEq, definition, member, nodeEq⟩
  · exact .inr phis

theorem names_newBlock (names : flow.newBlock.2.Names id) : flow.Names id := by
  rcases names with ⟨number, found, foundEq, definition, member, nodeEq⟩ | phis
  · rw [block?_newBlock] at foundEq
    split at foundEq
    next =>
      cases foundEq
      contradiction
    next => exact .inl ⟨number, found, foundEq, definition, member, nodeEq⟩
  · exact .inr phis

theorem names_addEdge {source target : BlockId} (names : (flow.addEdge source target).Names id) :
    flow.Names id := by
  unfold addEdge at names
  split at names
  next =>
    refine names_modifyBlock ?_ (names_modifyBlock ?_ names)
    · exact fun _ => rfl
    · exact fun _ => rfl
  next => exact names

theorem names_recordDefinition {block : BlockId} {var : VarId} {node : NodeId}
    (names : (flow.recordDefinition block var node).Names id) : flow.Names id ∨ id = node := by
  rcases names with ⟨number, found, foundEq, definition, member, nodeEq⟩ | phis
  · rw [recordDefinition, block?_modifyBlock] at foundEq
    split at foundEq
    next =>
      rcases Option.map_eq_some_iff.1 foundEq with ⟨old, oldEq, rfl⟩
      rcases List.mem_append.1 member with before | new
      · exact .inl (.inl ⟨number, old, oldEq, definition, before, nodeEq⟩)
      · rw [List.mem_singleton.1 new] at nodeEq
        exact .inr nodeEq.symm
    next => exact .inl (.inl ⟨number, found, foundEq, definition, member, nodeEq⟩)
  · exact .inl (.inr phis)

end ControlFlow

namespace Walker

open Walk

variable {α β : Type} {law : Law} {scope : Nat} {saved : List Bindings}
  {progress finish : Progress} {given : Walk → Prop}

/-! ## Steps that do not matter for objects -/

/-- An action changes nothing that matters for objects. -/
def Neutral (action : Walker α) : Prop :=
  ∀ walk, Same walk (action walk).2

theorem Neutral.pure (value : α) : Neutral (pure value) :=
  fun walk => .refl walk

theorem Neutral.bind {action : Walker α} {next : α → Walker β} (first : Neutral action)
    (rest : ∀ value, Neutral (next value)) : Neutral (action >>= next) :=
  fun walk => (first walk).trans (rest _ _)

theorem neutral_get : Neutral get :=
  fun walk => .refl walk

theorem neutral_modifyFlow {change : ControlFlow → ControlFlow}
    (names : ∀ {flow id}, (change flow).Names id → flow.Names id) : Neutral (modifyFlow change) :=
  fun _ => ⟨rfl, rfl, rfl, rfl, rfl, rfl, rfl, rfl, rfl, rfl, rfl, fun _ listed => .inl listed,
    fun _ named => names named⟩

theorem neutral_connect (source target : BlockId) : Neutral (connect source target) :=
  neutral_modifyFlow ControlFlow.names_addEdge

theorem neutral_newBlock : Neutral newBlock :=
  fun _ => ⟨rfl, rfl, rfl, rfl, rfl, rfl, rfl, rfl, rfl, rfl, rfl, fun _ listed => .inl listed,
    fun _ named => ControlFlow.names_newBlock named⟩

theorem neutral_newRegion : Neutral newRegion :=
  fun _ => ⟨rfl, rfl, rfl, rfl, rfl, rfl, rfl, rfl, rfl, rfl, rfl, fun _ listed => .inl listed,
    fun _ named => ControlFlow.names_newBlock named⟩

theorem neutral_moveTo (block : BlockId) : Neutral (moveTo block) :=
  fun _ => ⟨rfl, rfl, rfl, rfl, rfl, rfl, rfl, rfl, rfl, rfl, rfl, fun _ listed => .inl listed,
    fun _ named => named⟩

theorem neutral_skip : Neutral skip :=
  fun _ => ⟨rfl, rfl, rfl, rfl, rfl, rfl, rfl, rfl, rfl, rfl, rfl, fun _ listed => .inl listed,
    fun _ named => named⟩

theorem neutral_currentBlock : Neutral currentBlock :=
  neutral_get.bind fun _ => .pure _

theorem neutral_branchFrom (source : BlockId) : Neutral (branchFrom source) :=
  neutral_newBlock.bind fun _ => (neutral_connect _ _).bind fun _ =>
    (neutral_moveTo _).bind fun _ => .pure _

theorem neutral_leaveControl : Neutral leaveControl :=
  neutral_newBlock.bind fun _ => neutral_moveTo _

/-- An edge from a value that is known to be no allocation does not matter. -/
theorem same_addEdge {walk : Walk} {source target : NodeId} {kind : EdgeKind}
    (points : kind ≠ .pointsTo) (other : walk.kind? source ≠ some .allocation) :
    Same walk (addEdge source target kind walk).2 := by
  refine ⟨ValueGraph.nodes_addEdge _ _, rfl, rfl, rfl, rfl, rfl, rfl, rfl, rfl, rfl, rfl,
    fun edge listed => ?_, fun _ named => named⟩
  rcases ValueGraph.mem_of_mem_addEdge listed with old | ⟨rfl, known⟩
  · exact .inl old
  · have kindEq : walk.kind? source = some walk.graph.values.nodes[source].kind :=
      congrArg (Option.map ValueNode.kind) (Array.getElem?_eq_getElem known)
    exact .inr ⟨points, _, kindEq, fun same => other (same ▸ kindEq)⟩

theorem neutral_addUse (value target : NodeId) : Neutral (addUse value target) := by
  intro walk
  have cases_ : (addUse value target walk).2 =
      if walk.kind? value ≠ some .allocation then (addEdge value target .defUse walk).2 else walk :=
    apply_ite (fun action : Walker Unit => (action walk).2) _ _ _
  rw [cases_]
  split
  next other => exact same_addEdge (by decide) other
  next => exact .refl walk

theorem Neutral.runs {action : Walker α} (neutral : Neutral action) :
    Runs law scope saved progress (fun _ => True) action progress fun _ _ => True :=
  fun walk at_ _ => ⟨(neutral walk).grows, (neutral walk).at_ at_, trivial⟩

/-- A neutral action may be passed over. -/
theorem Neutral.runsBind {action : Walker α} {next : α → Walker β} {holds : β → Walk → Prop}
    [Lasting given] (neutral : Neutral action)
    (rest : ∀ value, Runs law scope saved progress given (next value) finish holds) :
    Runs law scope saved progress given (action >>= next) finish holds :=
  neutral.runs.pass rest

/-- Part of the tree is cut off. -/
theorem runs_truncate :
    Runs law scope saved progress (fun _ => True) truncate progress
      fun _ walk => scope ∈ walk.truncated := by
  intro walk at_ _
  have grows : Grows walk (truncate walk).2 := { Grows.refl walk with
    truncated := fun _ member => List.mem_cons_of_mem _ member }
  have sound : (truncate walk).2.Sound := { at_.sound with }
  have lawful := at_.lawful.mono grows rfl rfl rfl
  exact ⟨grows, at_.mono grows rfl rfl rfl rfl sound lawful, at_.scope_eq ▸ List.mem_cons_self⟩

/-! ## Nodes -/

/-- No variable has a node. -/
def Unmentioned (id : NodeId) (walk : Walk) : Prop :=
  ∀ mention ∈ walk.mentions, mention.1 ≠ id

/-- No access has a node. -/
def Unaccessed (id : NodeId) (walk : Walk) : Prop :=
  ∀ access ∈ walk.accesses, access.node ≠ id

theorem kind?_lt {walk : Walk} {id : NodeId} {kind : NodeKind} (found : walk.kind? id = some kind) :
    id < walk.graph.values.size := by
  rcases Option.map_eq_some_iff.1 found with ⟨node, foundNode, -⟩
  exact (Array.getElem?_eq_some_iff.1 foundNode).1

/-- A new node is not the node of any variable or access. -/
theorem runs_addNode (kind : NodeKind) (origin : Option NodeIndex) (position : Option Position)
    (type : ValueType) :
    Runs law scope saved progress (fun _ => True) (addNode kind origin position type) progress
      fun id walk => walk.graph.values.node? id =
          some (.new id kind origin position type) ∧
        Unmentioned id walk ∧ Unaccessed id walk := by
  intro walk at_ _
  have grows : Grows walk (addNode kind origin position type walk).2 := { Grows.refl walk with
    nodes := fun _ _ found => ValueGraph.node?_of_addNode found }
  have sound : (addNode kind origin position type walk).2.Sound := by
    constructor
    · intro mention member
      rcases at_.sound.mention_known mention member with ⟨kind, found, variable_⟩
      exact ⟨kind, grows.kind?_eq found, variable_⟩
    · exact at_.sound.keys_eq
    · intro site member
      exact grows.kind?_eq (at_.sound.site_known site member)
    · exact at_.sound.record_new
    · intro edge listed
      exact (at_.sound.plain edge listed).last grows
    · exact at_.sound.named
    · intro access member
      rcases at_.sound.access_known access member with ⟨kind, found, named⟩
      exact ⟨kind, grows.kind?_eq found, named⟩
    · exact at_.sound.access_nodup
    · intro sink member
      exact (at_.sound.sink_known sink member).last grows
  have lawful := at_.lawful.mono grows rfl rfl rfl
  refine ⟨grows, at_.mono grows rfl rfl rfl rfl sound lawful, ?_, ?_, ?_⟩
  · exact (ValueGraph.node?_addNode _ kind origin position type _).trans (if_pos rfl)
  · intro mention member same
    rcases at_.sound.mention_known mention member with ⟨kind, found, -⟩
    have known := kind?_lt found
    rw [same] at known
    exact Nat.lt_irrefl _ known
  · intro access member same
    rcases at_.sound.access_known access member with ⟨kind, found, -⟩
    have known := kind?_lt found
    rw [same] at known
    exact Nat.lt_irrefl _ known

theorem runs_addNode_kind (kind : NodeKind) (origin : Option NodeIndex)
    (position : Option Position) (type : ValueType) :
    Runs law scope saved progress (fun _ => True) (addNode kind origin position type) progress
      fun id walk => walk.kind? id = some kind :=
  (runs_addNode kind origin position type).imp fun _ _ facts =>
    congrArg (Option.map ValueNode.kind) facts.1

theorem runs_addNode_new (kind : NodeKind) (origin : Option NodeIndex)
    (position : Option Position) (type : ValueType) :
    Runs law scope saved progress (fun _ => True) (addNode kind origin position type) progress
      fun id walk => walk.kind? id = some kind ∧ Unmentioned id walk :=
  (runs_addNode kind origin position type).imp fun _ _ facts =>
    ⟨congrArg (Option.map ValueNode.kind) facts.1, facts.2.1⟩

/-- A node stays new while edges are added. -/
theorem runs_addEdge_new {source target id : NodeId} {edgeKind : EdgeKind}
    {sourceKind kind : NodeKind} (points : edgeKind ≠ .pointsTo)
    (other : sourceKind ≠ .allocation) :
    Runs law scope saved progress
      (fun walk => walk.kind? source = some sourceKind ∧ walk.kind? id = some kind ∧
        Unmentioned id walk)
      (addEdge source target edgeKind) progress
      fun _ walk => walk.kind? id = some kind ∧ Unmentioned id walk := by
  rintro walk at_ ⟨sourceKnown, known, unmentioned⟩
  have notAllocation : walk.kind? source ≠ some .allocation := by
    rw [sourceKnown]
    exact fun same => other (Option.some.inj same)
  have same := @same_addEdge walk source target edgeKind points notAllocation
  exact ⟨same.grows, same.at_ at_, same.grows.kind?_eq known, unmentioned⟩

/-! ## Flows, sinks and accesses -/

/-- If a value is there, its objects come from some sources if from anything that is known. -/
def WithinOf (sources : Source → Prop) (value : Option NodeId) (walk : Walk) : Prop :=
  ∀ id, value = some id → walk.Within sources id

instance (sources : Source → Prop) (value : Option NodeId) : Lasting (WithinOf sources value) := by
  unfold WithinOf
  infer_instance

theorem WithinOf.mono {sources more : Source → Prop} {value : Option NodeId} {walk : Walk}
    (within_ : WithinOf sources value walk) (enough : ∀ source, sources source → more source) :
    WithinOf more value walk :=
  fun id valueEq => (within_ id valueEq).mono enough

/-- Nothing is known of a value that may be there. -/
theorem withinOf_of_mute {sources : Source → Prop} {id : NodeId} {walk : Walk}
    (mute : walk.Mute id) : WithinOf sources (some id) walk := by
  intro other same
  cases same
  exact .inl mute

theorem withinOf_none {sources : Source → Prop} {walk : Walk} : WithinOf sources none walk :=
  nofun

theorem runs_addFlow (key : VarKey) (value : NodeId) :
    Runs law scope saved progress (fun walk => walk.Within (law.flows key) value)
      (addFlow key value) progress fun _ walk => (key, value) ∈ walk.flows := by
  intro walk at_ allowed
  have grows : Grows walk (addFlow key value walk).2 := { Grows.refl walk with
    flows := fun _ member => Array.mem_push_of_mem _ member }
  have lawful : (addFlow key value walk).2.Lawful law := { at_.lawful with
    flows := by
      intro flow member
      rcases Array.mem_push.1 member with old | rfl
      · exact at_.lawful.flows flow old
      · exact allowed }
  exact ⟨grows, at_.mono grows rfl rfl rfl rfl { at_.sound with } lawful, Array.mem_push_self⟩

theorem receives_of_kind {walk : Walk} {target : NodeId} {kind : NodeKind}
    (known : walk.kind? target = some kind) (other : kind.isFieldAccess = false) :
    walk.Receives .defUse target :=
  ⟨by decide, fun _ => ⟨kind, known, other⟩⟩

theorem receives_of_ne {walk : Walk} {target : NodeId} {kind : EdgeKind}
    (points : kind ≠ .pointsTo) (use : kind ≠ .defUse) : walk.Receives kind target :=
  ⟨points, fun same => absurd same use⟩

theorem runs_addSink (value target : NodeId) (kind : EdgeKind) (reason : EscapeReason)
    (position : Option Position) :
    Runs law scope saved progress
      (fun walk => walk.Within law.exposes value ∧ walk.Receives kind target)
      (addSink value target kind reason position) progress
      fun _ walk => ∃ sink ∈ walk.sinks, sink.value = value := by
  apply ((neutral_addUse value target).runs.forget).keepGiven.bind
  rintro _ walk at_ ⟨-, allowed, receives⟩
  have grows : Grows walk { walk with
      sinks := walk.sinks.push ⟨value, target, kind, reason, position⟩ } := { Grows.refl walk with
    sinks := fun _ member => Array.mem_push_of_mem _ member }
  have sound : { walk with
      sinks := walk.sinks.push ⟨value, target, kind, reason, position⟩ }.Sound :=
    { at_.sound with
      sink_known := by
        intro sink member
        rcases Array.mem_push.1 member with old | rfl
        · exact at_.sound.sink_known sink old
        · exact receives }
  have lawful : { walk with
      sinks := walk.sinks.push ⟨value, target, kind, reason, position⟩ }.Lawful law :=
    { at_.lawful with
      sinks := by
        intro sink member
        rcases Array.mem_push.1 member with old | rfl
        · exact at_.lawful.sinks sink old
        · exact allowed }
  exact ⟨grows, at_.mono grows rfl rfl rfl rfl sound lawful, _, Array.mem_push_self, rfl⟩

/-- A value that may be there has met a sink. -/
def Sunk (value : Option NodeId) (walk : Walk) : Prop :=
  ∀ id, value = some id → ∃ sink ∈ walk.sinks, sink.value = id

instance (value : Option NodeId) : Lasting (Sunk value) := by
  unfold Sunk
  infer_instance

/-- A value that may be there has flowed into a variable. -/
def Flowed (key : VarKey) (value : Option NodeId) (walk : Walk) : Prop :=
  ∀ id, value = some id → (key, id) ∈ walk.flows

instance (key : VarKey) (value : Option NodeId) : Lasting (Flowed key value) := by
  unfold Flowed
  infer_instance

/-- A field of a value that may be there has been accessed, or an element. -/
def Accessed (field : Option String) (base : Option NodeId) (walk : Walk) : Prop :=
  ∀ id, base = some id → ∃ access ∈ walk.accesses, access.field = field ∧ access.base = id

instance (field : Option String) (base : Option NodeId) : Lasting (Accessed field base) := by
  unfold Accessed
  infer_instance

/-- A value that may be there meets a sink. -/
theorem runs_addSinkOf (value : Option NodeId) (target : NodeId) (kind : EdgeKind)
    (reason : EscapeReason) (position : Option Position) {next : Walker β}
    {holds : β → Walk → Prop} [Lasting given]
    (allowed : ∀ walk, given walk → WithinOf law.exposes value walk ∧ walk.Receives kind target)
    (rest : Runs law scope saved progress (fun walk => Sunk value walk ∧ given walk) next finish
      holds) :
    Runs law scope saved progress given
      (do
        if let some value := value then
          addSink value target kind reason position
        next)
      finish holds := by
  cases value with
  | none => exact rest.weaken fun _ facts => ⟨nofun, facts⟩
  | some value =>
      have sinks := @runs_addSink law scope saved progress value target kind reason position
      apply ((sinks.weaken fun walk facts =>
        ⟨(allowed walk facts).1 value rfl, (allowed walk facts).2⟩).keepGiven).bind
      intro _
      apply rest.weaken
      rintro walk ⟨sunk, facts⟩
      refine ⟨fun id same => ?_, facts⟩
      cases same
      exact sunk

theorem runs_passToUnknown (value : NodeId) (origin : Option NodeIndex)
    (position : Option Position) :
    Runs law scope saved progress (fun walk => walk.Within law.exposes value)
      (passToUnknown value origin position) progress
      fun _ walk => ∃ sink ∈ walk.sinks, sink.value = value := by
  apply (runs_addNode_kind .callArg origin position .unknown).andThen
  intro arg
  apply (runs_addSink value arg .defUse .passedToUnknown position).weaken
  rintro walk ⟨known, allowed⟩
  exact ⟨allowed, receives_of_kind known rfl⟩

theorem runs_addAccess (base node : NodeId) {kind : NodeKind} (field : Option String)
    (type : ValueType)
    (named : kind.isFieldAccess = field.isSome ∧ kind.initialState = .unknown) :
    Runs law scope saved progress
      (fun walk => walk.kind? node = some kind ∧ Unaccessed node walk ∧
        walk.Within (law.accesses field) base)
      (addAccess base node field type) progress
      fun _ walk => ∃ access ∈ walk.accesses, access.field = field ∧ access.base = base := by
  rintro before atBefore ⟨knownBefore, unaccessedBefore, allowedBefore⟩
  have same := neutral_addUse base node before
  have known := same.grows.kind?_eq knownBefore
  have allowed := allowedBefore.last same.grows
  have unaccessed : Unaccessed node (addUse base node before).2 := by
    rw [Unaccessed, same.accesses_eq]
    exact unaccessedBefore
  have at_ := same.at_ atBefore
  have added : (addAccess base node field type before).2 =
      { (addUse base node before).2 with
        accesses := (addUse base node before).2.accesses.push ⟨base, node, field, type⟩ } := rfl
  rw [added]
  generalize (addUse base node before).2 = walk at *
  have grows : Grows walk { walk with accesses := walk.accesses.push ⟨base, node, field, type⟩ } :=
    { Grows.refl walk with accesses := fun _ member => Array.mem_push_of_mem _ member }
  have sound : { walk with
      accesses := walk.accesses.push ⟨base, node, field, type⟩ }.Sound :=
    { at_.sound with
      access_known := by
        intro access member
        rcases Array.mem_push.1 member with old | rfl
        · exact at_.sound.access_known access old
        · exact ⟨kind, known, named⟩
      access_nodup := by
        rw [Array.toList_push, List.map_append]
        refine List.nodup_append.2 ⟨at_.sound.access_nodup, List.pairwise_singleton _ _, ?_⟩
        rintro other listed _ new rfl
        rcases List.mem_map.1 listed with ⟨access, member, nodeEq⟩
        exact unaccessed access (Array.mem_toList_iff.1 member)
          (nodeEq.trans (List.mem_singleton.1 new)) }
  have lawful : { walk with
      accesses := walk.accesses.push ⟨base, node, field, type⟩ }.Lawful law :=
    { at_.lawful with
      accesses := by
        intro access member
        rcases Array.mem_push.1 member with old | rfl
        · exact at_.lawful.accesses access old
        · exact allowed }
  exact ⟨same.grows.trans grows, at_.mono grows rfl rfl rfl rfl sound lawful, _,
    Array.mem_push_self, rfl, rfl⟩

/-- A value that may be there is accessed, through a new node. -/
theorem runs_accessOf (base : Option NodeId) {kind : NodeKind} (origin : Option NodeIndex)
    (position : Option Position) (field : Option String) (type : ValueType)
    (named : kind.isFieldAccess = field.isSome ∧ kind.initialState = .unknown)
    {next : NodeId → Walker β}
    {holds : β → Walk → Prop} [Lasting given]
    (allowed : ∀ walk, given walk → WithinOf (law.accesses field) base walk)
    (rest : ∀ node, Runs law scope saved progress
      (fun walk => Accessed field base walk ∧ walk.kind? node = some kind ∧ given walk) (next node)
      finish holds) :
    Runs law scope saved progress given
      (do
        let node ← addNode kind origin position type
        if let some base := base then
          addAccess base node field type
        next node)
      finish holds := by
  apply (runs_addNode kind origin position type).andThen
  intro node
  cases base with
  | none =>
      apply (rest node).weaken
      rintro walk ⟨⟨found, -⟩, facts⟩
      exact ⟨nofun, congrArg (Option.map ValueNode.kind) found, facts⟩
  | some base =>
      have accesses := @runs_addAccess law scope saved progress base node kind field type named
      have kept : Runs law scope saved progress
          (fun walk => (walk.graph.values.node? node =
              some (.new node kind origin position type) ∧
            Unmentioned node walk ∧ Unaccessed node walk) ∧ given walk)
          (addAccess base node field type) progress
          fun _ walk => Accessed field (some base) walk ∧ walk.kind? node = some kind ∧
            given walk := by
        rintro walk at_ ⟨⟨found, -, unaccessed⟩, facts⟩
        have known : walk.kind? node = some kind := congrArg (Option.map ValueNode.kind) found
        rcases accesses walk at_ ⟨known, unaccessed, allowed walk facts base rfl⟩ with
          ⟨grows, atFinish, accessed⟩
        refine ⟨grows, atFinish, fun id same => ?_, grows.kind?_eq known,
          Lasting.last grows facts⟩
        cases same
        exact accessed
      exact kept.bind fun _ => rest node

/-! ## Allocations -/

/-- The record that a new site gets. -/
def siteRecord (config : Config) (node : NodeId) (objectType : ObjectType)
    (className : Option String) (position : Option Position) (count : Nat) : EscapeRecord :=
  match sizeOfCount count with
  | some size => { EscapeRecord.new node objectType size true with className, position }
  | none =>
      { EscapeRecord.new node objectType ((config.defaultSizes.forType objectType).getD 0) false with
        className, position }

/-- The walk with a record of a new site. -/
def noteSite (record : EscapeRecord) (walk : Walk) : Walk :=
  { walk with
    records := walk.records.insert record.node record
    sites := walk.sites.push (record.node, walk.scope) }

theorem node_siteRecord (config : Config) (node : NodeId) (objectType : ObjectType)
    (className : Option String) (position : Option Position) (count : Nat) :
    (siteRecord config node objectType className position count).node = node := by
  rw [siteRecord]
  split
  next => rfl
  next => rfl

/-- Nothing is known yet about a new site. -/
def Blank (record : EscapeRecord) : Prop :=
  record.state = .noEscape ∧ record.trail = [] ∧ record.fields = []

theorem blank_siteRecord (config : Config) (node : NodeId) (objectType : ObjectType)
    (className : Option String) (position : Option Position) (count : Nat) :
    Blank (siteRecord config node objectType className position count) := by
  rw [siteRecord]
  split
  next => exact ⟨rfl, rfl, rfl⟩
  next => exact ⟨rfl, rfl, rfl⟩

theorem addAllocation_eq (config : Config) (origin : NodeIndex) (position : Option Position)
    (objectType : ObjectType) (className : Option String) (count : Nat) (walk : Walk) :
    addAllocation config origin position objectType className count walk =
      (walk.graph.values.size,
        noteSite
          (siteRecord config walk.graph.values.size objectType className position count)
          (addNode .allocation (some origin) position (allocatedType objectType) walk).2) := by
  rw [noteSite, node_siteRecord]
  cases size : sizeOfCount count with
  | none =>
      simp only [addAllocation, siteRecord, size, bind, StateT.bind]
      rfl
  | some size =>
      simp only [addAllocation, siteRecord, size, bind, StateT.bind]
      rfl

/-- A site may be noted once its node is known and is greater than those of all other sites. -/
theorem noteSite_at {record : EscapeRecord} {walk : Walk} (at_ : At law scope saved progress walk)
    (allocates : walk.kind? record.node = some .allocation) (blank : Blank record)
    (last : ∀ other ∈ walk.records.keys, other < record.node) :
    Grows walk (noteSite record walk) ∧
      At law scope saved { progress with sites := progress.sites + 1 } (noteSite record walk) ∧
        (noteSite record walk).sites[progress.sites]? = some (record.node, walk.scope) := by
  have sites : (noteSite record walk).sites = walk.sites.push (record.node, walk.scope) := rfl
  have sitesList : (noteSite record walk).sites.toList =
      walk.sites.toList ++ [(record.node, walk.scope)] := by
    rw [sites, Array.toList_push]
  have grows : Grows walk (noteSite record walk) :=
    { Grows.refl walk with sites := ⟨_, sitesList.symm⟩ }
  refine ⟨grows, ?_, ?_⟩
  · constructor
    · exact at_.scope_eq
    · exact at_.scopeCount_eq
    · rw [sites, Array.size_push, at_.sites_eq]
    · exact at_.saved_eq
    · exact at_.bound_global
    · exact at_.bound_local
    · refine { at_.sound with keys_eq := ?_, site_known := ?_, record_new := ?_ }
      · rw [sitesList, List.map_append, ← at_.sound.keys_eq]
        exact Table.keys_insert_of_lt last
      · intro site member
        rw [sites, Array.mem_push] at member
        rcases member with old | rfl
        · exact at_.sound.site_known site old
        · exact allocates
      · intro key other found
        rw [noteSite, Table.find?_insert] at found
        split at found
        next same =>
          cases found
          exact ⟨same.symm, blank⟩
        next => exact at_.sound.record_new key other found
    · exact at_.lawful.mono grows rfl rfl rfl
  · rw [sites, ← at_.sites_eq]
    exact Array.getElem?_push_size

theorem runs_addAllocation (config : Config) (origin : NodeIndex) (position : Option Position)
    (objectType : ObjectType) (className : Option String) (count : Nat) :
    Runs law scope saved progress (fun _ => True)
      (addAllocation config origin position objectType className count)
      { progress with sites := progress.sites + 1 }
      fun id walk => walk.sites[progress.sites]? = some (id, scope) ∧
        walk.Represents id (.site ⟨progress.sites, origin⟩) := by
  intro walk at_ facts
  rcases runs_addNode .allocation (some origin) position (allocatedType objectType) walk at_ facts
    with ⟨growsNode, atNode, found, -⟩
  have last : ∀ other ∈ walk.records.keys, other < walk.graph.values.size := by
    intro other member
    rw [at_.sound.keys_eq, List.mem_map] at member
    rcases member with ⟨site, listed, rfl⟩
    exact kind?_lt (at_.sound.site_known site (Array.mem_toList_iff.1 listed))
  have recordNode :=
    node_siteRecord config walk.graph.values.size objectType className position count
  have blank := blank_siteRecord config walk.graph.values.size objectType className position count
  rw [addAllocation_eq]
  generalize siteRecord config walk.graph.values.size objectType className position count =
    record at recordNode blank
  rw [← recordNode] at last
  have allocates : (addNode .allocation (some origin) position (allocatedType objectType)
      walk).2.kind? record.node = some .allocation := by
    rw [recordNode]
    exact congrArg (Option.map ValueNode.kind) found
  rcases noteSite_at atNode allocates blank last with ⟨growsSite, atSite, noted⟩
  rw [recordNode, atNode.scope_eq] at noted
  exact ⟨growsNode.trans growsSite, atSite, noted, ⟨_, noted⟩, _, found, rfl, rfl⟩

/-! ## Names -/

theorem find?_push_mention {mentions : Array (NodeId × VarKey)} {id : NodeId} {key : VarKey}
    (unmentioned : ∀ mention ∈ mentions, mention.1 ≠ id) :
    ((mentions.push (id, key)).find? (·.1 = id)).map (·.2) = some key := by
  have absent : mentions.toList.find? (fun mention => decide (mention.1 = id)) = none := by
    rw [List.find?_eq_none]
    intro mention member
    simpa using unmentioned mention (Array.mem_toList_iff.1 member)
  rw [← Array.find?_toList, Array.toList_push, List.find?_append, absent]
  simp

/-- Binding a name to a node that no variable has makes it the node of the name. -/
theorem runs_bindVariable (name : StrId) (id : NodeId) {kind : NodeKind}
    (variable_ : kind.isVariable = true) :
    Runs law scope saved progress (fun walk => walk.kind? id = some kind ∧ Unmentioned id walk)
      (bindVariable name id)
      { progress with globals := progress.globals.filter (· ≠ name) }
      fun key walk => key = ⟨scope, name⟩ ∧ walk.varKey? id = some ⟨scope, name⟩ := by
  rintro walk at_ ⟨known, unmentioned⟩
  have keyEq : (bindVariable name id walk).1 = ⟨scope, name⟩ :=
    congrArg (VarKey.mk · name) at_.scope_eq
  have mentions : (bindVariable name id walk).2.mentions =
      walk.mentions.push (id, ⟨scope, name⟩) := at_.scope_eq ▸ rfl
  have scopes : (bindVariable name id walk).2.graph.scopes = walk.graph.scopes.bind name id := rfl
  have grows : Grows walk (bindVariable name id walk).2 := { Grows.refl walk with
    mentions := by
      rw [mentions, Array.toList_push]
      exact List.prefix_append _ _ }
  have notGlobal : kind ≠ .globalVar := by
    rintro rfl
    contradiction
  have varKey : (bindVariable name id walk).2.varKey? id = some ⟨scope, name⟩ := by
    rw [varKey?, mentions]
    exact find?_push_mention unmentioned
  refine ⟨grows, ?_, keyEq, varKey⟩
  constructor
  · exact at_.scope_eq
  · exact at_.scopeCount_eq
  · exact at_.sites_eq
  · exact at_.saved_eq
  · intro other member
    rcases List.mem_filter.1 member with ⟨declared, different⟩
    rw [scopes, Scopes.find?_bind, if_neg fun same => of_decide_eq_true different same.symm]
    exact at_.bound_global other declared
  · intro other absent found bound
    rw [scopes, Scopes.find?_bind] at bound
    split at bound
    next same =>
      cases bound
      exact ⟨same ▸ varKey, kind, known, notGlobal⟩
    next different =>
      have undeclared : other ∉ progress.globals := fun member =>
        absent (List.mem_filter.2 ⟨member, decide_eq_true fun same => different same.symm⟩)
      rcases at_.bound_local other undeclared found bound with ⟨key, kind, kindEq, local_⟩
      exact ⟨grows.varKey?_eq key, kind, kindEq, local_⟩
  · refine { at_.sound with mention_known := ?_, named := ?_ }
    · intro mention member
      rw [mentions, Array.mem_push] at member
      rcases member with old | rfl
      · exact at_.sound.mention_known mention old
      · exact ⟨kind, known, variable_⟩
    · intro other names
      rcases at_.sound.named other names with ⟨key, found⟩
      exact ⟨key, grows.varKey?_eq found⟩
  · exact at_.lawful.mono grows rfl rfl rfl

/-- A node of a variable may become its definition in a block. -/
theorem runs_recordDefinition (block : BlockId) (var : VarId) (id : NodeId) {key : VarKey} :
    Runs law scope saved progress (fun walk => walk.varKey? id = some key)
      (modifyFlow (·.recordDefinition block var id)) progress
      fun _ walk => walk.varKey? id = some key := by
  intro walk at_ varKey
  have grows : Grows walk (modifyFlow (·.recordDefinition block var id) walk).2 :=
    { Grows.refl walk with }
  have sound : (modifyFlow (·.recordDefinition block var id) walk).2.Sound :=
    { at_.sound with
      named := by
        intro other names
        rcases ControlFlow.names_recordDefinition names with old | rfl
        · exact at_.sound.named other old
        · exact ⟨key, varKey⟩ }
  have lawful := at_.lawful.mono grows rfl rfl rfl
  exact ⟨grows, at_.mono grows rfl rfl rfl rfl sound lawful, varKey⟩

theorem runs_defineVariable (name : StrId) (id : NodeId) {kind : NodeKind}
    (variable_ : kind.isVariable = true) :
    Runs law scope saved progress (fun walk => walk.kind? id = some kind ∧ Unmentioned id walk)
      (defineVariable name id)
      { progress with globals := progress.globals.filter (· ≠ name) }
      fun key walk => key = ⟨scope, name⟩ ∧ walk.varKey? id = some ⟨scope, name⟩ := by
  apply (runs_bindVariable name id variable_).bind
  intro key
  apply neutral_currentBlock.runsBind
  intro block
  apply (runs_recordDefinition block name.toNat id).carry.bind
  intro _
  exact Runs.pure fun _ facts => facts

theorem filter_globals_eq {name : StrId} (undeclared : name ∉ progress.globals) :
    { progress with globals := progress.globals.filter (· ≠ name) } = progress := by
  have unchanged : progress.globals.filter (· ≠ name) = progress.globals :=
    List.filter_eq_self.2 fun other member =>
      decide_eq_true fun same => undeclared (same ▸ member)
  rw [unchanged]

theorem mute_of_globalVar {walk : Walk} {id : NodeId} (known : walk.kind? id = some .globalVar) :
    walk.Mute id :=
  ⟨.globalVar, known, rfl⟩

theorem runs_readVariable (name : StrId) (origin : NodeIndex) (position : Option Position) :
    Runs law scope saved progress (fun _ => True) (readVariable name origin position) progress
      fun id walk => (name ∈ progress.globals → walk.Mute id) ∧
        (name ∉ progress.globals → walk.varKey? id = some ⟨scope, name⟩) := by
  apply Runs.get
  intro before at_ _
  split
  next id bound =>
    apply Runs.pure
    rintro walk rfl
    refine ⟨fun declared => ?_, fun undeclared => (at_.bound_local name undeclared id bound).1⟩
    rcases at_.bound_global name declared with ⟨node, found, known⟩
    cases bound.symm.trans found
    exact mute_of_globalVar known
  next bound =>
    have undeclared : name ∉ progress.globals := by
      intro declared
      rcases at_.bound_global name declared with ⟨id, found, -⟩
      rw [bound] at found
      contradiction
    apply Runs.forget
    apply (runs_addNode_new .localVar (some origin) position .unknown).bind
    intro id
    have binds := @runs_bindVariable law scope saved progress name id .localVar rfl
    rw [filter_globals_eq undeclared] at binds
    apply binds.bind
    intro key
    exact Runs.pure fun _ facts => ⟨fun declared => absurd declared undeclared, fun _ => facts.2⟩

/-- Declaring a name binds it to a global variable. -/
theorem runs_declare (name : StrId) (origin : Option NodeIndex) (position : Option Position) :
    Runs law scope saved progress (fun _ => True)
      (do
        let node ← addNode .globalVar origin position .unknown
        modifyScopes (·.bind name node))
      { progress with globals := name :: progress.globals } fun _ _ => True := by
  apply (runs_addNode_new .globalVar origin position .unknown).bind
  rintro id walk at_ ⟨known, -⟩
  have grows : Grows walk (modifyScopes (·.bind name id) walk).2 := { Grows.refl walk with }
  have scopes : (modifyScopes (·.bind name id) walk).2.graph.scopes =
      walk.graph.scopes.bind name id := rfl
  refine ⟨grows, ?_, trivial⟩
  constructor
  · exact at_.scope_eq
  · exact at_.scopeCount_eq
  · exact at_.sites_eq
  · exact at_.saved_eq
  · intro other member
    rw [scopes, Scopes.find?_bind]
    split
    next => exact ⟨id, rfl, known⟩
    next different =>
      exact at_.bound_global other ((List.mem_cons.1 member).resolve_left (Ne.symm different))
  · intro other absent found bound
    rw [List.mem_cons, not_or] at absent
    rw [scopes, Scopes.find?_bind, if_neg (Ne.symm absent.1)] at bound
    exact at_.bound_local other absent.2 found bound
  · exact { at_.sound with }
  · exact at_.lawful.mono grows rfl rfl rfl

/-- What a variable may be assigned: what may be exposed if it is global, and what may flow into
it otherwise. -/
def Assignable (law : Law) (scope : Nat) (progress : Progress) (name : StrId)
    (value : Option NodeId) (walk : Walk) : Prop :=
  (name ∈ progress.globals → WithinOf law.exposes value walk) ∧
    (name ∉ progress.globals → WithinOf (law.flows ⟨scope, name⟩) value walk)

instance (name : StrId) (value : Option NodeId) :
    Lasting (Assignable law scope progress name value) := by
  unfold Assignable
  infer_instance

theorem runs_assignVariable (name : StrId) (target : NodeIndex) (value : Option NodeId)
    (type : ValueType) (position : Option Position) :
    Runs law scope saved progress (Assignable law scope progress name value)
      (assignVariable name target value type position) progress fun id walk =>
        (name ∈ progress.globals → walk.Mute id ∧ Sunk value walk) ∧
          (name ∉ progress.globals →
            walk.varKey? id = some ⟨scope, name⟩ ∧ Flowed ⟨scope, name⟩ value walk) := by
  apply Runs.get
  intro before at_ assignable
  split
  next existing bound =>
    rcases Option.filter_eq_some_iff.1 bound with ⟨found, isGlobal⟩
    have declared : name ∈ progress.globals := by
      by_contra undeclared
      rcases at_.bound_local name undeclared existing found with ⟨-, kind, known, other⟩
      rw [known] at isGlobal
      exact other (by simpa using isGlobal)
    have known : before.kind? existing = some .globalVar := by
      rcases at_.bound_global name declared with ⟨id, foundId, known⟩
      cases found.symm.trans foundId
      exact known
    refine Runs.weaken (?_ : Runs law scope saved progress
      (fun walk => walk.kind? existing = some .globalVar ∧ WithinOf law.exposes value walk) _ _ _) ?_
    · apply runs_addSinkOf value existing .defUse .assignedToGlobal position
      · exact fun walk facts => ⟨facts.2, receives_of_kind facts.1 rfl⟩
      apply Runs.pure
      rintro walk ⟨sunk, knownLater, -⟩
      exact ⟨fun _ => ⟨mute_of_globalVar knownLater, sunk⟩,
        fun undeclared => absurd declared undeclared⟩
    · rintro walk rfl
      exact ⟨known, assignable.1 declared⟩
  next bound =>
    have undeclared : name ∉ progress.globals := by
      intro declared
      rcases at_.bound_global name declared with ⟨id, found, known⟩
      rw [found, Option.filter_some, known] at bound
      simp at bound
    refine Runs.weaken (?_ : Runs law scope saved progress
      (fun walk => WithinOf (law.flows ⟨scope, name⟩) value walk ∧ True) _ _ _) ?_
    · apply (runs_addNode_new .localVar (some target) position type).carry.bind
      intro id
      have defines :=
        @runs_defineVariable law scope saved progress name id .localVar rfl
      rw [filter_globals_eq undeclared] at defines
      apply defines.carry.bind
      intro key
      cases value with
      | none =>
          apply Runs.pure
          rintro walk ⟨-, -, varKey⟩
          refine ⟨fun declared => absurd declared undeclared, fun _ => ⟨varKey, fun _ missing => ?_⟩⟩
          contradiction
      | some value =>
          have flows : Runs law scope saved progress
              (fun walk => WithinOf (law.flows ⟨scope, name⟩) (some value) walk ∧
                key = ⟨scope, name⟩ ∧ walk.varKey? id = some ⟨scope, name⟩)
              (addFlow key value) progress fun _ walk => (key, value) ∈ walk.flows := by
            rintro walk at_ ⟨within_, rfl, -⟩
            exact runs_addFlow ⟨scope, name⟩ value walk at_ (within_ value rfl)
          apply flows.keepGiven.bind
          intro _
          apply (neutral_addUse value id).runsBind
          intro _
          apply Runs.pure
          rintro walk ⟨flowed, -, rfl, varKey⟩
          refine ⟨fun declared => absurd declared undeclared, fun _ => ⟨varKey, fun _ same => ?_⟩⟩
          cases same
          exact flowed
    · rintro walk rfl
      exact ⟨assignable.2 undeclared, trivial⟩

end Walker

end EscapePlan
