import EscapePlan.Proofs.Analysis.Replacement
import EscapePlan.Proofs.Isolation.Settling

/-!
# States in isolated parts

Conversion to single assignment form links values of one part to phis, and phis may be linked to
phis only.  A phi starts from the unknown state, and so does every value of a variable that an
object can flow into; so no state depends on what phis there are.  The states of objects that
correspond are joins over values that correspond, and the final records are the same but for the
numbers of their nodes.
-/

namespace EscapePlan

namespace Propagation

/-- Records that are the same but for their nodes are raised alike if the nodes are in the same
state. -/
theorem unnumbered_raise {unknownIsBottom : Bool} {graph other : ValueGraph}
    {record another : EscapeRecord} (same : record.unnumbered = another.unnumbered)
    (states : graph.state? record.node = other.state? another.node) :
    (raise unknownIsBottom graph record).unnumbered =
      (raise unknownIsBottom other another).unnumbered := by
  obtain ⟨node, state, trail, judged, fields, type, className, size, explicit, position⟩ := record
  obtain ⟨nodeTwin, _, _, _, _, _, _, _, _, _⟩ := another
  simp only [EscapeRecord.unnumbered, EscapeRecord.mk.injEq, true_and] at same
  obtain ⟨rfl, rfl, rfl, rfl, rfl, rfl, rfl, rfl, rfl⟩ := same
  dsimp only at states
  unfold raise
  dsimp only
  rw [states]
  cases other.state? nodeTwin with
  | none => rfl
  | some reached =>
      dsimp only
      split <;> rfl

end Propagation

/-- The number of its node does not matter for what becomes of a record, but for its use. -/
theorem Analysis.unnumbered_finalRecord (config : Config) (graph : ValueGraph)
    (record : EscapeRecord) :
    let raised := (Propagation.raise config.unknownIsBottom graph record).unnumbered
    (finalRecord config graph record).unnumbered =
      { raised with
        canScalarReplace := config.enableScalarReplacement && raised.state = .noEscape &&
          !raised.fields.isEmpty && usedByFieldsOnly graph record.node } := by
  rw [finalRecord, Propagation.node_raise]
  rfl

/-! ## Known edges -/

namespace DataFlowGraph

theorem edgesKnown_foldl_placePhi {sites : List (BlockId × VarId)} {graph : DataFlowGraph}
    (known : graph.values.EdgesKnown) : (sites.foldl placePhi graph).values.EdgesKnown :=
  List.foldlRecOn (motive := fun graph : DataFlowGraph => graph.values.EdgesKnown) sites placePhi
    known fun _ known _ _ => known.addNode .phi none none .unknown

/-- Conversion to single assignment form joins known nodes. -/
theorem edgesKnown_convertToSsa {graph : DataFlowGraph} (known : graph.values.EdgesKnown) :
    graph.convertToSsa.values.EdgesKnown := by
  rw [values_convertToSsa, withPhis]
  refine List.foldlRecOn (motive := ValueGraph.EdgesKnown) _ linkPhi ?_ ?_
  · exact edgesKnown_foldl_placePhi known
  · exact fun _ known _ _ => known.addEdge _

end DataFlowGraph

namespace Walk

variable {walk : Walk} {config : Config}

/-- No edge that settling leaves enters a parameter. -/
theorem Sound.settled_target (sound : walk.Sound) (orderly : walk.Orderly config) {edge : Edge}
    (listed : edge ∈ walk.settle.graph.values.edges) :
    ∃ kind, walk.kind? edge.target = some kind ∧ kind ≠ .parameter := by
  rcases sound.of_mem_edges_settle listed with
    resolved | ⟨access, noted, allocation, -, rfl⟩ | ⟨sink, noted, allocation, -, rfl⟩
  · rcases ValueGraph.mem_foldl_addEdge resolved with known | added
    · exact orderly.edge_target edge known
    · rcases (mem_aliasEdges_iff.1 added).2 with ⟨key, -, denotes, -⟩
      exact ⟨.allocation, denotes.kind_eq, by decide⟩
  · rcases sound.access_known access noted with ⟨kind, target, -, initial⟩
    refine ⟨kind, target, ?_⟩
    rintro rfl
    contradiction
  · exact orderly.sink_target sink noted

/-- Settling joins known values. -/
theorem Sound.edgesKnown_settle (sound : walk.Sound) (orderly : walk.Orderly config) :
    walk.settle.graph.values.EdgesKnown := by
  have lt {id : NodeId} {kind : NodeKind} (known : walk.kind? id = some kind) :
      id < walk.settle.graph.values.size :=
    Walker.kind?_lt ((sound.kind?_settle id).trans known)
  intro edge listed
  have member := Array.mem_toList_iff.1 listed
  rcases sound.settled_target orderly member with ⟨kind, target, -⟩
  refine ⟨?_, lt target⟩
  rcases sound.of_mem_edges_settle member with
    resolved | ⟨access, -, allocation, denoted, rfl⟩ | ⟨sink, -, allocation, denoted, rfl⟩
  · rcases ValueGraph.mem_foldl_addEdge resolved with known | added
    · have source := (orderly.edges_known edge (Array.mem_toList_iff.2 known)).1
      rcases ValueGraph.exists_node?_of_lt source with ⟨node, found⟩
      exact @lt edge.source node.kind (Option.map_eq_some_iff.2 ⟨node, found, rfl⟩)
    · rcases (mem_aliasEdges_iff.1 added).2 with ⟨key, varKey, -⟩
      rcases sound.varKey?_kind varKey with ⟨kind, source, -⟩
      exact lt source
  · exact lt (sound.kind?_of_mem_aliases denoted)
  · exact lt (sound.kind?_of_mem_aliases denoted)

theorem Sound.kind?_final (sound : walk.Sound) {id : NodeId} {kind : NodeKind}
    (known : walk.kind? id = some kind) :
    walk.settle.graph.convertToSsa.values.kind? id = some kind := by
  rw [← @Analysis.kind?_convertToSsa {}]
  exact sound.kind?_ofWalk_settle known

/-- A settled record is that of its node, which is an allocation. -/
theorem Sound.of_find?_settle (sound : walk.Sound) {id : NodeId} {record : EscapeRecord}
    (found : walk.settle.records.find? id = some record) :
    record.node = id ∧ walk.kind? id = some .allocation := by
  have known : id ∈ walk.records.keys := by
    rw [show walk.records.keys = walk.settle.records.keys from sound.settles.keys_eq.symm]
    exact Table.mem_keys_iff.2 ⟨record, found⟩
  rcases Table.mem_keys_iff.1 known with ⟨first, foundFirst⟩
  rcases sound.settles.record id first foundFirst with ⟨later, foundLater, becomes⟩
  cases found.symm.trans foundLater
  exact ⟨becomes.node_eq.trans (sound.record_new id first foundFirst).1, sound.kind?_of_known known⟩

/-- A node that has a version is a phi, or it belongs to a variable. -/
theorem Sound.kind_of_versioned (sound : walk.Sound) {id : NodeId} {kind : NodeKind}
    (known : walk.kind? id = some kind) (versioned : walk.settle.graph.Versioned id) :
    kind = .phi ∨ kind.isVariable = true := by
  rcases versioned with names | phi
  · rw [sound.settles.flow_eq] at names
    rcases sound.named id names with ⟨key, varKey⟩
    rcases sound.varKey?_kind varKey with ⟨other, knownOther, variable_⟩
    cases known.symm.trans knownOther
    exact .inr variable_
  · rw [sound.kind?_final known] at phi
    exact .inl (Option.some.inj phi)

/-- An orderly walk has made no phis, so those that are linked are new. -/
theorem Sound.phi_of_joins (sound : walk.Sound) (orderly : walk.Orderly config) {id : NodeId}
    (joins : walk.settle.graph.Joins id) : walk.settle.graph.values.size ≤ id ∧
      walk.settle.graph.convertToSsa.values.kind? id = some .phi := by
  refine joins.resolve_left ?_
  rintro ⟨phi, member, -⟩
  rw [sound.settles.flow_eq] at member
  have none : walk.resolveAliases.graph.flow.phis = #[] := orderly.no_phis
  rw [none] at member
  exact Array.not_mem_empty _ member

namespace Isolated

variable {outset : Outset} {stage : Stage} {one two : Walk}
  (isolated : Isolated config outset stage one two) {first second : NodeId}
include isolated

/-! ## What is reached -/

/-- An unknown value is reached in the final graph of the second walk. -/
abbrev ReachesUnknown (two : Walk) (second : NodeId) : Prop :=
  ∃ id kind, two.settle.graph.convertToSsa.values.Reaches second id ∧ two.kind? id = some kind ∧
    kind.initialState = .unknown

theorem initialState_of_versioned {value other : NodeId}
    (receivers : Receivers outset stage value other)
    (versioned : one.settle.graph.Versioned value) :
    ∃ kind, two.kind? other = some kind ∧ kind.initialState = .unknown := by
  obtain ⟨node, twins, receives⟩ := receivers
  obtain ⟨kindOne, kindTwo⟩ := isolated.kind?_eq twins
  refine ⟨node.kind, kindTwo, ?_⟩
  rcases isolated.sound_one.kind_of_versioned kindOne versioned with phi | variable_
  · rw [phi]
    rfl
  · revert receives variable_
    cases node.kind <;> simp [NodeKind.isVariable, NodeKind.initialState]

/-- What an object reaches in the first graph is mirrored in the second one, or it is a new phi.  In
that case an unknown value is reached in the second graph. -/
theorem reaches (paired : Paired outset stage first second)
    (allocates : one.kind? first = some .allocation) {id : NodeId}
    (reaches : one.settle.graph.convertToSsa.values.Reaches first id) :
    (∃ other, Paired outset stage id other ∧
        two.settle.graph.convertToSsa.values.Reaches second other ∧
        (id = first ∨ Receivers outset stage id other)) ∨
      (one.settle.graph.values.size ≤ id ∧
        one.settle.graph.convertToSsa.values.kind? id = some .phi) ∧
          ReachesUnknown two second := by
  induction reaches with
  | refl => exact .inl ⟨second, paired, .refl, .inl rfl⟩
  | tail _ step inductionHypothesis =>
      obtain ⟨edge, listed, rfl, rfl⟩ := step
      rcases DataFlowGraph.of_mem_edges_convertToSsa (Array.mem_toList_iff.1 listed) with
        settled | ⟨versioned, joined⟩
      · rcases inductionHypothesis with ⟨other, sources, reached, -⟩ | ⟨⟨beyond, -⟩, -⟩
        · rcases isolated.exists_edge_settle settled with beside | ⟨twin, listedTwin, edges⟩
          · exact absurd ⟨other, sources⟩ (beside.values _ List.mem_cons_self)
          · obtain rfl := (edges.source.unique sources).1 rfl
            refine .inl ⟨twin.target, edges.target.paired, reached.tail ?_, .inr edges.target⟩
            exact ⟨twin, Array.mem_toList_iff.2 (DataFlowGraph.mem_edges_convertToSsa listedTwin),
              rfl, rfl⟩
        · have known := isolated.sound_one.edgesKnown_settle isolated.orderly_one edge
            (Array.mem_toList_iff.2 settled)
          exact absurd known.1 (Nat.not_lt_of_le beyond)
      · refine .inr ⟨isolated.sound_one.phi_of_joins isolated.orderly_one joined, ?_⟩
        rcases inductionHypothesis with ⟨other, -, reached, same | receivers⟩ | ⟨-, unknown⟩
        · rw [← same] at allocates
          rcases isolated.sound_one.kind_of_versioned allocates versioned with never | never
          · exact NodeKind.noConfusion never
          · exact Bool.noConfusion never
        · obtain ⟨kind, known, initial⟩ := isolated.initialState_of_versioned receivers versioned
          exact ⟨other, kind, reached, known, initial⟩
        · exact unknown

/-! ## States -/

/-- Values that correspond begin in the same state. -/
theorem seed_eq (paired : Paired outset stage first second) {nodeOne nodeTwo : ValueNode}
    (kinds : nodeOne.kind = nodeTwo.kind) (unknownIsBottom : Bool) :
    Propagation.seed unknownIsBottom one.settle.records first nodeOne =
      Propagation.seed unknownIsBottom two.settle.records second nodeTwo := by
  have records := isolated.find?_settle paired
  rw [Propagation.seed, Propagation.seed, kinds]
  generalize one.settle.records.find? first = record at records
  generalize two.settle.records.find? second = another at records
  cases records with
  | none => rfl
  | @some record another same =>
      have states : record.unnumbered.state = another.unnumbered.state :=
        congrArg EscapeRecord.state same
      exact congrArg (EscapeState.mergeWith unknownIsBottom nodeTwo.kind.initialState) states

/-- No object rises higher than the one that corresponds to it. -/
theorem level_le (paired : Paired outset stage first second)
    (allocates : one.kind? first = some .allocation) {unknownIsBottom : Bool}
    {state other : EscapeState}
    (found : (propagate unknownIsBottom one.settle.graph.convertToSsa.values
      one.settle.records).1.state? first = some state)
    (foundTwin : (propagate unknownIsBottom two.settle.graph.convertToSsa.values
      two.settle.records).1.state? second = some other) :
    state.level unknownIsBottom ≤ other.level unknownIsBottom := by
  have knownOne := DataFlowGraph.edgesKnown_convertToSsa
    (isolated.sound_one.edgesKnown_settle isolated.orderly_one)
  have knownTwo := DataFlowGraph.edgesKnown_convertToSsa
    (isolated.sound_two.edgesKnown_settle isolated.orderly_two)
  rw [← EscapeState.mergeWith_eq_left_iff]
  refine (Propagation.isJoin_of_state? knownOne found).least other ?_
  rintro _ ⟨id, node, reaches, foundNode, rfl⟩
  rw [EscapeState.mergeWith_eq_left_iff]
  have kindEq : one.settle.graph.convertToSsa.values.kind? id = some node.kind :=
    Option.map_eq_some_iff.2 ⟨node, foundNode, rfl⟩
  rcases isolated.reaches paired allocates reaches with
    ⟨twin, pairedTwin, reached, -⟩ | ⟨⟨beyond, phi⟩, twin, kind, reached, known, initial⟩
  · obtain ⟨common, twins⟩ := pairedTwin
    obtain ⟨kindOne, kindTwo⟩ := isolated.kind?_eq twins
    rw [isolated.sound_one.kind?_final kindOne, Option.some.injEq] at kindEq
    rcases Option.map_eq_some_iff.1 (isolated.sound_two.kind?_final kindTwo) with
      ⟨nodeTwin, foundTwinNode, kindTwin⟩
    rw [isolated.seed_eq twins.paired (kindEq.symm.trans kindTwin.symm)]
    exact Propagation.seed_le_of_reaches knownTwo reached foundTwinNode foundTwin
  · have unknown : Propagation.seed unknownIsBottom one.settle.records id node = .unknown := by
      rw [phi, Option.some.injEq] at kindEq
      rw [Propagation.seed, ← kindEq]
      cases foundRecord : one.settle.records.find? id with
      | none => rfl
      | some record =>
          have allocated := (isolated.sound_one.of_find?_settle foundRecord).2
          rw [← isolated.sound_one.kind?_settle] at allocated
          exact absurd (Walker.kind?_lt allocated) (Nat.not_lt_of_le beyond)
    rcases Option.map_eq_some_iff.1 (isolated.sound_two.kind?_final known) with
      ⟨nodeTwin, foundTwinNode, kindTwin⟩
    calc (Propagation.seed unknownIsBottom one.settle.records id node).level unknownIsBottom
        = nodeTwin.kind.initialState.level unknownIsBottom := by rw [unknown, kindTwin, initial]
      _ ≤ (Propagation.seed unknownIsBottom two.settle.records twin nodeTwin).level
            unknownIsBottom := Propagation.level_initialState_le_seed
      _ ≤ other.level unknownIsBottom :=
        Propagation.seed_le_of_reaches knownTwo reached foundTwinNode foundTwin

/-- Objects that correspond end in the same state. -/
theorem state?_eq (paired : Paired outset stage first second)
    (allocates : one.kind? first = some .allocation) :
    (Analysis.ofWalk config one.settle).graph.values.state? first =
      (Analysis.ofWalk config two.settle).graph.values.state? second := by
  have allocatesTwin := (isolated.allocation_iff paired).1 allocates
  rcases Option.map_eq_some_iff.1 (isolated.sound_one.kind?_ofWalk_settle allocates) with
    ⟨nodeOne, foundOne, -⟩
  rcases Option.map_eq_some_iff.1 (isolated.sound_two.kind?_ofWalk_settle allocatesTwin) with
    ⟨nodeTwo, foundTwo, -⟩
  have stateOne : (Analysis.ofWalk config one.settle).graph.values.state? first =
      some nodeOne.state := congrArg (Option.map ValueNode.state) foundOne
  have stateTwo : (Analysis.ofWalk config two.settle).graph.values.state? second =
      some nodeTwo.state := congrArg (Option.map ValueNode.state) foundTwo
  rw [stateOne, stateTwo]
  rw [Analysis.values_ofWalk] at stateOne stateTwo
  have below := isolated.level_le paired allocates stateOne stateTwo
  have above := isolated.swap.level_le paired.swap allocatesTwin stateTwo stateOne
  rw [EscapeState.level_injective (Nat.le_antisymm below above)]

/-! ## Final records -/

/-- An object that is used by accesses to fields only corresponds to one that is, too. -/
theorem usedByFieldsOnly_of_paired (paired : Paired outset stage first second)
    (allocates : one.kind? first = some .allocation)
    (only : usedByFieldsOnly (Analysis.ofWalk config one.settle).graph.values first = true) :
    usedByFieldsOnly (Analysis.ofWalk config two.settle).graph.values second = true := by
  have allocatesTwin := (isolated.allocation_iff paired).1 allocates
  have kept {edge : Edge} (settled : edge ∈ one.settle.graph.values.edges) :
      edge ∈ (Analysis.ofWalk config one.settle).graph.values.edges := by
    rw [Analysis.edges_ofWalk]
    exact DataFlowGraph.mem_edges_convertToSsa settled
  rw [Propagation.usedByFieldsOnly_iff] at only ⊢
  rintro edge listed rfl
  have isAllocation : (Analysis.ofWalk config two.settle).graph.values.isAllocation edge.source =
      true := decide_eq_true (isolated.sound_two.kind?_ofWalk_settle allocatesTwin)
  have settled := isolated.sound_two.mem_edges_settle listed isAllocation
  rcases isolated.swap.exists_edge_settle settled with beside | ⟨twin, settledTwin, edges⟩
  · exact absurd ⟨first, paired.swap⟩ (beside.values _ List.mem_cons_self)
  have source : twin.source = first := (edges.source.unique paired.swap).1 rfl
  obtain ⟨⟨kind, known, isField⟩, unshared⟩ := only twin (kept settledTwin) source
  obtain ⟨node, twins⟩ := edges.target.paired
  obtain ⟨kindTwo, kindOne⟩ := isolated.swap.kind?_eq twins
  rw [isolated.sound_one.kind?_ofWalk_settle kindOne, Option.some.injEq] at known
  refine ⟨⟨node.kind, isolated.sound_two.kind?_ofWalk_settle kindTwo, known ▸ isField⟩, ?_⟩
  intro other listedOther targetOther use allocatesOther
  have settledOther := isolated.sound_two.mem_edges_settle listedOther allocatesOther
  rcases isolated.swap.exists_edge_settle settledOther with beside | ⟨shared, settledShared, others⟩
  · rw [BesideEdge, targetOther] at beside
    exact absurd ⟨_, edges.target.paired⟩ (beside.values _ (by simp))
  have target : shared.target = twin.target :=
    (others.target.paired.unique edges.target.paired).1 targetOther
  have allocatesShared :
      (Analysis.ofWalk config one.settle).graph.values.isAllocation shared.source = true := by
    obtain ⟨sourceNode, sourceTwins⟩ := others.source
    obtain ⟨sourceTwo, sourceOne⟩ := isolated.swap.kind?_eq sourceTwins
    rw [ValueGraph.isAllocation, isolated.sound_two.kind?_ofWalk_settle sourceTwo] at allocatesOther
    rw [ValueGraph.isAllocation, isolated.sound_one.kind?_ofWalk_settle sourceOne]
    exact allocatesOther
  have same := unshared shared (kept settledShared) target (others.kind_eq.symm.trans use)
    allocatesShared
  exact (others.source.unique edges.source).2 (same.trans source.symm)

/-- What becomes of records that are the same, but for their nodes. -/
theorem unnumbered_finalRecord (paired : Paired outset stage first second)
    {record another : EscapeRecord} (found : one.settle.records.find? first = some record)
    (foundTwin : two.settle.records.find? second = some another) :
    (Analysis.finalRecord config (Analysis.ofWalk config one.settle).graph.values
        record).unnumbered =
      (Analysis.finalRecord config (Analysis.ofWalk config two.settle).graph.values
        another).unnumbered := by
  obtain ⟨rfl, allocates⟩ := isolated.sound_one.of_find?_settle found
  obtain ⟨rfl, allocatesTwin⟩ := isolated.sound_two.of_find?_settle foundTwin
  have same := isolated.find?_settle paired
  rw [found, foundTwin] at same
  have states := isolated.state?_eq paired allocates
  have judged : usedByFieldsOnly (Analysis.ofWalk config one.settle).graph.values record.node =
      usedByFieldsOnly (Analysis.ofWalk config two.settle).graph.values another.node := by
    rw [Bool.eq_iff_iff]
    exact ⟨isolated.usedByFieldsOnly_of_paired paired allocates,
      isolated.swap.usedByFieldsOnly_of_paired paired.swap allocatesTwin⟩
  cases same with
  | some same =>
      have raised := @Propagation.unnumbered_raise config.unknownIsBottom _ _ _ _ same states
      rw [Analysis.unnumbered_finalRecord, Analysis.unnumbered_finalRecord, raised, judged]

/-- Values that correspond have the same final records, but for their nodes. -/
theorem find?_ofWalk (paired : Paired outset stage first second) :
    Option.Rel (fun record another : EscapeRecord => record.unnumbered = another.unnumbered)
      ((Analysis.ofWalk config one.settle).records.find? first)
      ((Analysis.ofWalk config two.settle).records.find? second) := by
  have settled := isolated.find?_settle paired
  rw [Analysis.find?_ofWalk_eq, Analysis.find?_ofWalk_eq]
  cases found : one.settle.records.find? first with
  | none =>
      rw [found] at settled
      cases foundTwin : two.settle.records.find? second with
      | none => exact .none
      | some another =>
          rw [foundTwin] at settled
          nomatch settled
  | some record =>
      rw [found] at settled
      cases foundTwin : two.settle.records.find? second with
      | none =>
          rw [foundTwin] at settled
          nomatch settled
      | some another => exact .some (isolated.unnumbered_finalRecord paired found foundTwin)

end Isolated

end Walk

end EscapePlan
