import EscapePlan.Proofs.Analysis.Trails
import EscapePlan.Proofs.Placement.Agreement

/-!
# Walks that go on

A walk that goes on takes nothing back: `Walk.Extends` says that whatever one walk has noted, another
one has noted, too.  What is settled of such walks is ordered the same way: variables denote no less,
no edge is missing, and what has escaped has escaped.  So in the end no object of the first is found
higher than in the second, although phis have other numbers there.
-/

namespace EscapePlan

/-- One record of an allocation makes it look no safer than another one does: they differ in nothing
but their states, their trails, their fields and how they are judged. -/
structure EscapeRecord.Retains (unknownIsBottom : Bool) (before after : EscapeRecord) : Prop where
  blank_eq : after.blank = before.blank
  level_le : before.state.level unknownIsBottom ≤ after.state.level unknownIsBottom
  uses : ∀ field, before.Uses field → after.Uses field

namespace Walk

/-- Whatever one walk has noted is noted in another. -/
structure Extends (before after : Walk) : Prop where
  kinds : ∀ id kind, before.kind? id = some kind → after.kind? id = some kind
  edges : ∀ edge ∈ before.graph.values.edges, edge ∈ after.graph.values.edges
  records : ∀ id record, before.records.find? id = some record →
    after.records.find? id = some record
  varKeys : ∀ id key, before.varKey? id = some key → after.varKey? id = some key
  mentions : ∀ mention ∈ before.mentions, mention ∈ after.mentions
  flows : ∀ flow ∈ before.flows, flow ∈ after.flows
  sinks : ∀ sink ∈ before.sinks, sink ∈ after.sinks
  accesses : ∀ access ∈ before.accesses, access ∈ after.accesses
  sites : ∀ site ∈ before.sites, site ∈ after.sites
  truncated : ∀ scope ∈ before.truncated, scope ∈ after.truncated

/-- A phi that is new starts from the unknown state. -/
theorem Sound.seed_phi {walk : Walk} (sound : walk.Sound) {id : NodeId} {node : ValueNode}
    (beyond : walk.settle.graph.values.size ≤ id) (phi : node.kind = .phi)
    (unknownIsBottom : Bool) :
    Propagation.seed unknownIsBottom walk.settle.records id node = .unknown := by
  rw [Propagation.seed, phi]
  cases found : walk.settle.records.find? id with
  | none => rfl
  | some record =>
      have allocated := (sound.of_find?_settle found).2
      rw [← sound.kind?_settle] at allocated
      exact absurd (Walker.kind?_lt allocated) (Nat.not_lt_of_le beyond)

namespace Extends

variable {before after : Walk} {config : Config} (goesOn : before.Extends after)
include goesOn

/-! ## What is settled -/

theorem denotes {key : VarKey} {allocation : NodeId} (sound : before.Sound)
    (denotes : before.Denotes key allocation) : after.Denotes key allocation := by
  induction denotes with
  | allocation flowed kind => exact .allocation (goesOn.flows _ flowed) (goesOn.kinds _ _ kind)
  | @copy key source id allocation flowed other varKey _ inductionHypothesis =>
      rcases sound.varKey?_kind varKey with ⟨kind, known, -⟩
      refine .copy (goesOn.flows _ flowed) ?_ (goesOn.varKeys _ _ varKey) inductionHypothesis
      rw [goesOn.kinds _ _ known]
      rwa [known] at other

variable (sound : before.Sound) (soundAfter : after.Sound)
include sound soundAfter

theorem aliases {value allocation : NodeId}
    (listed : allocation ∈ before.resolveAliases.aliases value) :
    allocation ∈ after.resolveAliases.aliases value := by
  rcases of_mem_aliases_resolveAliases sound listed with ⟨rfl, kind⟩ | ⟨key, varKey, denotes⟩
  · rw [Walk.aliases, if_pos (isAllocation_resolveAliases.2 (goesOn.kinds _ _ kind))]
    exact List.mem_singleton_self allocation
  · exact mem_aliases_resolveAliases soundAfter (goesOn.varKeys _ _ varKey)
      (goesOn.denotes sound denotes)

theorem edges_resolveAliases {edge : Edge}
    (listed : edge ∈ before.resolveAliases.graph.values.edges) :
    edge ∈ after.resolveAliases.graph.values.edges := by
  rcases ValueGraph.mem_foldl_addEdge listed with known | added
  · exact ValueGraph.mem_edges_foldl_addEdge (goesOn.edges edge known)
  · rcases mem_aliasEdges_iff.1 added with ⟨-, key, varKey, denotes, kind⟩
    have pointed : edge.target ∈ after.resolveAliases.graph.values.pointsTo edge.source := by
      rw [mem_pointsTo_resolveAliases soundAfter.unresolved]
      exact ⟨key, goesOn.varKeys _ _ varKey, goesOn.denotes sound denotes⟩
    rw [ValueGraph.mem_pointsTo, ← kind] at pointed
    exact pointed

theorem edges_settle (orderly : before.Orderly config) {edge : Edge}
    (listed : edge ∈ before.settle.graph.values.edges) :
    edge ∈ after.settle.graph.values.edges := by
  rcases sound.of_mem_edges_settle listed with
    resolved | ⟨access, noted, allocation, denoted, rfl⟩ | ⟨sink, noted, allocation, denoted, rfl⟩
  · exact soundAfter.settles.edges edge (goesOn.edges_resolveAliases sound soundAfter resolved)
  · exact soundAfter.joined_access (goesOn.accesses _ noted)
      (goesOn.aliases sound soundAfter denoted)
  · rcases orderly.sink_target sink noted with ⟨kind, known, -⟩
    exact soundAfter.joined_sink (goesOn.sinks _ noted) (goesOn.aliases sound soundAfter denoted)
      (goesOn.kinds _ _ known)

theorem firstSink? {allocation : NodeId} (sunk : (before.firstSink? allocation).isSome) :
    (after.firstSink? allocation).isSome := by
  rw [Walk.firstSink?, List.find?_isSome] at sunk ⊢
  rcases sunk with ⟨sink, noted, denoted⟩
  refine ⟨sink, Array.mem_toList_iff.2 (goesOn.sinks _ (Array.mem_toList_iff.1 noted)), ?_⟩
  rw [decide_eq_true_eq] at denoted ⊢
  exact goesOn.aliases sound soundAfter denoted

theorem cutOff {allocation : NodeId} (cut : before.CutOff allocation) : after.CutOff allocation := by
  rcases cut with ⟨scope, truncated, made⟩ | ⟨mention, noted, truncated, denoted⟩
  · exact .inl ⟨scope, goesOn.truncated _ truncated, goesOn.sites _ made⟩
  · exact .inr ⟨mention, goesOn.mentions _ noted, goesOn.truncated _ truncated,
      goesOn.aliases sound soundAfter denoted⟩

/-- A settled record is found again, and it makes its allocation look no safer. -/
theorem exists_settled {id : NodeId} {record : EscapeRecord}
    (found : before.settle.records.find? id = some record) (unknownIsBottom : Bool) :
    ∃ later, after.settle.records.find? id = some later ∧ record.Retains unknownIsBottom later := by
  have outcome := sound.outcome found
  have accessed (field : String) (uses : record.Uses field) :=
    sound.of_usesField_settle ⟨record, found, uses⟩
  rw [sound.find?_settle] at found
  rcases Option.map_eq_some_iff.1 found with ⟨start, foundStart, rfl⟩
  have known : id ∈ after.records.keys :=
    Table.mem_keys_iff.2 ⟨start, goesOn.records id start foundStart⟩
  have foundAfter : after.settle.records.find? id = some (after.settledRecord id start) := by
    rw [soundAfter.find?_settle, goesOn.records id start foundStart]
    rfl
  refine ⟨_, foundAfter, ?_, ?_, ?_⟩
  · exact (EscapeRecord.blank_settledRecord after id).trans
      (EscapeRecord.blank_settledRecord before id).symm
  · have outcomeAfter := soundAfter.outcome foundAfter
    rcases outcome.state_cases with kept | escaped
    · rw [kept]
      rcases outcomeAfter.state_cases with same | higher
      · rw [same]
      · rw [higher]
        cases unknownIsBottom <;> decide
    · have escapes := outcomeAfter.state_eq_iff.2 ((outcome.state_eq_iff.1 escaped).imp
        (goesOn.firstSink? sound soundAfter) (goesOn.cutOff sound soundAfter))
      rw [escaped, escapes]
  · intro field uses
    rcases accessed field uses with ⟨access, noted, same, denoted⟩
    rcases soundAfter.usesField_settle (goesOn.accesses _ noted)
      (goesOn.aliases sound soundAfter denoted) known same with ⟨later, foundLater, usesLater⟩
    cases foundAfter.symm.trans foundLater
    exact usesLater

/-! ## What is reached -/

/-- What an allocation reaches is reached again, or it is a phi.  In that case a value that starts
from the unknown state is reached again. -/
theorem reaches (orderly : before.Orderly config) {first id : NodeId}
    (allocates : before.kind? first = some .allocation)
    (reaches : before.settle.graph.convertToSsa.values.Reaches first id) :
    (∃ kind, before.kind? id = some kind ∧
        after.settle.graph.convertToSsa.values.Reaches first id ∧
        (id = first ∨ kind ≠ .parameter)) ∨
      (before.settle.graph.values.size ≤ id ∧
        before.settle.graph.convertToSsa.values.kind? id = some .phi) ∧
          Isolated.ReachesUnknown after first := by
  induction reaches with
  | refl => exact .inl ⟨.allocation, allocates, .refl, .inl rfl⟩
  | tail _ step inductionHypothesis =>
      rcases step with ⟨edge, listed, rfl, rfl⟩
      rcases DataFlowGraph.of_mem_edges_convertToSsa (Array.mem_toList_iff.1 listed) with
        settled | ⟨versioned, joined⟩
      · rcases inductionHypothesis with ⟨-, -, reached, -⟩ | ⟨⟨beyond, -⟩, -⟩
        · rcases sound.settled_target orderly settled with ⟨kind, known, other⟩
          refine .inl ⟨kind, known, reached.tail ⟨edge, Array.mem_toList_iff.2 ?_, rfl, rfl⟩, .inr other⟩
          exact DataFlowGraph.mem_edges_convertToSsa
            (goesOn.edges_settle sound soundAfter orderly settled)
        · have known := sound.edgesKnown_settle orderly edge (Array.mem_toList_iff.2 settled)
          exact absurd known.1 (Nat.not_lt_of_le beyond)
      · refine .inr ⟨sound.phi_of_joins orderly joined, ?_⟩
        rcases inductionHypothesis with ⟨kind, known, reached, place⟩ | ⟨-, unknown⟩
        · refine ⟨edge.source, kind, reached, goesOn.kinds _ _ known, ?_⟩
          have other : kind ≠ .parameter := by
            rcases place with same | other
            · rw [same, allocates] at known
              cases known
              decide
            · exact other
          rcases sound.kind_of_versioned known versioned with phi | variable_
          · rw [phi]
            rfl
          · revert other variable_
            cases kind <;> decide
        · exact unknown

/-- A value that there was starts from no lower state. -/
theorem seed_le {id : NodeId} {node nodeAfter : ValueNode} (kinds : nodeAfter.kind = node.kind)
    (unknownIsBottom : Bool) :
    (Propagation.seed unknownIsBottom before.settle.records id node).level unknownIsBottom ≤
      (Propagation.seed unknownIsBottom after.settle.records id nodeAfter).level
        unknownIsBottom := by
  rw [Propagation.seed]
  cases found : before.settle.records.find? id with
  | none =>
      rw [← kinds]
      exact Propagation.level_initialState_le_seed
  | some record =>
      rcases goesOn.exists_settled sound soundAfter found unknownIsBottom with
        ⟨later, foundLater, retains⟩
      rw [Propagation.seed, foundLater, kinds, EscapeState.level_mergeWith,
        EscapeState.level_mergeWith]
      exact max_le_max_left _ retains.level_le

/-- No allocation rises higher than it does when the walk goes on. -/
theorem level_le (orderly : before.Orderly config) (orderlyAfter : after.Orderly config)
    {first : NodeId} (allocates : before.kind? first = some .allocation) {unknownIsBottom : Bool}
    {state later : EscapeState}
    (found : (propagate unknownIsBottom before.settle.graph.convertToSsa.values
      before.settle.records).1.state? first = some state)
    (foundAfter : (propagate unknownIsBottom after.settle.graph.convertToSsa.values
      after.settle.records).1.state? first = some later) :
    state.level unknownIsBottom ≤ later.level unknownIsBottom := by
  have known := DataFlowGraph.edgesKnown_convertToSsa (sound.edgesKnown_settle orderly)
  have knownAfter := DataFlowGraph.edgesKnown_convertToSsa
    (soundAfter.edgesKnown_settle orderlyAfter)
  rw [← EscapeState.mergeWith_eq_left_iff]
  refine (Propagation.isJoin_of_state? known found).least later ?_
  rintro _ ⟨id, node, reaches, foundNode, rfl⟩
  rw [EscapeState.mergeWith_eq_left_iff]
  have kindEq : before.settle.graph.convertToSsa.values.kind? id = some node.kind :=
    Option.map_eq_some_iff.2 ⟨node, foundNode, rfl⟩
  rcases goesOn.reaches sound soundAfter orderly allocates reaches with
    ⟨kind, knownKind, reached, -⟩ | ⟨⟨beyond, phi⟩, last, kind, reached, knownKind, initial⟩
  · rw [sound.kind?_final knownKind, Option.some.injEq] at kindEq
    rcases Option.map_eq_some_iff.1 (soundAfter.kind?_final (goesOn.kinds _ _ knownKind)) with
      ⟨nodeAfter, foundNodeAfter, kindAfter⟩
    exact Nat.le_trans (goesOn.seed_le sound soundAfter (kindAfter.trans kindEq) unknownIsBottom)
      (Propagation.seed_le_of_reaches knownAfter reached foundNodeAfter foundAfter)
  · rw [phi, Option.some.injEq] at kindEq
    rcases Option.map_eq_some_iff.1 (soundAfter.kind?_final knownKind) with
      ⟨nodeAfter, foundNodeAfter, kindAfter⟩
    calc (Propagation.seed unknownIsBottom before.settle.records id node).level unknownIsBottom
        = nodeAfter.kind.initialState.level unknownIsBottom := by
          rw [sound.seed_phi beyond kindEq.symm unknownIsBottom, kindAfter, initial]
      _ ≤ (Propagation.seed unknownIsBottom after.settle.records last nodeAfter).level
            unknownIsBottom := Propagation.level_initialState_le_seed
      _ ≤ later.level unknownIsBottom :=
        Propagation.seed_le_of_reaches knownAfter reached foundNodeAfter foundAfter

/-- Every final record is found again, and it makes its allocation look no safer. -/
theorem exists_final (orderly : before.Orderly config) (orderlyAfter : after.Orderly config)
    {id : NodeId} {record : EscapeRecord}
    (found : (Analysis.ofWalk config before.settle).records.find? id = some record) :
    ∃ later, (Analysis.ofWalk config after.settle).records.find? id = some later ∧
      record.Retains config.unknownIsBottom later := by
  have state := (Analysis.ends sound orderly found).1
  rw [Analysis.find?_ofWalk_eq] at found
  rcases Option.map_eq_some_iff.1 found with ⟨settled, foundSettled, rfl⟩
  rcases goesOn.exists_settled sound soundAfter foundSettled config.unknownIsBottom with
    ⟨later, foundLater, retains⟩
  have foundAfter : (Analysis.ofWalk config after.settle).records.find? id =
      some (Analysis.finalRecord config (Analysis.ofWalk config after.settle).graph.values
        later) := by
    rw [Analysis.find?_ofWalk_eq, foundLater]
    rfl
  have stateAfter := (Analysis.ends soundAfter orderlyAfter foundAfter).1
  rw [Analysis.values_ofWalk] at state stateAfter
  have allocates := (sound.of_find?_settle foundSettled).2
  refine ⟨_, foundAfter, ?_, ?_, fun field uses => ?_⟩
  · rw [Analysis.blank_finalRecord, Analysis.blank_finalRecord]
    exact retains.blank_eq
  · exact goesOn.level_le sound soundAfter orderly orderlyAfter allocates state stateAfter
  · rw [EscapeRecord.Uses, Analysis.finalRecord] at uses ⊢
    rw [Propagation.fields_raise] at uses ⊢
    exact retains.uses field uses

end Extends

end Walk

end EscapePlan
