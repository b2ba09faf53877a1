import Mathlib
import EscapePlan.Proofs.Isolation.States

/-!
# States and trails explain each other

An object escapes through the first sink that it meets; or because it is made or denoted where part
of the tree was cut off; or because it flows into something that escapes.  The trail of its record
names the first of these that applies, and nothing else.

No value is led to a parameter, so no object is found to be reachable from an argument.
-/

namespace EscapePlan

namespace EscapeState

variable {unknownIsBottom : Bool} {states : EscapeState → Prop} {state : EscapeState}

/-- No join of other states is the one of an argument. -/
theorem IsJoin.ne_argEscape (join : IsJoin unknownIsBottom states state)
    (never : ¬ states .argEscape) : state ≠ .argEscape := by
  rintro rfl
  have confined := join.least .noEscape fun other member => by
    have absorbed := join.absorbs other member
    have different : other ≠ .argEscape := fun same => never (same ▸ member)
    revert absorbed different
    cases unknownIsBottom <;> cases other <;> decide
  revert confined
  cases unknownIsBottom <;> decide

theorem IsJoin.eq_globalEscape (join : IsJoin true states state) (escapes : states .globalEscape) :
    state = .globalEscape := by
  have absorbed := join.absorbs .globalEscape escapes
  revert absorbed
  cases state <;> decide

theorem IsJoin.eq_noEscape (join : IsJoin true states state) (own : states .noEscape)
    (confined : ∀ other, states other → other = .noEscape ∨ other = .unknown) :
    state = .noEscape := by
  have low := join.least .noEscape fun other member => by
    rcases confined other member with rfl | rfl
    · rfl
    · rfl
  have absorbed := join.absorbs .noEscape own
  revert low absorbed
  cases state <;> decide

end EscapeState

/-- Of the kinds of values that are neither parameters nor allocations, two escape for good. -/
theorem NodeKind.initialState_spec {kind : NodeKind} (noParameter : kind ≠ .parameter)
    (noAllocation : kind ≠ .allocation) :
    kind.initialState ≠ .argEscape ∧
      (kind.initialState = .globalEscape ↔ kind = .returnValue ∨ kind = .globalVar) := by
  revert noParameter noAllocation
  cases kind <;> decide

/-! ## Records that are settled -/

namespace EscapeRecord

variable {record : EscapeRecord}

theorem escalate_of_noEscape (confined : record.state = .noEscape) (reason : EscapeReason)
    (position : Option Position) :
    record.escalate .globalEscape reason position =
      { record with
        state := .globalEscape
        trail := record.trail ++ [⟨position, reason⟩] } := by
  rw [escalate, confined]
  rfl

theorem escalate_of_globalEscape (escapes : record.state = .globalEscape) (reason : EscapeReason)
    (position : Option Position) : record.escalate .globalEscape reason position = record := by
  rw [escalate, escapes]
  rfl

theorem state_access (access : Access) : (record.access access).state = record.state := by
  rw [EscapeRecord.access]
  split <;> rfl

theorem trail_access (access : Access) : (record.access access).trail = record.trail := by
  rw [EscapeRecord.access]
  split <;> rfl

variable {meets : Sink → Prop} [DecidablePred meets]

theorem foldl_sink_of_globalEscape (escapes : record.state = .globalEscape) (sinks : List Sink) :
    sinks.foldl (fun record sink => if meets sink then record.sink sink else record) record =
      record := by
  induction sinks with
  | nil => rfl
  | cons sink rest inductionHypothesis =>
      rw [List.foldl_cons, EscapeRecord.sink, escalate_of_globalEscape escapes, ite_self]
      exact inductionHypothesis

/-- Only the first of several sinks leaves a trace. -/
theorem foldl_sink_eq (sinks : List Sink) :
    sinks.foldl (fun record sink => if meets sink then record.sink sink else record) record =
      (sinks.find? (meets ·)).elim record record.sink := by
  induction sinks with
  | nil => rfl
  | cons sink rest inductionHypothesis =>
      rw [List.foldl_cons]
      by_cases met : meets sink
      · rw [if_pos met, List.find?_cons, decide_eq_true met]
        exact foldl_sink_of_globalEscape (record.state_escalate_globalEscape _ _) rest
      · rw [if_neg met, List.find?_cons, decide_eq_false met]
        exact inductionHypothesis

end EscapeRecord

namespace Walk

/-- The first sink that was noted and whose value may denote an allocation. -/
def firstSink? (walk : Walk) (allocation : NodeId) : Option Sink :=
  walk.sinks.toList.find? (allocation ∈ walk.resolveAliases.aliases ·.value)

/-- An allocation is made in a scope in which part of the tree was cut off, or a variable of such a
scope may denote it. -/
def CutOff (walk : Walk) (allocation : NodeId) : Prop :=
  (∃ scope ∈ walk.truncated, (allocation, scope) ∈ walk.sites) ∨
    ∃ mention ∈ walk.mentions, mention.2.scope ∈ walk.truncated ∧
      allocation ∈ walk.resolveAliases.aliases mention.1

/-- The state and the trail of an allocation once a walk is settled. -/
inductive Outcome (walk : Walk) (allocation : NodeId) : EscapeState → List EscapePoint → Prop where
  | sunk {sink : Sink} (first : walk.firstSink? allocation = some sink) :
      walk.Outcome allocation .globalEscape [⟨sink.position, sink.reason⟩]
  | cutOff (unsunk : walk.firstSink? allocation = none) (cut : walk.CutOff allocation) :
      walk.Outcome allocation .globalEscape [⟨none, .passedToUnknown⟩]
  | kept (unsunk : walk.firstSink? allocation = none) (uncut : ¬ walk.CutOff allocation) :
      walk.Outcome allocation .noEscape []

variable {walk : Walk} {config : Config} {id : NodeId}

theorem Outcome.state_cases {state : EscapeState} {trail : List EscapePoint}
    (outcome : walk.Outcome id state trail) : state = .noEscape ∨ state = .globalEscape := by
  cases outcome with
  | sunk => exact .inr rfl
  | cutOff => exact .inr rfl
  | kept => exact .inl rfl

theorem Outcome.state_eq_iff {state : EscapeState} {trail : List EscapePoint}
    (outcome : walk.Outcome id state trail) :
    state = .globalEscape ↔ (walk.firstSink? id).isSome ∨ walk.CutOff id := by
  cases outcome with
  | sunk first => simp [first]
  | cutOff unsunk cut => simp [cut]
  | kept unsunk uncut => simp [unsunk, uncut]

/-- Accesses let nothing escape. -/
theorem accessedRecord_kept (record : EscapeRecord) :
    (walk.accessedRecord id record).state = record.state ∧
      (walk.accessedRecord id record).trail = record.trail := by
  let kept (later : EscapeRecord) : Prop :=
    later.state = record.state ∧ later.trail = record.trail
  refine List.foldlRecOn (motive := kept) _ _ ⟨rfl, rfl⟩ fun later same access _ => ?_
  split
  next => exact ⟨later.state_access access |>.trans same.1, later.trail_access access |>.trans same.2⟩
  next => exact same

/-- What becomes of the record of an allocation when its walk is settled. -/
theorem Sound.outcome (sound : walk.Sound) {record : EscapeRecord}
    (found : walk.settle.records.find? id = some record) :
    walk.Outcome id record.state record.trail := by
  rw [sound.find?_settle] at found
  rcases Option.map_eq_some_iff.1 found with ⟨start, foundStart, rfl⟩
  rcases sound.record_new id start foundStart with ⟨-, confined, trail, -⟩
  rcases @accessedRecord_kept walk id start with ⟨keptState, keptTrail⟩
  rw [confined] at keptState
  rw [trail] at keptTrail
  have sunk : walk.sunkRecord id start =
      (walk.firstSink? id).elim (walk.accessedRecord id start) (walk.accessedRecord id start).sink :=
    EscapeRecord.foldl_sink_eq walk.sinks.toList
  rw [settledRecord, sunk]
  generalize walk.accessedRecord id start = accessed at keptState keptTrail
  cases first : walk.firstSink? id with
  | some sink =>
      have escapes := accessed.state_escalate_globalEscape sink.reason sink.position
      rw [Option.elim_some, EscapeRecord.sink, EscapeRecord.escalate_of_globalEscape escapes,
        ite_self, EscapeRecord.escalate_of_noEscape keptState, keptTrail]
      exact .sunk first
  | none =>
      rw [Option.elim_none]
      split
      next cut =>
        rw [EscapeRecord.escalate_of_noEscape keptState, keptTrail]
        exact .cutOff first (sound.mem_truncatedReach.1 cut)
      next uncut =>
        rw [keptState, keptTrail]
        exact .kept first (mt sound.mem_truncatedReach.2 uncut)

/-! ## Where values flow -/

/-- A value lets escape whatever flows into it: it leaves its function, it is global, or it is an
allocation that has escaped when its walk was settled. -/
def LetsGo (walk : Walk) (graph : ValueGraph) (id : NodeId) : Prop :=
  graph.kind? id = some .returnValue ∨ graph.kind? id = some .globalVar ∨
    graph.kind? id = some .allocation ∧ ((walk.firstSink? id).isSome ∨ walk.CutOff id)

/-- A value flows into one that lets it escape. -/
def Leaks (walk : Walk) (graph : ValueGraph) (id : NodeId) : Prop :=
  ∃ last, graph.Reaches id last ∧ walk.LetsGo graph last

/-- The trail that an allocation at a position has in the end. -/
inductive Explains (walk : Walk) (graph : ValueGraph) (allocation : NodeId)
    (position : Option Position) : List EscapePoint → Prop where
  | sunk {sink : Sink} (first : walk.firstSink? allocation = some sink) :
      walk.Explains graph allocation position [⟨sink.position, sink.reason⟩]
  | cutOff (unsunk : walk.firstSink? allocation = none) (cut : walk.CutOff allocation) :
      walk.Explains graph allocation position [⟨none, .passedToUnknown⟩]
  | flows (unsunk : walk.firstSink? allocation = none) (uncut : ¬ walk.CutOff allocation)
      (leaks : walk.Leaks graph allocation) :
      walk.Explains graph allocation position [⟨position, .flowsToEscapingValue⟩]
  | confined (unsunk : walk.firstSink? allocation = none) (uncut : ¬ walk.CutOff allocation)
      (confined : ¬ walk.Leaks graph allocation) :
      walk.Explains graph allocation position []

/-- No edge of the final graph enters a parameter. -/
theorem Sound.final_target (sound : walk.Sound) (orderly : walk.Orderly config) {edge : Edge}
    (listed : edge ∈ walk.settle.graph.convertToSsa.values.edges) :
    walk.settle.graph.convertToSsa.values.kind? edge.target ≠ some .parameter := by
  rcases DataFlowGraph.of_mem_edges_convertToSsa listed with old | ⟨-, joins⟩
  · rcases sound.settled_target orderly old with ⟨kind, known, other⟩
    rw [sound.kind?_final known]
    exact mt Option.some.inj other
  · rw [(sound.phi_of_joins orderly joins).2]
    decide

/-- What an allocation flows into is no parameter. -/
theorem Sound.kind?_ne_parameter (sound : walk.Sound) (orderly : walk.Orderly config)
    {last : NodeId} (allocates : walk.settle.graph.convertToSsa.values.kind? id = some .allocation)
    (reaches : walk.settle.graph.convertToSsa.values.Reaches id last) :
    walk.settle.graph.convertToSsa.values.kind? last ≠ some .parameter := by
  cases reaches with
  | refl =>
      rw [allocates]
      decide
  | tail _ flows =>
      rcases flows with ⟨edge, listed, -, rfl⟩
      exact sound.final_target orderly (Array.mem_toList_iff.1 listed)

theorem Sound.kind?_of_final (sound : walk.Sound) {kind : NodeKind}
    (found : walk.settle.graph.convertToSsa.values.kind? id = some kind) :
    walk.kind? id = some kind ∨ kind = .phi := by
  rw [DataFlowGraph.kind?_convertToSsa] at found
  refine (DataFlowGraph.kind?_of_foldl_placePhi found).imp_left fun old => ?_
  exact (sound.kind?_settle id).symm.trans old

/-! ## Where values start from -/

section

variable (sound : walk.Sound) (recorded : walk.Recorded)
include sound recorded

theorem Sound.exists_record (allocates : walk.kind? id = some .allocation) :
    ∃ record, walk.settle.records.find? id = some record := by
  apply Table.mem_keys_iff.1
  rw [show walk.settle.records.keys = walk.records.keys from sound.settles.keys_eq]
  exact recorded id allocates

/-- An allocation starts from the state of its record, and any other value from that of its
kind. -/
theorem Sound.seed_eq {node : ValueNode}
    (found : walk.settle.graph.convertToSsa.values.node? id = some node)
    (unknownIsBottom : Bool) :
    (node.kind ≠ .allocation ∧
      Propagation.seed unknownIsBottom walk.settle.records id node = node.kind.initialState) ∨
    node.kind = .allocation ∧ ∃ trail, walk.Outcome id
      (Propagation.seed unknownIsBottom walk.settle.records id node) trail := by
  have kind : walk.settle.graph.convertToSsa.values.kind? id = some node.kind :=
    Option.map_eq_some_iff.2 ⟨node, found, rfl⟩
  rw [Propagation.seed]
  cases foundRecord : walk.settle.records.find? id with
  | none =>
      refine .inl ⟨fun allocates => ?_, rfl⟩
      rw [allocates] at kind
      rcases sound.kind?_of_final kind with known | other
      · rcases sound.exists_record recorded known with ⟨record, present⟩
        exact absurd (present.symm.trans foundRecord) (Option.some_ne_none record)
      · exact absurd other (by decide)
  | some record =>
      have allocates := sound.kind?_final (sound.of_find?_settle foundRecord).2
      have outcome := sound.outcome foundRecord
      rw [kind] at allocates
      refine .inr ⟨Option.some.inj allocates, record.trail, ?_⟩
      have merged : node.kind.initialState.mergeWith unknownIsBottom record.state = record.state := by
        rw [Option.some.inj allocates]
        rcases outcome.state_cases with same | same
        · rw [same]
          cases unknownIsBottom <;> rfl
        · rw [same]
          cases unknownIsBottom <;> rfl
      dsimp only
      rw [merged]
      exact outcome

/-- A value that is no parameter starts from escaping for good if it lets escape whatever flows into
it, and not from being reachable from an argument. -/
theorem Sound.seed_spec {node : ValueNode}
    (found : walk.settle.graph.convertToSsa.values.node? id = some node)
    (other : node.kind ≠ .parameter) (unknownIsBottom : Bool) :
    Propagation.seed unknownIsBottom walk.settle.records id node ≠ .argEscape ∧
      (Propagation.seed unknownIsBottom walk.settle.records id node = .globalEscape ↔
        walk.LetsGo walk.settle.graph.convertToSsa.values id) := by
  have kind : walk.settle.graph.convertToSsa.values.kind? id = some node.kind :=
    Option.map_eq_some_iff.2 ⟨node, found, rfl⟩
  rw [LetsGo, kind]
  rcases sound.seed_eq recorded found unknownIsBottom with ⟨value, seed⟩ | ⟨allocates, trail, outcome⟩
  · rw [seed]
    rcases NodeKind.initialState_spec other value with ⟨local_, global⟩
    refine ⟨local_, global.trans ?_⟩
    simp only [Option.some.injEq, value, false_and, or_false]
  · refine ⟨?_, outcome.state_eq_iff.trans ?_⟩
    · rcases outcome.state_cases with same | same
      · rw [same]
        decide
      · rw [same]
        decide
    · simp only [allocates, Option.some.injEq, reduceCtorEq, false_or, true_and]

end

/-! ## Where allocations end -/

/-- Settled records are those of allocations. -/
theorem Sound.recordsKnown (sound : walk.Sound) :
    Propagation.RecordsKnown walk.settle.graph.convertToSsa.values walk.settle.records := by
  intro entry member
  rcases sound.of_find?_settle (Table.find?_eq_some_iff.2 member) with ⟨node, known⟩
  exact ⟨node, decide_eq_true (sound.kind?_final known)⟩

end Walk

namespace Analysis

open Propagation (SeedReached withState)
open Walk (Sound Orderly Recorded)

variable {walk : Walk} {config : Config} {id : NodeId}

theorem reaches_ofWalk {first last : NodeId} :
    (ofWalk config walk).graph.values.Reaches first last ↔
      walk.graph.convertToSsa.values.Reaches first last := by
  have same : (ofWalk config walk).graph.values.FlowsInto =
      walk.graph.convertToSsa.values.FlowsInto := by
    funext source target
    rw [ValueGraph.FlowsInto, edges_ofWalk]
    rfl
  rw [ValueGraph.Reaches, same]

/-- A final record is the settled one in the state of its node, which is a join. -/
theorem ends (sound : walk.Sound) (orderly : walk.Orderly config) {record : EscapeRecord}
    (found : (ofWalk config walk.settle).records.find? id = some record) :
    (ofWalk config walk.settle).graph.values.state? id = some record.state ∧
      record.state.IsJoin config.unknownIsBottom
        (SeedReached config.unknownIsBottom walk.settle.records
          walk.settle.graph.convertToSsa.values id) ∧
      ∃ settled, walk.settle.records.find? id = some settled ∧
        record.position = settled.position ∧
        record.trail = (withState settled record.state).trail := by
  rw [find?_ofWalk_eq] at found
  rcases Option.map_eq_some_iff.1 found with ⟨settled, foundSettled, rfl⟩
  rcases @Propagation.raise_propagate config.unknownIsBottom _ _ sound.recordsKnown id settled
    foundSettled with ⟨state, foundState, raised⟩
  have known := DataFlowGraph.edgesKnown_convertToSsa (sound.edgesKnown_settle orderly)
  rw [finalRecord, values_ofWalk, raised]
  exact ⟨foundState, Propagation.isJoin_of_state? known foundState, settled, foundSettled, rfl, rfl⟩

/-- What the seeds are that an allocation reaches. -/
theorem seedReached_spec (sound : walk.Sound) (orderly : walk.Orderly config)
    (recorded : walk.Recorded) (allocates : walk.kind? id = some .allocation)
    (unknownIsBottom : Bool) :
    let graph := walk.settle.graph.convertToSsa.values
    ¬ SeedReached unknownIsBottom walk.settle.records graph id .argEscape ∧
      (SeedReached unknownIsBottom walk.settle.records graph id .globalEscape ↔
        walk.Leaks graph id) := by
  intro graph
  have spec {last : NodeId} {node : ValueNode} (reaches : graph.Reaches id last)
      (found : graph.node? last = some node) :=
    sound.seed_spec recorded found (fun parameter =>
      sound.kind?_ne_parameter orderly (sound.kind?_final allocates) reaches
        (Option.map_eq_some_iff.2 ⟨node, found, parameter⟩)) unknownIsBottom
  constructor
  · rintro ⟨last, node, reaches, found, seed⟩
    exact (spec reaches found).1 seed.symm
  · constructor
    · rintro ⟨last, node, reaches, found, seed⟩
      exact ⟨last, reaches, (spec reaches found).2.1 seed.symm⟩
    · rintro ⟨last, reaches, letsGo⟩
      have known : ∃ kind, graph.kind? last = some kind := by
        rcases letsGo with kind | kind | ⟨kind, -⟩
        · exact ⟨_, kind⟩
        · exact ⟨_, kind⟩
        · exact ⟨_, kind⟩
      rcases known with ⟨kind, known⟩
      rcases Option.map_eq_some_iff.1 known with ⟨node, found, -⟩
      exact ⟨last, node, reaches, found, ((spec reaches found).2.2 letsGo).symm⟩

theorem mem_keys_iff (sound : walk.Sound) (recorded : walk.Recorded) :
    id ∈ (ofWalk config walk.settle).records.keys ↔
      (ofWalk config walk.settle).graph.values.kind? id = some .allocation := by
  rw [keys_ofWalk, kind?_convertToSsa, Table.mem_keys_iff]
  constructor
  · rintro ⟨record, found⟩
    exact sound.kind?_final (sound.of_find?_settle found).2
  · intro allocates
    rcases sound.kind?_of_final allocates with known | other
    · exact sound.exists_record recorded known
    · exact absurd other (by decide)

/-- What the record of an allocation says in the end: the state is that of the node, and the trail
tells why it is what it is. -/
structure Accounted (config : Config) (walk : Walk) (graph : ValueGraph) (allocation : NodeId)
    (record : EscapeRecord) : Prop where
  state_eq : graph.state? allocation = some record.state
  state_ne : record.state ≠ .argEscape
  state_cases : config.unknownIsBottom = true →
    record.state = .noEscape ∨ record.state = .globalEscape
  explains : config.unknownIsBottom = true →
    walk.Explains graph allocation record.position record.trail
  trail_eq_nil_iff : config.unknownIsBottom = true →
    (record.trail = [] ↔ record.state = .noEscape)

/-- With the unknown state at the bottom, an allocation ends in one of two states. -/
theorem state_of_isJoin (sound : walk.Sound) (orderly : walk.Orderly config)
    (recorded : walk.Recorded) (allocates : walk.kind? id = some .allocation) {state : EscapeState}
    (join : state.IsJoin true
      (SeedReached true walk.settle.records walk.settle.graph.convertToSsa.values id)) :
    state = .globalEscape ∧ walk.Leaks walk.settle.graph.convertToSsa.values id ∨
      state = .noEscape ∧ ¬ walk.Leaks walk.settle.graph.convertToSsa.values id := by
  rcases seedReached_spec sound orderly recorded allocates true with ⟨noArgument, global⟩
  by_cases leaks : walk.Leaks walk.settle.graph.convertToSsa.values id
  · exact .inl ⟨join.eq_globalEscape (global.2 leaks), leaks⟩
  · have low : ∀ other, SeedReached true walk.settle.records
        walk.settle.graph.convertToSsa.values id other → other = .noEscape ∨ other = .unknown := by
      intro other reached
      cases other with
      | noEscape => exact .inl rfl
      | argEscape => exact absurd reached noArgument
      | globalEscape => exact absurd (global.1 reached) leaks
      | unknown => exact .inr rfl
    rcases Option.map_eq_some_iff.1 (sound.kind?_final allocates) with ⟨node, found, kind⟩
    rcases sound.seed_eq recorded found true with ⟨value, -⟩ | ⟨-, trail, outcome⟩
    · exact absurd kind value
    · have own : SeedReached true walk.settle.records walk.settle.graph.convertToSsa.values id
          (Propagation.seed true walk.settle.records id node) := ⟨id, node, .refl, found, rfl⟩
      rcases outcome.state_cases with confined | escapes
      · rw [confined] at own
        exact .inr ⟨join.eq_noEscape own low, leaks⟩
      · rw [escapes] at own
        exact absurd (global.1 own) leaks

/-- The trail of a record that was settled one way and has ended another. -/
theorem explains_of_outcome {graph : ValueGraph} {settled : EscapeRecord}
    (outcome : walk.Outcome id settled.state settled.trail)
    (allocates : graph.kind? id = some .allocation) {state : EscapeState}
    (ends : state = .globalEscape ∧ walk.Leaks graph id ∨ state = .noEscape ∧ ¬ walk.Leaks graph id) :
    walk.Explains graph id settled.position (withState settled state).trail ∧
      ((withState settled state).trail = [] ↔ state = .noEscape) := by
  have leaks (escapes : (walk.firstSink? id).isSome ∨ walk.CutOff id) : walk.Leaks graph id :=
    ⟨id, .refl, .inr (.inr ⟨allocates, escapes⟩)⟩
  rw [withState]
  dsimp only
  generalize settled.state = before at outcome
  generalize settled.trail = trail at outcome
  cases outcome with
  | sunk first =>
      rcases ends with ⟨rfl, -⟩ | ⟨-, confined⟩
      · exact ⟨.sunk first, by simp⟩
      · exact absurd (leaks (.inl (by simp [first]))) confined
  | cutOff unsunk cut =>
      rcases ends with ⟨rfl, -⟩ | ⟨-, confined⟩
      · exact ⟨.cutOff unsunk cut, by simp⟩
      · exact absurd (leaks (.inr cut)) confined
  | kept unsunk uncut =>
      rcases ends with ⟨rfl, leaks⟩ | ⟨rfl, confined⟩
      · exact ⟨.flows unsunk uncut leaks, by simp⟩
      · exact ⟨.confined unsunk uncut confined, by simp⟩

theorem leaks_ofWalk {other : Walk} :
    other.Leaks (ofWalk config walk).graph.values id ↔
      other.Leaks walk.graph.convertToSsa.values id := by
  simp only [Walk.Leaks, Walk.LetsGo, reaches_ofWalk, kind?_convertToSsa]

theorem accounted (sound : walk.Sound) (orderly : walk.Orderly config) (recorded : walk.Recorded)
    {record : EscapeRecord} (found : (ofWalk config walk.settle).records.find? id = some record) :
    Accounted config walk (ofWalk config walk.settle).graph.values id record := by
  rcases ends sound orderly found with ⟨stateEq, join, settled, foundSettled, position, trail⟩
  have allocates := (sound.of_find?_settle foundSettled).2
  have bottom (isBottom : config.unknownIsBottom = true) :
      record.state = .globalEscape ∧ walk.Leaks (ofWalk config walk.settle).graph.values id ∨
        record.state = .noEscape ∧ ¬ walk.Leaks (ofWalk config walk.settle).graph.values id := by
    rw [isBottom] at join
    rw [leaks_ofWalk]
    exact state_of_isJoin sound orderly recorded allocates join
  have explained (isBottom : config.unknownIsBottom = true) :=
    explains_of_outcome (sound.outcome foundSettled) (sound.kind?_ofWalk_settle allocates)
      (bottom isBottom)
  rw [← position, ← trail] at explained
  exact
    { state_eq := stateEq
      state_ne := join.ne_argEscape (seedReached_spec sound orderly recorded allocates _).1
      state_cases := fun isBottom => (bottom isBottom).elim (.inr ·.1) (.inl ·.1)
      explains := fun isBottom => (explained isBottom).1
      trail_eq_nil_iff := fun isBottom => (explained isBottom).2 }

/-- The records of an analysis are those of the allocations in its graph.  The state of a record is
that of its node, and none is that of an argument; with the unknown state at the bottom, the trail
of a record tells what its object escapes through, and it is empty if the object does not escape. -/
theorem accounted_ofTree (config : Config) (tree : Tree) :
    let analysis := ofTree config tree
    (∀ id, id ∈ analysis.records.keys ↔ analysis.graph.values.kind? id = some .allocation) ∧
      ∀ id record, analysis.records.find? id = some record →
        Accounted config (Walk.ofTree config tree depthLimit) analysis.graph.values id record := by
  have sound := (Walk.ofTree_accounts config tree depthLimit).sound
  have recorded := Walk.ofTree_recorded config tree depthLimit
  have orderly := Walk.ofTree_orderly config tree depthLimit
  exact ⟨fun _ => mem_keys_iff sound recorded, fun _ _ => accounted sound orderly recorded⟩

/-- A field of one object is returned, another object is returned itself, and nothing is done with a
third one. -/
def threeObjects : Tree where
  root := ⟨0⟩
  strings := .empty
  nodes := #[⟨.root [⟨1⟩, ⟨4⟩, ⟨6⟩, ⟨8⟩], none⟩, ⟨.assignment ⟨2⟩ ⟨3⟩, none⟩, ⟨.var ⟨0⟩, none⟩,
    ⟨.objectInstantiation ⟨1⟩ [], some ⟨1, 6⟩⟩, ⟨.returnStmt (some ⟨5⟩), some ⟨2, 1⟩⟩,
    ⟨.propertyAccess ⟨2⟩ ⟨2⟩, none⟩, ⟨.returnStmt (some ⟨7⟩), some ⟨3, 1⟩⟩,
    ⟨.objectInstantiation ⟨1⟩ [], none⟩, ⟨.objectInstantiation ⟨1⟩ [], none⟩]

theorem accounted_ofTree_threeObjects :
    let walk := Walk.ofTree {} threeObjects depthLimit
    let analysis := ofTree {} threeObjects
    (∃ lent, analysis.records.find? 0 = some lent ∧
      lent.trail = [⟨some ⟨1, 6⟩, .flowsToEscapingValue⟩] ∧
      Accounted {} walk analysis.graph.values 0 lent) ∧
    (∃ given, analysis.records.find? 4 = some given ∧
      given.trail = [⟨some ⟨3, 1⟩, .returned⟩] ∧
      Accounted {} walk analysis.graph.values 4 given) ∧
    ∃ idle, analysis.records.find? 6 = some idle ∧ idle.trail = [] ∧ idle.state = .noEscape ∧
      Accounted {} walk analysis.graph.values 6 idle := by
  have accounted := (accounted_ofTree {} threeObjects).2
  have lentTrail : ((ofTree {} threeObjects).records.find? 0).map (·.trail) =
      some [⟨some ⟨1, 6⟩, .flowsToEscapingValue⟩] := by cbv
  have givenTrail : ((ofTree {} threeObjects).records.find? 4).map (·.trail) =
      some [⟨some ⟨3, 1⟩, .returned⟩] := by cbv
  have idleTrail : ((ofTree {} threeObjects).records.find? 6).map (·.trail) = some [] := by cbv
  rcases Option.map_eq_some_iff.1 lentTrail with ⟨lent, foundLent, trailLent⟩
  rcases Option.map_eq_some_iff.1 givenTrail with ⟨given, foundGiven, trailGiven⟩
  rcases Option.map_eq_some_iff.1 idleTrail with ⟨idle, foundIdle, trailIdle⟩
  have idleAccounted := accounted 6 idle foundIdle
  exact ⟨⟨lent, foundLent, trailLent, accounted 0 lent foundLent⟩,
    ⟨given, foundGiven, trailGiven, accounted 4 given foundGiven⟩,
    idle, foundIdle, trailIdle, (idleAccounted.trail_eq_nil_iff rfl).1 trailIdle, idleAccounted⟩

end Analysis

end EscapePlan
