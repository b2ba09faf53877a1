import EscapePlan.Analysis.Propagation
import Mathlib.Data.List.Permutation
import Mathlib.Logic.Relation
import Mathlib.Tactic.ByContra

/-!
# Propagation computes joins

Every value ends in the join of the states that the values reachable from it start
from.  The queue carries the argument: a value whose state still lies below the state
of something it flows into is always waiting in the queue, so an empty queue leaves
nothing to settle.

`propagate_isJoin` says this of the graph, of the records that are raised afterwards,
and of a second propagation, which finds nothing left to do.
-/

namespace EscapePlan

namespace EscapeState

/-- The join of states in the chosen order: it absorbs each of them, and whatever
absorbs each of them absorbs it. -/
structure IsJoin (unknownIsBottom : Bool) (states : EscapeState → Prop) (join : EscapeState) :
    Prop where
  absorbs : ∀ state, states state → join.mergeWith unknownIsBottom state = join
  least : ∀ bound : EscapeState,
    (∀ state, states state → bound.mergeWith unknownIsBottom state = bound) →
    bound.mergeWith unknownIsBottom join = bound

variable {unknownIsBottom : Bool}

/-- A state absorbs exactly the states that lie no higher. -/
theorem mergeWith_eq_left_iff {first second : EscapeState} :
    first.mergeWith unknownIsBottom second = first ↔
      second.level unknownIsBottom ≤ first.level unknownIsBottom := by
  have merged := level_mergeWith unknownIsBottom first second
  constructor
  · intro same
    rw [same] at merged
    omega
  · intro below
    exact @level_injective unknownIsBottom _ _ (by omega)

/-- Merging with a state that lies no lower gives that state. -/
theorem mergeWith_eq_right {first second : EscapeState}
    (below : first.level unknownIsBottom ≤ second.level unknownIsBottom) :
    first.mergeWith unknownIsBottom second = second := by
  have merged := level_mergeWith unknownIsBottom first second
  exact @level_injective unknownIsBottom _ _ (by omega)

/-- A state that lies above all given states and is one of them is their join. -/
theorem isJoin_of_level {states : EscapeState → Prop} {join : EscapeState}
    (above : ∀ state, states state → state.level unknownIsBottom ≤ join.level unknownIsBottom)
    (least : ∀ bound : EscapeState,
      (∀ state, states state → state.level unknownIsBottom ≤ bound.level unknownIsBottom) →
        join.level unknownIsBottom ≤ bound.level unknownIsBottom) :
    IsJoin unknownIsBottom states join where
  absorbs state member := mergeWith_eq_left_iff.2 (above state member)
  least bound absorbs :=
    mergeWith_eq_left_iff.2
      (least bound fun state member => mergeWith_eq_left_iff.1 (absorbs state member))

end EscapeState

namespace ValueGraph

/-- Every listed edge joins known nodes. -/
def EdgesKnown (graph : ValueGraph) : Prop :=
  ∀ edge ∈ graph.edges.toList, edge.source < graph.size ∧ edge.target < graph.size

/-- A value flows into another along a listed edge. -/
def FlowsInto (graph : ValueGraph) (source target : NodeId) : Prop :=
  ∃ edge ∈ graph.edges.toList, edge.source = source ∧ edge.target = target

/-- A value gets to another along any number of edges. -/
abbrev Reaches (graph : ValueGraph) : NodeId → NodeId → Prop :=
  Relation.ReflTransGen graph.FlowsInto

theorem edgesKnown_empty : empty.EdgesKnown := by
  intro edge member
  simp [empty, ValueTables.empty] at member

/-- Adding a node keeps all edges between known nodes. -/
theorem EdgesKnown.addNode {graph : ValueGraph} (known : graph.EdgesKnown) (kind : NodeKind)
    (origin : Option NodeIndex) (position : Option Position) (type : ValueType) :
    (graph.addNode kind origin position type).2.EdgesKnown := by
  intro edge member
  have ⟨source, target⟩ := known edge member
  rw [size_addNode]
  exact ⟨Nat.lt_succ_of_lt source, Nat.lt_succ_of_lt target⟩

/-- An edge is added between known nodes only. -/
theorem EdgesKnown.addEdge {graph : ValueGraph} (known : graph.EdgesKnown) (edge : Edge) :
    (graph.addEdge edge).EdgesKnown := by
  intro other member
  rw [edges_addEdge] at member
  rw [size_addEdge]
  split at member
  next accepted =>
    rcases List.mem_append.1 member with old | new
    · exact known other old
    · obtain ⟨source, target, -⟩ := accepts_iff.1 accepted
      rw [List.mem_singleton.1 new]
      exact ⟨source, target⟩
  next => exact known other member

theorem mem_outgoing {graph : ValueGraph} {id : NodeId} {edge : Edge} :
    edge ∈ graph.outgoing id ↔ edge ∈ graph.edges.toList ∧ edge.source = id := by
  simp [outgoing_eq]

theorem mem_incoming {graph : ValueGraph} {id : NodeId} {edge : Edge} :
    edge ∈ graph.incoming id ↔ edge ∈ graph.edges.toList ∧ edge.target = id := by
  simp [incoming_eq]

theorem exists_node?_of_lt {graph : ValueGraph} {id : NodeId} (known : id < graph.size) :
    ∃ node, graph.node? id = some node :=
  ⟨graph.nodes[id], Array.getElem?_eq_getElem known⟩

/-- The graph without the states of its nodes. -/
def stateless (graph : ValueGraph) : ValueGraph :=
  graph.setStates fun _ _ => .unknown

theorem node?_stateless (graph : ValueGraph) (id : NodeId) :
    graph.stateless.node? id =
      (graph.node? id).map fun node => { node with state := .unknown } :=
  node?_setStates graph _ id

/-- Graphs of the same edges are the same but for states if their nodes are. -/
theorem stateless_eq {first second : ValueGraph} (edges : first.edges = second.edges)
    (nodes : ∀ id, first.stateless.node? id = second.stateless.node? id) :
    first.stateless = second.stateless :=
  eq_of_same (Array.ext_getElem? nodes) edges

@[simp] theorem stateless_setState (graph : ValueGraph) (id : NodeId) (state : EscapeState) :
    (graph.setState id state).stateless = graph.stateless := by
  refine stateless_eq rfl fun other => ?_
  rw [node?_stateless, node?_stateless, node?_setState]
  split
  next => rw [Option.map_map]; rfl
  next => rfl

/-- Graphs that differ in states only have the same edges. -/
theorem edges_eq_of_stateless_eq {first second : ValueGraph}
    (same : first.stateless = second.stateless) : first.edges = second.edges :=
  congrArg (·.edges) same

/-- Graphs that differ in states only have the same nodes, up to their states. -/
theorem exists_node?_of_stateless_eq {first second : ValueGraph} {id : NodeId} {node : ValueNode}
    (same : first.stateless = second.stateless) (found : first.node? id = some node) :
    ∃ state, second.node? id = some { node with state } := by
  have shape := congrArg (·.node? id) same
  simp only [node?_stateless, found, Option.map_some] at shape
  obtain ⟨⟨id, kind, state, type, origin, position⟩, foundOther, equal⟩ :=
    Option.map_eq_some_iff.1 shape.symm
  refine ⟨state, foundOther.trans ?_⟩
  cases node
  simp_all

theorem exists_state?_of_stateless_eq {first second : ValueGraph} {id : NodeId}
    {state : EscapeState} (same : first.stateless = second.stateless)
    (found : first.state? id = some state) : ∃ other, second.state? id = some other := by
  obtain ⟨node, foundNode, -⟩ := Option.map_eq_some_iff.1 found
  obtain ⟨other, foundOther⟩ := exists_node?_of_stateless_eq same foundNode
  exact ⟨other, by rw [state?, foundOther]; rfl⟩

/-- Two graphs that differ in no state and in nothing else are equal. -/
theorem eq_of_stateless_eq {first second : ValueGraph} (same : first.stateless = second.stateless)
    (states : ∀ id, first.state? id = second.state? id) : first = second := by
  refine eq_of_same (Array.ext_getElem? fun id => ?_) (edges_eq_of_stateless_eq same)
  change first.node? id = second.node? id
  have shape := congrArg (·.node? id) same
  have state := states id
  simp only [node?_stateless] at shape
  simp only [state?] at state
  cases firstNode : first.node? id with
  | none =>
      rw [firstNode] at shape
      cases secondNode : second.node? id with
      | none => rfl
      | some node => rw [secondNode] at shape; simp at shape
  | some node =>
      rw [firstNode] at shape state
      cases secondNode : second.node? id with
      | none => rw [secondNode] at shape; simp at shape
      | some other =>
          rw [secondNode] at shape state
          simp only [Option.map_some, Option.some.injEq, ValueNode.mk.injEq] at shape state
          cases node
          cases other
          simp_all

end ValueGraph

namespace Propagation

variable {unknownIsBottom : Bool} {records : Records}

/-! ## One recomputation -/

/-- Joining a state with the states of all targets takes the highest of their levels. -/
theorem level_joined_le_iff {graph : ValueGraph} {id : NodeId} {state : EscapeState}
    {bound : Nat} :
    (joined unknownIsBottom graph id state).level unknownIsBottom ≤ bound ↔
      state.level unknownIsBottom ≤ bound ∧
        ∀ edge ∈ graph.outgoing id, ∀ target, graph.state? edge.target = some target →
          target.level unknownIsBottom ≤ bound := by
  unfold joined
  induction graph.outgoing id generalizing state with
  | nil => simp
  | cons edge edges inductionHypothesis =>
      rw [List.filterMap_cons, List.forall_mem_cons]
      split
      next unknown =>
        rw [inductionHypothesis]
        simp [unknown]
      next target known =>
        rw [List.foldl_cons, inductionHypothesis, EscapeState.level_mergeWith]
        simp only [known, Option.some.injEq, forall_eq', Nat.max_le, and_assoc]

/-- A node is settled when its state lies no lower than the state of any value it flows
into. -/
def Settled (unknownIsBottom : Bool) (graph : ValueGraph) (id : NodeId) : Prop :=
  ∀ state, graph.state? id = some state → ∀ edge ∈ graph.outgoing id, ∀ target,
    graph.state? edge.target = some target →
      target.level unknownIsBottom ≤ state.level unknownIsBottom

/-- Recomputing a node changes its state exactly if the node is not settled. -/
theorem joined_eq_iff_settled {graph : ValueGraph} {id : NodeId} {state : EscapeState}
    (found : graph.state? id = some state) :
    joined unknownIsBottom graph id state = state ↔ Settled unknownIsBottom graph id := by
  constructor
  · intro same current foundCurrent edge member target foundTarget
    obtain rfl := Option.some.inj (found.symm.trans foundCurrent)
    have level := Nat.le_of_eq (congrArg (EscapeState.level unknownIsBottom) same)
    exact (level_joined_le_iff.1 level).2 edge member target foundTarget
  · intro settled
    apply @EscapeState.level_injective unknownIsBottom
    apply Nat.le_antisymm
    · exact level_joined_le_iff.2 ⟨Nat.le_refl _, settled state found⟩
    · exact level_le_joined unknownIsBottom graph id state

theorem mem_enqueue {queue : List NodeId} {id other : NodeId} :
    other ∈ enqueue queue id ↔ other ∈ queue ∨ other = id := by
  unfold enqueue
  split
  next queued =>
    have member : id ∈ queue := by simpa using queued
    constructor
    · exact Or.inl
    · rintro (old | rfl)
      · exact old
      · exact member
  next => simp

theorem mem_foldl_enqueue {queue ids : List NodeId} {other : NodeId} :
    other ∈ ids.foldl enqueue queue ↔ other ∈ queue ∨ other ∈ ids := by
  induction ids generalizing queue with
  | nil => simp
  | cons id ids inductionHypothesis =>
      rw [List.foldl_cons, inductionHypothesis, mem_enqueue, List.mem_cons, or_assoc]

/-! ## The queue -/

/-- What holds of graph and queue during a propagation that began with another graph:
nothing but states has changed, every state lies between the one it started from and
the states that its node reaches, and every node that is not settled is queued. -/
structure Invariant (unknownIsBottom : Bool) (start graph : ValueGraph) (queue : List NodeId) :
    Prop where
  stateless : graph.stateless = start.stateless
  above : ∀ id first state, start.state? id = some first → graph.state? id = some state →
    first.level unknownIsBottom ≤ state.level unknownIsBottom
  below : ∀ id state bound, graph.state? id = some state →
    (∀ other first, start.Reaches id other → start.state? other = some first →
      first.level unknownIsBottom ≤ bound) →
    state.level unknownIsBottom ≤ bound
  queued : ∀ id, ¬ Settled unknownIsBottom graph id → id ∈ queue

theorem Invariant.initial (unknownIsBottom : Bool) (start : ValueGraph) :
    Invariant unknownIsBottom start start (List.range start.size) where
  stateless := rfl
  above id first state found foundAgain :=
    Nat.le_of_eq (congrArg _ (Option.some.inj (found.symm.trans foundAgain)))
  below id state bound found bounded := bounded id state .refl found
  queued id unsettled := by
    rw [List.mem_range]
    by_contra unknown
    refine unsettled fun state found => ?_
    rw [ValueGraph.state?, ValueGraph.node?,
      Array.getElem?_eq_none (Nat.le_of_not_lt unknown)] at found
    simp at found

variable {start graph : ValueGraph} {id : NodeId} {rest : List NodeId}

/-- A settled node may leave the queue. -/
theorem Invariant.drop (invariant : Invariant unknownIsBottom start graph (id :: rest))
    (settled : Settled unknownIsBottom graph id) :
    Invariant unknownIsBottom start graph rest where
  stateless := invariant.stateless
  above := invariant.above
  below := invariant.below
  queued other unsettled := by
    rcases List.mem_cons.1 (invariant.queued other unsettled) with rfl | queued
    · exact absurd settled unsettled
    · exact queued

/-- Recomputing a node settles it.  It may unsettle the nodes that flow into it, and
these are queued. -/
theorem Invariant.raise {current : EscapeState}
    (invariant : Invariant unknownIsBottom start graph (id :: rest))
    (found : graph.state? id = some current) :
    Invariant unknownIsBottom start
      (graph.setState id (joined unknownIsBottom graph id current))
      (((graph.incoming id).map (·.source)).foldl enqueue rest) := by
  have rises := level_le_joined unknownIsBottom graph id current
  have raised : ∀ other, (graph.setState id (joined unknownIsBottom graph id current)).state?
      other = if id = other then some (joined unknownIsBottom graph id current)
        else graph.state? other := by
    intro other
    rw [ValueGraph.state?_setState]
    split
    next same => rw [← same, found]; rfl
    next => rfl
  constructor
  · rw [ValueGraph.stateless_setState, invariant.stateless]
  · intro other first state foundFirst foundState
    rw [raised] at foundState
    split at foundState
    next same =>
      subst same
      rw [← Option.some.inj foundState]
      exact Nat.le_trans (invariant.above id first current foundFirst found) rises
    next => exact invariant.above other first state foundFirst foundState
  · intro other state bound foundState bounded
    rw [raised] at foundState
    split at foundState
    next same =>
      subst same
      rw [← Option.some.inj foundState, level_joined_le_iff]
      refine ⟨invariant.below id current bound found bounded, fun edge leaves target known => ?_⟩
      obtain ⟨listed, source⟩ := ValueGraph.mem_outgoing.1 leaves
      rw [ValueGraph.edges_eq_of_stateless_eq invariant.stateless] at listed
      refine invariant.below edge.target target bound known fun last first reaches => ?_
      exact bounded last first (reaches.head ⟨edge, listed, source, rfl⟩)
    next => exact invariant.below other state bound foundState bounded
  · intro other unsettled
    rw [mem_foldl_enqueue]
    by_contra notQueued
    rw [not_or] at notQueued
    obtain ⟨notWaiting, notSource⟩ := notQueued
    refine unsettled fun state foundState edge leaves target foundTarget => ?_
    rw [raised] at foundState foundTarget
    have leaves : edge ∈ graph.outgoing other := leaves
    by_cases same : id = other
    · -- The recomputed node has become an upper bound of its targets, itself included.
      subst same
      rw [if_pos rfl] at foundState
      rw [← Option.some.inj foundState]
      split at foundTarget
      next => exact Nat.le_of_eq (congrArg _ (Option.some.inj foundTarget).symm)
      next => exact (level_joined_le_iff.1 (Nat.le_refl _)).2 edge leaves target foundTarget
    · rw [if_neg same] at foundState
      rw [if_neg] at foundTarget
      · have settled : Settled unknownIsBottom graph other := by
          by_contra unsettled
          rcases List.mem_cons.1 (invariant.queued other unsettled) with equal | waiting
          · exact same equal.symm
          · exact notWaiting waiting
        exact settled state foundState edge leaves target foundTarget
      · intro targets
        obtain ⟨listed, source⟩ := ValueGraph.mem_outgoing.1 leaves
        refine notSource (List.mem_map.2 ⟨edge, ?_, source⟩)
        exact ValueGraph.mem_incoming.2 ⟨listed, targets.symm⟩

/-- A propagation keeps the invariant until its queue is empty. -/
theorem Invariant.run {queue : List NodeId} {stats : PropagationStats}
    (invariant : Invariant unknownIsBottom start graph queue) :
    Invariant unknownIsBottom start
      (Propagation.run unknownIsBottom graph queue stats).1 [] := by
  fun_induction Propagation.run unknownIsBottom graph queue stats with
  | case1 => exact invariant
  | case2 graph _ id rest _ unknown inductionHypothesis =>
      refine inductionHypothesis (invariant.drop fun state found => ?_)
      rw [unknown] at found
      contradiction
  | case3 graph _ id rest _ current found unchanged inductionHypothesis =>
      exact inductionHypothesis (invariant.drop ((joined_eq_iff_settled found).1 unchanged))
  | case4 graph _ id rest _ current found _ inductionHypothesis =>
      exact inductionHypothesis (invariant.raise found)

/-- With an empty queue every state lies above all states that its node reaches. -/
theorem Invariant.le_of_reaches (invariant : Invariant unknownIsBottom start graph [])
    (known : start.EdgesKnown) {first last : NodeId} (reaches : start.Reaches first last)
    {low high : EscapeState} (foundLow : graph.state? last = some low)
    (foundHigh : graph.state? first = some high) :
    low.level unknownIsBottom ≤ high.level unknownIsBottom := by
  induction reaches using Relation.ReflTransGen.head_induction_on generalizing high with
  | refl =>
      rw [foundLow] at foundHigh
      exact Nat.le_of_eq (congrArg _ (Option.some.inj foundHigh))
  | head step _ inductionHypothesis =>
      obtain ⟨edge, listed, rfl, rfl⟩ := step
      obtain ⟨node, foundNode⟩ := ValueGraph.exists_node?_of_lt (known edge listed).2
      have foundTarget : start.state? edge.target = some node.state := by
        rw [ValueGraph.state?, foundNode]; rfl
      obtain ⟨middle, foundMiddle⟩ :=
        ValueGraph.exists_state?_of_stateless_eq invariant.stateless.symm foundTarget
      refine Nat.le_trans (inductionHypothesis foundMiddle) ?_
      rw [← ValueGraph.edges_eq_of_stateless_eq invariant.stateless] at listed
      have settled : Settled unknownIsBottom graph edge.source := by
        by_contra unsettled
        exact absurd (invariant.queued _ unsettled) List.not_mem_nil
      exact settled high foundHigh edge (ValueGraph.mem_outgoing.2 ⟨listed, rfl⟩) middle foundMiddle

/-- Propagations over one graph end in the same states if the second one starts between
where the first one started and where it ended. -/
theorem Invariant.eq_of_between {start startAgain graph graphAgain : ValueGraph}
    (first : Invariant unknownIsBottom start graph [])
    (second : Invariant unknownIsBottom startAgain graphAgain [])
    (shape : startAgain.stateless = start.stateless) (known : start.EdgesKnown)
    (between : ∀ id low middle high, start.state? id = some low →
      startAgain.state? id = some middle → graph.state? id = some high →
        low.level unknownIsBottom ≤ middle.level unknownIsBottom ∧
          middle.level unknownIsBottom ≤ high.level unknownIsBottom) :
    graphAgain = graph := by
  have edges := ValueGraph.edges_eq_of_stateless_eq shape
  have size : startAgain.size = start.size := by
    simpa [ValueGraph.stateless] using congrArg ValueGraph.size shape
  have knownAgain : startAgain.EdgesKnown := by
    simpa [ValueGraph.EdgesKnown, edges, size] using known
  have reachesIff : ∀ source target,
      startAgain.Reaches source target ↔ start.Reaches source target := by
    intro source target
    have flows : startAgain.FlowsInto = start.FlowsInto := by
      unfold ValueGraph.FlowsInto
      rw [edges]
    rw [ValueGraph.Reaches, flows]
  have same := second.stateless.trans (shape.trans first.stateless.symm)
  refine ValueGraph.eq_of_stateless_eq same fun id => ?_
  cases found : graph.state? id with
  | none =>
      cases foundAgain : graphAgain.state? id with
      | none => rfl
      | some again =>
          obtain ⟨state, foundState⟩ := ValueGraph.exists_state?_of_stateless_eq same foundAgain
          rw [found] at foundState
          contradiction
  | some state =>
      obtain ⟨again, foundAgain⟩ := ValueGraph.exists_state?_of_stateless_eq same.symm found
      rw [foundAgain]
      refine congrArg some (@EscapeState.level_injective unknownIsBottom _ _
        (Nat.le_antisymm ?_ ?_))
      · refine second.below id again _ foundAgain fun other middle reaches foundMiddle => ?_
        obtain ⟨low, foundLow⟩ := ValueGraph.exists_state?_of_stateless_eq shape foundMiddle
        obtain ⟨high, foundHigh⟩ :=
          ValueGraph.exists_state?_of_stateless_eq first.stateless.symm foundLow
        exact Nat.le_trans (between other low middle high foundLow foundMiddle foundHigh).2
          (first.le_of_reaches known ((reachesIff _ _).1 reaches) foundHigh found)
      · refine first.below id state _ found fun other low reaches foundLow => ?_
        obtain ⟨middle, foundMiddle⟩ :=
          ValueGraph.exists_state?_of_stateless_eq shape.symm foundLow
        obtain ⟨high, foundHigh⟩ :=
          ValueGraph.exists_state?_of_stateless_eq first.stateless.symm foundLow
        obtain ⟨reached, foundReached⟩ :=
          ValueGraph.exists_state?_of_stateless_eq second.stateless.symm foundMiddle
        calc low.level unknownIsBottom
            ≤ middle.level unknownIsBottom :=
              (between other low middle high foundLow foundMiddle foundHigh).1
          _ ≤ reached.level unknownIsBottom :=
              second.above other middle reached foundMiddle foundReached
          _ ≤ again.level unknownIsBottom :=
              second.le_of_reaches knownAgain ((reachesIff _ _).2 reaches) foundReached foundAgain

/-! ## Seeds -/

/-- A state that some value reachable from a node starts from. -/
def SeedReached (unknownIsBottom : Bool) (records : Records) (graph : ValueGraph) (id : NodeId)
    (state : EscapeState) : Prop :=
  ∃ other node, graph.Reaches id other ∧ graph.node? other = some node ∧
    state = seed unknownIsBottom records other node

theorem stateless_seedAll (graph : ValueGraph) :
    (seedAll unknownIsBottom records graph).stateless = graph.stateless := by
  refine ValueGraph.stateless_eq rfl fun id => ?_
  rw [ValueGraph.node?_stateless, ValueGraph.node?_stateless, seedAll, ValueGraph.node?_setStates,
    Option.map_map]
  rfl

theorem node?_seedAll (graph : ValueGraph) (id : NodeId) :
    (seedAll unknownIsBottom records graph).node? id =
      (graph.node? id).map fun node =>
        { node with state := seed unknownIsBottom records id node } :=
  graph.node?_setStates _ id

theorem state?_seedAll (graph : ValueGraph) (id : NodeId) :
    (seedAll unknownIsBottom records graph).state? id =
      (graph.node? id).map (seed unknownIsBottom records id) := by
  rw [ValueGraph.state?, node?_seedAll, Option.map_map]
  rfl

/-- Where a propagation starts does not depend on the states that the graph held. -/
theorem seedAll_eq_of_stateless_eq {first second : ValueGraph}
    (same : first.stateless = second.stateless) :
    seedAll unknownIsBottom records first = seedAll unknownIsBottom records second := by
  apply ValueGraph.eq_of_stateless_eq
  · rw [stateless_seedAll, stateless_seedAll, same]
  · intro id
    rw [state?_seedAll, state?_seedAll]
    cases found : first.node? id with
    | none =>
        cases foundOther : second.node? id with
        | none => rfl
        | some node =>
            obtain ⟨state, equal⟩ := ValueGraph.exists_node?_of_stateless_eq same.symm foundOther
            rw [found] at equal
            contradiction
    | some node =>
        obtain ⟨state, equal⟩ := ValueGraph.exists_node?_of_stateless_eq same found
        rw [equal]
        rfl

theorem edgesKnown_seedAll {graph : ValueGraph} (known : graph.EdgesKnown) :
    (seedAll unknownIsBottom records graph).EdgesKnown := by
  intro edge listed
  rw [seedAll, ValueGraph.size_setStates]
  exact known edge listed

theorem level_le_seed {id : NodeId} {node : ValueNode} {record : EscapeRecord}
    (found : records.find? id = some record) :
    record.state.level unknownIsBottom ≤
      (seed unknownIsBottom records id node).level unknownIsBottom := by
  rw [seed, found, EscapeState.level_mergeWith]
  exact Nat.le_max_right _ _

/-! ## Whole propagations -/

theorem invariant_propagate (unknownIsBottom : Bool) (graph : ValueGraph) (records : Records) :
    Invariant unknownIsBottom (seedAll unknownIsBottom records graph)
      (propagate unknownIsBottom graph records).1 [] := by
  have size : (seedAll unknownIsBottom records graph).size = graph.size :=
    graph.size_setStates _
  have start := Invariant.initial unknownIsBottom (seedAll unknownIsBottom records graph)
  rw [size] at start
  exact start.run

/-- A propagation changes states only. -/
theorem stateless_propagate (unknownIsBottom : Bool) (graph : ValueGraph) (records : Records) :
    (propagate unknownIsBottom graph records).1.stateless = graph.stateless :=
  (invariant_propagate unknownIsBottom graph records).stateless.trans (stateless_seedAll graph)

theorem seed_le_of_reaches {graph : ValueGraph} (known : graph.EdgesKnown) {first last : NodeId}
    (reaches : graph.Reaches first last) {node : ValueNode}
    (foundNode : graph.node? last = some node)
    {state : EscapeState}
    (found : (propagate unknownIsBottom graph records).1.state? first = some state) :
    (seed unknownIsBottom records last node).level unknownIsBottom ≤
      state.level unknownIsBottom := by
  have invariant := invariant_propagate unknownIsBottom graph records
  have start : (seedAll unknownIsBottom records graph).state? last =
      some (seed unknownIsBottom records last node) := by
    rw [state?_seedAll, foundNode]
    rfl
  obtain ⟨low, foundLow⟩ :=
    ValueGraph.exists_state?_of_stateless_eq invariant.stateless.symm start
  exact Nat.le_trans (invariant.above last _ low start foundLow)
    (invariant.le_of_reaches (edgesKnown_seedAll known) reaches foundLow found)

/-- After a propagation every state is the join of the seeds that its node reaches. -/
theorem isJoin_of_state? {graph : ValueGraph} (known : graph.EdgesKnown) {id : NodeId}
    {state : EscapeState}
    (found : (propagate unknownIsBottom graph records).1.state? id = some state) :
    EscapeState.IsJoin unknownIsBottom (SeedReached unknownIsBottom records graph id) state := by
  apply EscapeState.isJoin_of_level
  · rintro low ⟨other, node, reaches, foundNode, rfl⟩
    exact seed_le_of_reaches known reaches foundNode found
  · intro bound bounded
    have invariant := invariant_propagate unknownIsBottom graph records
    refine invariant.below id state _ found fun other first reaches foundFirst => ?_
    rw [state?_seedAll] at foundFirst
    obtain ⟨node, foundNode, rfl⟩ := Option.map_eq_some_iff.1 foundFirst
    exact bounded _ ⟨other, node, reaches, foundNode, rfl⟩

/-! ## Records -/

/-- Every record is filed under its own node, which is an allocation. -/
def RecordsKnown (graph : ValueGraph) (records : Records) : Prop :=
  ∀ entry ∈ records.entries, entry.2.node = entry.1 ∧ graph.isAllocation entry.1 = true

/-- A record in a new state.  Its trail shows the change, if it is one. -/
def withState (record : EscapeRecord) (state : EscapeState) : EscapeRecord :=
  { record with
    state
    trail :=
      if state = record.state then record.trail
      else record.trail ++ [⟨record.position, .flowsToEscapingValue⟩] }

/-- A record whose node lies no lower is raised to the state of the node. -/
theorem raise_eq_withState {graph : ValueGraph} {record : EscapeRecord} {state : EscapeState}
    (found : graph.state? record.node = some state)
    (rises : record.state.level unknownIsBottom ≤ state.level unknownIsBottom) :
    raise unknownIsBottom graph record = withState record state := by
  unfold raise withState
  rw [found]
  simp only [EscapeState.mergeWith_eq_right rises]
  split
  next same => rw [same]
  next => rfl

variable {graph : ValueGraph}

/-- A propagation leaves every record in the state of its node. -/
theorem raise_propagate (known : RecordsKnown graph records) {key : Nat} {record : EscapeRecord}
    (found : records.find? key = some record) :
    ∃ state, (propagate unknownIsBottom graph records).1.state? key = some state ∧
      raise unknownIsBottom (propagate unknownIsBottom graph records).1 record =
        withState record state := by
  obtain ⟨node, allocation⟩ := known _ (Table.find?_eq_some_iff.1 found)
  obtain ⟨value, foundValue, -⟩ :
      ∃ value, graph.node? key = some value ∧ value.kind = .allocation := by
    simpa [ValueGraph.isAllocation, ValueGraph.kind?] using allocation
  have start : (seedAll unknownIsBottom records graph).state? key =
      some (seed unknownIsBottom records key value) := by
    rw [state?_seedAll, foundValue]
    rfl
  have invariant := invariant_propagate unknownIsBottom graph records
  obtain ⟨state, foundState⟩ :=
    ValueGraph.exists_state?_of_stateless_eq invariant.stateless.symm start
  refine ⟨state, foundState, raise_eq_withState (node ▸ foundState) ?_⟩
  exact Nat.le_trans (level_le_seed found) (invariant.above key _ state start foundState)

theorem records_propagate (unknownIsBottom : Bool) (graph : ValueGraph) (records : Records) :
    (propagate unknownIsBottom graph records).2.1 =
      records.map (raise unknownIsBottom (propagate unknownIsBottom graph records).1) := rfl

theorem find?_raised (key : Nat) :
    (propagate unknownIsBottom graph records).2.1.find? key =
      (records.find? key).map (raise unknownIsBottom (propagate unknownIsBottom graph records).1) :=
  Table.find?_map _ _ _

/-! ## A second propagation -/

/-- The raised records seed every node no lower than before, and no higher than the
state it has reached. -/
theorem seed_raised (edgesKnown : graph.EdgesKnown) (known : RecordsKnown graph records)
    {id : NodeId} {node : ValueNode} (foundNode : graph.node? id = some node) {state : EscapeState}
    (found : (propagate unknownIsBottom graph records).1.state? id = some state) :
    (seed unknownIsBottom records id node).level unknownIsBottom ≤
        (seed unknownIsBottom (propagate unknownIsBottom graph records).2.1 id node).level
          unknownIsBottom ∧
      (seed unknownIsBottom (propagate unknownIsBottom graph records).2.1 id node).level
          unknownIsBottom ≤ state.level unknownIsBottom := by
  have reached := seed_le_of_reaches edgesKnown .refl foundNode found
  cases foundRecord : records.find? id with
  | none =>
      have same : seed unknownIsBottom (propagate unknownIsBottom graph records).2.1 id node =
          seed unknownIsBottom records id node := by
        simp only [seed, find?_raised, foundRecord, Option.map_none]
      rw [same]
      exact ⟨Nat.le_refl _, reached⟩
  | some record =>
      obtain ⟨current, foundCurrent, raised⟩ := raise_propagate known foundRecord
      obtain rfl := Option.some.inj (found.symm.trans foundCurrent)
      simp only [seed, find?_raised, foundRecord, Option.map_some, raised,
        EscapeState.level_mergeWith] at reached ⊢
      simp only [withState]
      omega

/-- A second propagation changes no state. -/
theorem propagate_again (edgesKnown : graph.EdgesKnown) (known : RecordsKnown graph records) :
    (propagate unknownIsBottom (propagate unknownIsBottom graph records).1
      (propagate unknownIsBottom graph records).2.1).1 =
        (propagate unknownIsBottom graph records).1 := by
  have first := invariant_propagate unknownIsBottom graph records
  have second := invariant_propagate unknownIsBottom (propagate unknownIsBottom graph records).1
    (propagate unknownIsBottom graph records).2.1
  rw [seedAll_eq_of_stateless_eq (stateless_propagate _ graph _)] at second
  refine first.eq_of_between second ?_ ?_ ?_
  · rw [stateless_seedAll, stateless_seedAll]
  · exact edgesKnown_seedAll edgesKnown
  · intro id low middle high foundLow foundMiddle foundHigh
    rw [state?_seedAll] at foundLow foundMiddle
    obtain ⟨node, foundNode, rfl⟩ := Option.map_eq_some_iff.1 foundLow
    rw [foundNode] at foundMiddle
    rw [← Option.some.inj foundMiddle]
    exact seed_raised edgesKnown known foundNode foundHigh

/-- A second propagation changes no record. -/
theorem raise_again (edgesKnown : graph.EdgesKnown) (known : RecordsKnown graph records) :
    (propagate unknownIsBottom (propagate unknownIsBottom graph records).1
      (propagate unknownIsBottom graph records).2.1).2.1 =
        (propagate unknownIsBottom graph records).2.1 := by
  have raisedTwice : ∀ entry ∈ records.entries,
      raise unknownIsBottom (propagate unknownIsBottom graph records).1
          (raise unknownIsBottom (propagate unknownIsBottom graph records).1 entry.2) =
        raise unknownIsBottom (propagate unknownIsBottom graph records).1 entry.2 := by
    intro entry member
    obtain ⟨state, foundState, raised⟩ :=
      raise_propagate known (Table.find?_eq_some_iff.2 member)
    have foundRaised : (propagate unknownIsBottom graph records).1.state?
        (withState entry.2 state).node = some state := by
      rw [withState, (known entry member).1, foundState]
    rw [raised, raise_eq_withState foundRaised (Nat.le_refl _)]
    simp [withState]
  rw [records_propagate unknownIsBottom (propagate unknownIsBottom graph records).1,
    propagate_again edgesKnown known, records_propagate unknownIsBottom graph records]
  apply Table.eq_of_entries_eq
  simp only [Table.map, List.map_map]
  exact List.map_congr_left fun entry member => Prod.ext rfl (raisedTwice entry member)

end Propagation

open Propagation in
/-- Propagation puts every value into the join of the seeds that it reaches, whatever
states the graph held, and changes nothing else in the graph.  Every record takes the
state of its node, with a trace of the change if it is one.  A second propagation
changes nothing. -/
theorem propagate_isJoin (unknownIsBottom : Bool) {graph : ValueGraph} {records : Records}
    (edgesKnown : graph.EdgesKnown) (recordsKnown : RecordsKnown graph records) :
    let outcome := propagate unknownIsBottom graph records
    let again := propagate unknownIsBottom outcome.1 outcome.2.1
    (∀ id, id < graph.size → ∃ state, outcome.1.state? id = some state ∧
      EscapeState.IsJoin unknownIsBottom (SeedReached unknownIsBottom records graph id) state) ∧
    outcome.1.stateless = graph.stateless ∧
    outcome.2.1.keys = records.keys ∧
    (∀ key record, records.find? key = some record → ∃ state,
      outcome.1.state? key = some state ∧
        outcome.2.1.find? key = some (withState record state)) ∧
    again.1 = outcome.1 ∧ again.2.1 = outcome.2.1 := by
  refine ⟨fun id known => ?_, stateless_propagate _ graph _, Table.keys_map _ _,
    fun key record found => ?_, propagate_again edgesKnown recordsKnown,
    raise_again edgesKnown recordsKnown⟩
  · obtain ⟨node, foundNode⟩ := ValueGraph.exists_node?_of_lt known
    have start : graph.state? id = some node.state := by
      rw [ValueGraph.state?, foundNode]
      rfl
    obtain ⟨state, found⟩ := ValueGraph.exists_state?_of_stateless_eq
      (stateless_propagate unknownIsBottom graph records).symm start
    exact ⟨state, found, isJoin_of_state? edgesKnown found⟩
  · obtain ⟨state, foundState, raised⟩ := raise_propagate recordsKnown found
    exact ⟨state, foundState, (find?_raised key).trans (by rw [found, Option.map_some, raised])⟩

namespace Propagation

/-- Two allocations, of which the second flows into itself and, twice, into a returned
value; a variable that may denote either; and a cycle between the variable and the
first allocation. -/
def cyclicGraph : ValueGraph :=
  let kinds : List (NodeKind × ValueType) := [(.allocation, .object), (.localVar, .unknown),
    (.allocation, .array), (.returnValue, .unknown)]
  let edges : List Edge := [⟨1, 0, .pointsTo⟩, ⟨0, 1, .defUse⟩, ⟨1, 2, .pointsTo⟩,
    ⟨2, 2, .defUse⟩, ⟨2, 3, .defUse⟩, ⟨2, 3, .fieldOf⟩]
  let values := kinds.foldl
    (fun values (kind, type) => (values.addNode kind none none type).2) ValueGraph.empty
  edges.foldl .addEdge values

/-- Records of both allocations of `cyclicGraph`. -/
def cyclicRecords : Records :=
  (Table.empty.insert 0 (.new 0 .object 64 false)).insert 2 (.new 2 .array 128 false)

end Propagation

open Propagation in
theorem propagate_isJoin_cyclicGraph :
    cyclicGraph.EdgesKnown ∧ RecordsKnown cyclicGraph cyclicRecords ∧
      (propagate true cyclicGraph cyclicRecords).1.state? 0 = some .globalEscape ∧
      EscapeState.IsJoin true (SeedReached true cyclicRecords cyclicGraph 0) .globalEscape := by
  have edgesKnown : cyclicGraph.EdgesKnown := by unfold ValueGraph.EdgesKnown; decide
  have recordsKnown : RecordsKnown cyclicGraph cyclicRecords := by unfold RecordsKnown; decide
  have ran : (run true (seedAll true cyclicRecords cyclicGraph) (List.range 4) ⟨0, 0⟩).1.state? 0 =
    some .globalEscape := by cbv
  have state : (propagate true cyclicGraph cyclicRecords).1.state? 0 = some .globalEscape := ran
  obtain ⟨other, found, join⟩ := (propagate_isJoin true edgesKnown recordsKnown).1 0 (by decide)
  obtain rfl := Option.some.inj (state.symm.trans found)
  exact ⟨edgesKnown, recordsKnown, state, join⟩

end EscapePlan
