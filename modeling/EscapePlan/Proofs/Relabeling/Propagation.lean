import EscapePlan.Proofs.Analysis.Completion

/-!
# Propagation beside values that stay unknown

Phis are in the unknown state from the beginning to the end.  So propagation does the same in two
graphs that differ in edges into phis only, as long as the same values lead to some phi: it takes the
same nodes from the queue, raises the same states, and takes as many steps.
-/

namespace EscapePlan

namespace Propagation

/-- A node below a number; all others count as one. -/
def below (base id : NodeId) : Option NodeId :=
  if id < base then some id else none

/-- What an edge leads to, where all nodes from a number on count as one. -/
def leadsBelow (base : NodeId) (graph : ValueGraph) (id : NodeId) : List (Option NodeId) :=
  (graph.outgoing id).map fun edge => below base edge.target

/-- Nodes from a number on lead to such nodes only, and edges lead to known nodes. -/
structure Outer (base : NodeId) (graph : ValueGraph) : Prop where
  beyond : ∀ edge ∈ graph.edges.toList, base ≤ edge.source → base ≤ edge.target
  target_lt : ∀ edge ∈ graph.edges.toList, edge.target < graph.size
  unknown : ∀ id, base ≤ id → ∀ state, graph.state? id = some state → state = .unknown

/-- Two graphs are the same below a number, and beyond it as far as propagation can tell. -/
structure Beside (base : NodeId) (one two : ValueGraph) : Prop where
  nodes_eq : two.nodes = one.nodes
  incoming_eq : ∀ id < base, two.incoming id = one.incoming id
  mem_leadsBelow : ∀ id < base, ∀ target,
    target ∈ leadsBelow base two id ↔ target ∈ leadsBelow base one id
  outer_one : Outer base one
  outer_two : Outer base two

namespace Beside

variable {base : NodeId} {one two : ValueGraph} {unknownIsBottom : Bool}

theorem symm (beside : Beside base one two) : Beside base two one :=
  ⟨beside.nodes_eq.symm, fun id known => (beside.incoming_eq id known).symm,
    fun id known target => (beside.mem_leadsBelow id known target).symm, beside.outer_two,
    beside.outer_one⟩

theorem node?_eq (beside : Beside base one two) (id : NodeId) : two.node? id = one.node? id := by
  rw [ValueGraph.node?, beside.nodes_eq]
  rfl

theorem state?_eq (beside : Beside base one two) (id : NodeId) : two.state? id = one.state? id := by
  rw [ValueGraph.state?, beside.node?_eq]
  rfl

/-- An edge of one graph has a partner that leads to the same node in the other, or also beyond. -/
theorem exists_edge (beside : Beside base one two) {id : NodeId} (known : id < base) {edge : Edge}
    (listed : edge ∈ one.outgoing id) :
    ∃ other ∈ two.outgoing id,
      other.target = edge.target ∨ base ≤ edge.target ∧ base ≤ other.target := by
  have member : below base edge.target ∈ leadsBelow base one id :=
    List.mem_map.2 ⟨edge, listed, rfl⟩
  rw [← beside.mem_leadsBelow id known] at member
  rcases List.mem_map.1 member with ⟨other, otherListed, same⟩
  refine ⟨other, otherListed, ?_⟩
  rw [below, below] at same
  split at same
  next otherKnown =>
    split at same
    next => exact .inl (Option.some.inj same)
    next => contradiction
  next beyond =>
    split at same
    next => contradiction
    next alsoBeyond => exact .inr ⟨Nat.le_of_not_lt alsoBeyond, Nat.le_of_not_lt beyond⟩

/-- What lies ahead of a node in one graph is no higher than what lies ahead in the other. -/
theorem level_le (beside : Beside base one two) {id : NodeId} (known : id < base) {bound : Nat}
    (bounded : ∀ edge ∈ two.outgoing id, ∀ state, two.state? edge.target = some state →
      state.level unknownIsBottom ≤ bound) :
    ∀ edge ∈ one.outgoing id, ∀ state, one.state? edge.target = some state →
      state.level unknownIsBottom ≤ bound := by
  intro edge listed state found
  rcases beside.exists_edge known listed with ⟨other, otherListed, same | ⟨beyond, alsoBeyond⟩⟩
  · refine bounded other otherListed state ?_
    rw [beside.state?_eq, same]
    exact found
  · have target := beside.outer_two.target_lt other (ValueGraph.mem_outgoing.1 otherListed).1
    rcases ValueGraph.exists_node?_of_lt target with ⟨node, foundNode⟩
    have foundOther : two.state? other.target = some node.state :=
      congrArg (Option.map ValueNode.state) foundNode
    have unknown := beside.outer_two.unknown other.target alsoBeyond node.state foundOther
    rw [beside.outer_one.unknown edge.target beyond state found, ← unknown]
    exact bounded other otherListed node.state foundOther

end Beside

/-- Nothing is known of what lies ahead of a node beyond, so it stays unknown. -/
theorem Outer.joined_eq {base : NodeId} {graph : ValueGraph} {unknownIsBottom : Bool}
    (outer : Outer base graph) {id : NodeId} (beyond : base ≤ id) :
    joined unknownIsBottom graph id .unknown = .unknown := by
  refine EscapeState.level_injective (Nat.le_antisymm (level_joined_le_iff.2 ⟨Nat.le_refl _, ?_⟩)
    (level_le_joined unknownIsBottom graph id .unknown))
  intro edge listed state found
  rcases ValueGraph.mem_outgoing.1 listed with ⟨member, source⟩
  rw [outer.unknown edge.target (outer.beyond edge member (source ▸ beyond)) state found]

namespace Beside

variable {base : NodeId} {one two : ValueGraph} {unknownIsBottom : Bool}

/-- A node is recomputed to the same state in both graphs. -/
theorem joined_eq (beside : Beside base one two) {id : NodeId} {state : EscapeState}
    (found : one.state? id = some state) :
    joined unknownIsBottom two id state = joined unknownIsBottom one id state := by
  by_cases known : id < base
  · have bounds (bound : Nat) :
        (joined unknownIsBottom two id state).level unknownIsBottom ≤ bound ↔
          (joined unknownIsBottom one id state).level unknownIsBottom ≤ bound := by
      rw [level_joined_le_iff, level_joined_le_iff]
      exact and_congr_right fun _ => ⟨beside.level_le known, beside.symm.level_le known⟩
    exact EscapeState.level_injective (Nat.le_antisymm ((bounds _).2 (Nat.le_refl _))
      ((bounds _).1 (Nat.le_refl _)))
  · have beyond := Nat.le_of_not_lt known
    obtain rfl := beside.outer_one.unknown id beyond state found
    rw [beside.outer_one.joined_eq beyond, beside.outer_two.joined_eq beyond]

/-- A node whose state rises is not beyond. -/
theorem lt_of_raised (beside : Beside base one two) {id : NodeId} {state : EscapeState}
    (found : one.state? id = some state)
    (raised : joined unknownIsBottom one id state ≠ state) : id < base := by
  refine Nat.lt_of_not_le fun beyond => raised ?_
  obtain rfl := beside.outer_one.unknown id beyond state found
  exact beside.outer_one.joined_eq beyond

end Beside

theorem Outer.setState {base : NodeId} {graph : ValueGraph} (outer : Outer base graph)
    {id : NodeId} (known : id < base) (state : EscapeState) : Outer base (graph.setState id state) where
  beyond := outer.beyond
  target_lt edge listed := by
    rw [ValueGraph.size_setState]
    exact outer.target_lt edge listed
  unknown other beyond current found := by
    rw [ValueGraph.state?_setState,
      if_neg (Nat.ne_of_lt (Nat.lt_of_lt_of_le known beyond))] at found
    exact outer.unknown other beyond current found

theorem Beside.setState {base : NodeId} {one two : ValueGraph} (beside : Beside base one two)
    {id : NodeId} (known : id < base) (state : EscapeState) :
    Beside base (one.setState id state) (two.setState id state) where
  nodes_eq := by rw [ValueGraph.nodes_setState, ValueGraph.nodes_setState, beside.nodes_eq]
  incoming_eq := beside.incoming_eq
  mem_leadsBelow := beside.mem_leadsBelow
  outer_one := beside.outer_one.setState known state
  outer_two := beside.outer_two.setState known state

/-- What becomes of a queue once its first node has been recomputed. -/
theorem run_cons (unknownIsBottom : Bool) (graph : ValueGraph) (id : NodeId) (rest : List NodeId)
    (stats : PropagationStats) :
    run unknownIsBottom graph (id :: rest) stats =
      let stats := { stats with iterations := stats.iterations + 1 }
      match graph.state? id with
      | none => run unknownIsBottom graph rest stats
      | some current =>
          if joined unknownIsBottom graph id current = current then
            run unknownIsBottom graph rest stats
          else
            run unknownIsBottom (graph.setState id (joined unknownIsBottom graph id current))
              (((graph.incoming id).map (·.source)).foldl enqueue rest)
              { stats with increases := stats.increases + 1 } := by
  rw [run]
  split
  next unknown => rw [unknown]
  next current found => rw [found]

/-- Both graphs are recomputed in the same steps. -/
theorem beside_run {base : NodeId} (unknownIsBottom : Bool) (one : ValueGraph)
    (queue : List NodeId) (stats : PropagationStats) (two : ValueGraph)
    (beside : Beside base one two) :
    Beside base (run unknownIsBottom one queue stats).1 (run unknownIsBottom two queue stats).1 ∧
      (run unknownIsBottom two queue stats).2 = (run unknownIsBottom one queue stats).2 := by
  fun_induction run unknownIsBottom one queue stats generalizing two with
  | case1 =>
      rw [run]
      exact ⟨beside, rfl⟩
  | case2 one _ id _ _ unknown inductionHypothesis =>
      rw [run_cons, beside.state?_eq, unknown]
      exact inductionHypothesis two beside
  | case3 one _ id _ _ current found unchanged inductionHypothesis =>
      rw [run_cons, beside.state?_eq, found]
      simp only
      rw [beside.joined_eq found, if_pos unchanged]
      exact inductionHypothesis two beside
  | case4 one _ id _ _ current found raised inductionHypothesis =>
      have known := beside.lt_of_raised found raised
      rw [run_cons, beside.state?_eq, found]
      simp only
      rw [beside.joined_eq found, if_neg raised, beside.incoming_eq id known]
      exact inductionHypothesis _ (beside.setState known _)

/-! ## Whole propagations -/

/-- All nodes from a number on are phis, and none of them is an allocation that there is a record
of. -/
structure PhisBeyond (base : NodeId) (graph : ValueGraph) (records : Records) : Prop where
  kind_eq : ∀ id, base ≤ id → ∀ kind, graph.kind? id = some kind → kind = .phi
  record_lt : ∀ id record, records.find? id = some record → id < base ∧ record.node = id

variable {base : NodeId} {graph one two : ValueGraph} {unknownIsBottom : Bool} {records : Records}

theorem Beside.kind?_eq (beside : Beside base one two) (id : NodeId) :
    two.kind? id = one.kind? id := by
  rw [ValueGraph.kind?, beside.node?_eq]
  rfl

theorem Beside.phisBeyond (beside : Beside base one two) (phis : PhisBeyond base one records) :
    PhisBeyond base two records where
  kind_eq id beyond kind found := by
    rw [beside.kind?_eq] at found
    exact phis.kind_eq id beyond kind found
  record_lt := phis.record_lt

theorem PhisBeyond.isFieldAccess_eq (phis : PhisBeyond base graph records) {id : NodeId}
    (beyond : base ≤ id) : (graph.kind? id).any NodeKind.isFieldAccess = false := by
  cases found : graph.kind? id with
  | none => rfl
  | some kind =>
      rw [phis.kind_eq id beyond kind found]
      rfl

theorem Outer.seedAll (outer : Outer base graph) (phis : PhisBeyond base graph records) :
    Outer base (seedAll unknownIsBottom records graph) where
  beyond := outer.beyond
  target_lt edge listed := by
    rw [Propagation.seedAll, ValueGraph.size_setStates]
    exact outer.target_lt edge listed
  unknown id beyond state found := by
    rw [state?_seedAll] at found
    rcases Option.map_eq_some_iff.1 found with ⟨node, foundNode, rfl⟩
    have kind := phis.kind_eq id beyond node.kind (congrArg (Option.map ValueNode.kind) foundNode)
    have fresh : records.find? id = none := by
      refine Option.eq_none_iff_forall_ne_some.2 fun record known => ?_
      exact Nat.not_lt_of_le beyond (phis.record_lt id record known).1
    rw [seed, fresh, kind]
    rfl

theorem Beside.seedAll (beside : Beside base one two) (phis : PhisBeyond base one records) :
    Beside base (seedAll unknownIsBottom records one) (seedAll unknownIsBottom records two) where
  nodes_eq := by
    rw [Propagation.seedAll, Propagation.seedAll, ValueGraph.nodes_setStates,
      ValueGraph.nodes_setStates, beside.nodes_eq]
  incoming_eq := beside.incoming_eq
  mem_leadsBelow := beside.mem_leadsBelow
  outer_one := beside.outer_one.seedAll phis
  outer_two := beside.outer_two.seedAll (beside.phisBeyond phis)

/-- Propagation does the same in both graphs. -/
theorem Beside.propagate (beside : Beside base one two) (phis : PhisBeyond base one records) :
    Beside base (propagate unknownIsBottom one records).1
        (propagate unknownIsBottom two records).1 ∧
      (propagate unknownIsBottom two records).2 = (propagate unknownIsBottom one records).2 := by
  have size : two.size = one.size := congrArg Array.size beside.nodes_eq
  have start := @Beside.seedAll base one two unknownIsBottom records beside phis
  rcases beside_run unknownIsBottom _ (List.range one.size) ⟨0, 0⟩ _ start with ⟨later, stats⟩
  have raised : raise unknownIsBottom (run unknownIsBottom
        (Propagation.seedAll unknownIsBottom records two) (List.range one.size) ⟨0, 0⟩).1 =
      raise unknownIsBottom (run unknownIsBottom
        (Propagation.seedAll unknownIsBottom records one) (List.range one.size) ⟨0, 0⟩).1 := by
    funext record
    rw [raise, raise, later.state?_eq]
  rw [EscapePlan.propagate, EscapePlan.propagate, size]
  exact ⟨later, Prod.ext (congrArg records.map raised) stats⟩

/-- Accesses that are not beyond are shared in both graphs or in none. -/
theorem Beside.sharesAccess_eq (beside : Beside base one two) (allocation : NodeId) {access : NodeId}
    (known : access < base) :
    sharesAccess two allocation access = sharesAccess one allocation access := by
  rw [sharesAccess, sharesAccess, beside.incoming_eq access known]
  simp only [ValueGraph.isAllocation, beside.kind?_eq]

theorem Beside.usedByFieldsOnly_of (beside : Beside base one two)
    (phis : PhisBeyond base one records) {allocation : NodeId} (known : allocation < base)
    (only : usedByFieldsOnly two allocation = true) : usedByFieldsOnly one allocation = true := by
  rw [usedByFieldsOnly, List.all_eq_true] at only ⊢
  intro edge listed
  rcases beside.exists_edge known listed with ⟨other, otherListed, partner⟩
  have accessed := only other otherListed
  rw [Bool.and_eq_true] at accessed
  have inside : other.target < base := by
    refine Nat.lt_of_not_le fun beyond => ?_
    have never := (beside.phisBeyond phis).isFieldAccess_eq beyond
    rw [never] at accessed
    exact Bool.noConfusion accessed.1
  have same : other.target = edge.target :=
    partner.resolve_right fun beyond => Nat.not_lt_of_le beyond.2 inside
  rw [← same, ← beside.sharesAccess_eq allocation inside, ← beside.kind?_eq, Bool.and_eq_true]
  exact accessed

/-- Both graphs are judged alike. -/
theorem Beside.judgeRecords_eq (beside : Beside base one two) (phis : PhisBeyond base one records)
    (enabled : Bool) : judgeRecords enabled two records = judgeRecords enabled one records := by
  refine Table.ext_find? fun id => ?_
  rw [judgeRecords, judgeRecords, Table.find?_map, Table.find?_map]
  cases found : records.find? id with
  | none => rfl
  | some record =>
      obtain ⟨inside, same⟩ := phis.record_lt id record found
      have known : record.node < base := same ▸ inside
      have used : usedByFieldsOnly two record.node = usedByFieldsOnly one record.node := by
        rw [Bool.eq_iff_iff]
        exact ⟨beside.usedByFieldsOnly_of phis known,
          beside.symm.usedByFieldsOnly_of (beside.phisBeyond phis) known⟩
      rw [Option.map_some, Option.map_some, used]

end Propagation

end EscapePlan
