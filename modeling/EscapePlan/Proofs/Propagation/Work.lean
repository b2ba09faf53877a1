import EscapePlan.Proofs.Propagation
import Mathlib.Algebra.Group.Action.Defs
import Mathlib.Algebra.Order.BigOperators.Group.List
import Mathlib.Algebra.Order.Ring.Nat
import Mathlib.Data.List.Chain

/-!
# How much work propagation takes

States rise one after the other, each at most three times, and a rise queues no more nodes again
than edges lead to the node that has risen.  So the queue runs empty soon: every edge is charged
for the rises of its target, and every node for its first turn.

`propagate_bounded` says so of the figures that a propagation reports, and how the states of each
node follow one another.
-/

namespace EscapePlan.Propagation

/-- A propagation under way: what is still queued, and the states that nodes have risen to so far,
in order. -/
structure Stage where
  graph : ValueGraph
  queue : List NodeId
  rises : List (NodeId × EscapeState)

namespace Stage

/-- What a propagation begins with. -/
def initial (unknownIsBottom : Bool) (graph : ValueGraph) (records : Records) : Stage :=
  ⟨seedAll unknownIsBottom records graph, List.range graph.size, []⟩

/-- The states that a node has been in since a start, in order. -/
def history (stage start : Stage) (id : NodeId) : List EscapeState :=
  (start.graph.state? id).toList ++ (stage.rises.filter (·.1 = id)).map (·.2)

end Stage

variable {unknownIsBottom : Bool}

/-- The first node leaves the queue: it stays in its state, or it rises and queues the nodes that
flow into it. -/
inductive Turn (unknownIsBottom : Bool) : Stage → Stage → Prop where
  | keep {graph : ValueGraph} {id : NodeId} {rest : List NodeId}
      {rises : List (NodeId × EscapeState)} :
      (∀ current, graph.state? id = some current →
        joined unknownIsBottom graph id current = current) →
      Turn unknownIsBottom ⟨graph, id :: rest, rises⟩ ⟨graph, rest, rises⟩
  | rise {graph : ValueGraph} {id : NodeId} {rest : List NodeId}
      {rises : List (NodeId × EscapeState)} {current raised : EscapeState} :
      graph.state? id = some current → joined unknownIsBottom graph id current = raised →
      current.level unknownIsBottom < raised.level unknownIsBottom →
      Turn unknownIsBottom ⟨graph, id :: rest, rises⟩
        ⟨graph.setState id raised, ((graph.incoming id).map (·.source)).foldl enqueue rest,
          rises ++ [(id, raised)]⟩

/-- So many turns, one after the other. -/
inductive Turns (unknownIsBottom : Bool) (start : Stage) : Nat → Stage → Prop where
  | none : Turns unknownIsBottom start 0 start
  | more {turns : Nat} {stage later : Stage} :
      Turns unknownIsBottom start turns stage → Turn unknownIsBottom stage later →
      Turns unknownIsBottom start (turns + 1) later

/-- A turn does not leave open what comes next. -/
theorem Turn.unique {stage first second : Stage} (one : Turn unknownIsBottom stage first)
    (two : Turn unknownIsBottom stage second) : first = second := by
  cases one with
  | keep unchanged =>
      cases two with
      | keep => rfl
      | rise found raised rises =>
          rw [← raised, unchanged _ found] at rises
          exact absurd rises (Nat.lt_irrefl _)
  | rise found raised rises =>
      cases two with
      | keep unchanged =>
          rw [← raised, unchanged _ found] at rises
          exact absurd rises (Nat.lt_irrefl _)
      | rise foundAgain raisedAgain =>
          cases found.symm.trans foundAgain
          cases raised.symm.trans raisedAgain
          rfl

/-! ## What a run does -/

theorem Turns.cons {stage later last : Stage} {turns : Nat}
    (first : Turn unknownIsBottom stage later) (rest : Turns unknownIsBottom later turns last) :
    Turns unknownIsBottom stage (turns + 1) last := by
  induction rest with
  | none => exact .more .none first
  | more _ turn inductionHypothesis => exact .more inductionHypothesis turn

/-- A run takes turns until the queue is empty, and counts them and the rises among them. -/
theorem exists_turns_run (unknownIsBottom : Bool) (graph : ValueGraph) (queue : List NodeId)
    (stats : PropagationStats) (rises : List (NodeId × EscapeState)) :
    ∃ turns last, Turns unknownIsBottom ⟨graph, queue, rises⟩ turns last ∧ last.queue = [] ∧
      last.graph = (run unknownIsBottom graph queue stats).1 ∧
      (run unknownIsBottom graph queue stats).2.iterations = stats.iterations + turns ∧
      (run unknownIsBottom graph queue stats).2.increases + rises.length =
        stats.increases + last.rises.length := by
  fun_induction run unknownIsBottom graph queue stats generalizing rises with
  | case1 graph stats => exact ⟨0, _, .none, rfl, rfl, rfl, rfl⟩
  | case2 graph stats id rest counted unknown inductionHypothesis =>
      obtain ⟨turns, last, taken, empty, graphEq, iterations, increases⟩ :=
        inductionHypothesis rises
      have more : counted.iterations = stats.iterations + 1 := rfl
      refine ⟨turns + 1, last, .cons (.keep ?_) taken, empty, graphEq, by omega, increases⟩
      intro current found
      rw [unknown] at found
      cases found
  | case3 graph stats id rest counted current found unchanged inductionHypothesis =>
      obtain ⟨turns, last, taken, empty, graphEq, iterations, increases⟩ :=
        inductionHypothesis rises
      have more : counted.iterations = stats.iterations + 1 := rfl
      refine ⟨turns + 1, last, .cons (.keep ?_) taken, empty, graphEq, by omega, increases⟩
      intro other foundOther
      cases found.symm.trans foundOther
      exact unchanged
  | case4 graph stats id rest counted current found changed inductionHypothesis =>
      obtain ⟨turns, last, taken, empty, graphEq, iterations, increases⟩ :=
        inductionHypothesis (rises ++ [(id, joined unknownIsBottom graph id current)])
      have risen : current.level unknownIsBottom <
          (joined unknownIsBottom graph id current).level unknownIsBottom :=
        Nat.lt_of_le_of_ne (level_le_joined _ _ _ _) fun same =>
          changed (EscapeState.level_injective same).symm
      have more : counted.iterations = stats.iterations + 1 := rfl
      have same : counted.increases = stats.increases := rfl
      simp only [List.length_append, List.length_singleton] at iterations increases
      exact ⟨turns + 1, last, .cons (.rise found rfl risen) taken, empty, graphEq, by omega,
        by omega⟩

/-! ## What a turn costs -/

/-- How often the target of an edge may still rise. -/
def charge (unknownIsBottom : Bool) (graph : ValueGraph) (edge : Edge) : Nat :=
  ((graph.state? edge.target).map fun state => 3 - state.level unknownIsBottom).getD 0

/-- How often the targets of all edges may still rise together. -/
def charges (unknownIsBottom : Bool) (graph : ValueGraph) : Nat :=
  (graph.edges.toList.map (charge unknownIsBottom graph)).sum

theorem room_le (unknownIsBottom : Bool) (graph : ValueGraph) :
    room unknownIsBottom graph ≤ 3 * graph.size := by
  have bounded : ∀ left ∈ graph.nodes.toList.map fun node => 3 - node.state.level unknownIsBottom,
      left ≤ 3 := List.forall_mem_map.2 fun _ _ => Nat.sub_le _ _
  have within := List.sum_le_card_nsmul _ 3 bounded
  rwa [List.length_map, Array.length_toList, smul_eq_mul, Nat.mul_comm] at within

theorem charges_le (unknownIsBottom : Bool) (graph : ValueGraph) :
    charges unknownIsBottom graph ≤ 3 * graph.edges.size := by
  have bounded : ∀ left ∈ graph.edges.toList.map (charge unknownIsBottom graph), left ≤ 3 := by
    refine List.forall_mem_map.2 fun edge _ => ?_
    rw [charge]
    cases graph.state? edge.target with
    | none => exact Nat.zero_le _
    | some state => exact Nat.sub_le _ _
  have within := List.sum_le_card_nsmul _ 3 bounded
  rwa [List.length_map, Array.length_toList, smul_eq_mul, Nat.mul_comm] at within

/-- The rise of a node is paid for by the edges that lead to it. -/
theorem charges_setState {graph : ValueGraph} {id : NodeId} {current raised : EscapeState}
    (found : graph.state? id = some current)
    (rises : current.level unknownIsBottom < raised.level unknownIsBottom) :
    charges unknownIsBottom (graph.setState id raised) + (graph.incoming id).length ≤
      charges unknownIsBottom graph := by
  have bound := EscapeState.level_le unknownIsBottom raised
  have paid (edge : Edge) : charge unknownIsBottom (graph.setState id raised) edge +
      (if edge.target = id then 1 else 0) ≤ charge unknownIsBottom graph edge := by
    rw [charge, charge, ValueGraph.state?_setState]
    by_cases same : id = edge.target
    · rw [if_pos same, if_pos same.symm, ← same, found]
      simp only [Option.map_some, Option.getD_some]
      omega
    · rw [if_neg same, if_neg (Ne.symm same)]
      exact Nat.le_refl _
  have edges : (graph.setState id raised).edges = graph.edges := rfl
  rw [charges, charges, ValueGraph.incoming_eq, edges]
  induction graph.edges.toList with
  | nil => exact Nat.le_refl _
  | cons edge edges inductionHypothesis =>
      have first := paid edge
      rw [List.map_cons, List.map_cons, List.sum_cons, List.sum_cons, List.filter_cons]
      by_cases same : edge.target = id
      · simp only [same, decide_true, if_true, List.length_cons] at first ⊢
        omega
      · simp only [same, decide_false, if_false, Bool.false_eq_true] at first ⊢
        omega

theorem length_enqueue (queue : List NodeId) (id : NodeId) :
    queue.length ≤ (enqueue queue id).length ∧ (enqueue queue id).length ≤ queue.length + 1 := by
  rw [enqueue]
  split
  next => exact ⟨Nat.le_refl _, Nat.le_succ _⟩
  next => simp

/-- No node leaves the queue by queueing others, and each of these takes one place at most. -/
theorem length_foldl_enqueue (queue ids : List NodeId) :
    queue.length ≤ (ids.foldl enqueue queue).length ∧
      (ids.foldl enqueue queue).length ≤ queue.length + ids.length := by
  induction ids generalizing queue with
  | nil => exact ⟨Nat.le_refl _, Nat.le_refl _⟩
  | cons id ids inductionHypothesis =>
      have first := length_enqueue queue id
      have rest := inductionHypothesis (enqueue queue id)
      rw [List.foldl_cons, List.length_cons]
      omega

/-- A turn takes one node from the queue, and what it queues is paid for. -/
theorem Turn.costs {stage later : Stage} (turn : Turn unknownIsBottom stage later) :
    stage.queue.length ≤ later.queue.length + 1 ∧
      later.queue.length + 1 + charges unknownIsBottom later.graph ≤
        stage.queue.length + charges unknownIsBottom stage.graph ∧
      later.rises.length + room unknownIsBottom later.graph ≤
        stage.rises.length + room unknownIsBottom stage.graph := by
  cases turn with
  | keep => exact ⟨Nat.le_refl _, Nat.le_refl _, Nat.le_refl _⟩
  | @rise graph id rest rises current raised found _ risen =>
      have paid := charges_setState found risen
      have room := room_setState_lt found risen
      have queued := length_foldl_enqueue rest ((graph.incoming id).map (·.source))
      rw [List.length_map] at queued
      simp only [List.length_cons, List.length_append, List.length_nil]
      omega

theorem Turns.costs {start stage : Stage} {turns : Nat}
    (taken : Turns unknownIsBottom start turns stage) :
    start.queue.length ≤ stage.queue.length + turns ∧
      stage.queue.length + turns + charges unknownIsBottom stage.graph ≤
        start.queue.length + charges unknownIsBottom start.graph ∧
      stage.rises.length + room unknownIsBottom stage.graph ≤
        start.rises.length + room unknownIsBottom start.graph := by
  induction taken with
  | none => exact ⟨Nat.le_refl _, Nat.le_refl _, Nat.le_refl _⟩
  | more _ turn inductionHypothesis =>
      have last := turn.costs
      omega

/-! ## How states follow one another -/

/-- The states of a node rise strictly, up to the one that it is in. -/
def Climbs (unknownIsBottom : Bool) (start stage : Stage) (id : NodeId) : Prop :=
  List.IsChain (fun lower upper => lower.level unknownIsBottom < upper.level unknownIsBottom)
      (stage.history start id) ∧
    (stage.history start id).getLast? = stage.graph.state? id

/-- A turn adds at most one state to what a node has been in, a higher one. -/
theorem Turn.climbs {start stage later : Stage} {id : NodeId}
    (turn : Turn unknownIsBottom stage later) (climbs : Climbs unknownIsBottom start stage id) :
    Climbs unknownIsBottom start later id := by
  cases turn with
  | keep => exact climbs
  | @rise graph risen rest rises current raised found _ higher =>
      obtain ⟨chain, last⟩ := climbs
      have state := ValueGraph.state?_setState graph risen id raised
      rw [Stage.history] at chain last
      rw [Climbs, Stage.history, List.filter_append, List.map_append, ← List.append_assoc, state]
      by_cases same : risen = id
      · subst same
        rw [found] at last
        rw [if_pos rfl, found]
        simp only [List.filter_cons, decide_true, if_true, List.filter_nil, List.map_cons,
          List.map_nil, List.getLast?_append, List.getLast?_singleton]
        refine ⟨chain.append (.singleton _) ?_, rfl⟩
        rw [last]
        rintro _ ⟨⟩ _ ⟨⟩
        exact higher
      · rw [if_neg same]
        simp only [List.filter_cons, same, decide_false, Bool.false_eq_true, if_false,
          List.filter_nil, List.map_nil, List.append_nil]
        exact ⟨chain, last⟩

theorem Turns.climbs {start stage : Stage} {turns : Nat}
    (taken : Turns unknownIsBottom start turns stage) (fresh : start.rises = []) (id : NodeId) :
    Climbs unknownIsBottom start stage id := by
  induction taken with
  | none =>
      rw [Climbs, Stage.history, fresh]
      cases start.graph.state? id with
      | none => exact ⟨.nil, rfl⟩
      | some state => exact ⟨.singleton _, rfl⟩
  | more _ turn inductionHypothesis => exact turn.climbs inductionHypothesis

theorem size_seedAll (records : Records) (graph : ValueGraph) :
    (seedAll unknownIsBottom records graph).size = graph.size :=
  graph.size_setStates _

end Propagation

open Propagation in
/-- Propagation takes the turns that it reports, until no node is left in the queue.  At most
three times as many states rise as there are nodes, and there is a turn for every node, and at
most three more for every edge.  The states of a node rise strictly, in the chosen order, from
what it is seeded with to what it ends in. -/
theorem propagate_bounded (unknownIsBottom : Bool) (graph : ValueGraph) (records : Records) :
    let start := Stage.initial unknownIsBottom graph records
    let outcome := propagate unknownIsBottom graph records
    let stats := outcome.2.2
    ∃ last, Turns unknownIsBottom start stats.iterations last ∧
      last.queue = [] ∧ last.graph = outcome.1 ∧ last.rises.length = stats.increases ∧
      stats.increases ≤ 3 * graph.size ∧
      graph.size ≤ stats.iterations ∧ stats.iterations ≤ graph.size + 3 * graph.edges.size ∧
      ∀ id, Climbs unknownIsBottom start last id := by
  intro start outcome stats
  obtain ⟨turns, last, taken, empty, graphEq, iterations, increases⟩ :=
    exists_turns_run unknownIsBottom start.graph start.queue ⟨0, 0⟩ []
  have ran : stats = (run unknownIsBottom start.graph start.queue ⟨0, 0⟩).2 := rfl
  rw [← ran] at iterations increases
  simp only [Nat.zero_add, List.length_nil, Nat.add_zero] at iterations increases
  have costs := taken.costs
  have room := room_le unknownIsBottom start.graph
  have charges := charges_le unknownIsBottom start.graph
  have size : start.graph.size = graph.size := size_seedAll records graph
  have edges : start.graph.edges = graph.edges := rfl
  have queue : start.queue.length = graph.size := List.length_range
  simp only [empty, List.length_nil, queue] at costs
  rw [size] at room
  rw [edges] at charges
  refine ⟨last, iterations ▸ taken, empty, graphEq, increases.symm, ?_, ?_, ?_, taken.climbs rfl⟩
  · omega
  · omega
  · omega

end EscapePlan
