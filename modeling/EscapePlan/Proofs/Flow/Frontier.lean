import EscapePlan.Proofs.Flow.Ancestry
import Mathlib.Tactic.Tauto

/-!
# The computed dominance frontiers

A block is in the frontier of another exactly if the other dominates one of its
predecessors and does not dominate it strictly itself.
-/

namespace EscapePlan.ControlFlow

open EscapePlan.Path

variable {flow current : ControlFlow} {entry block : BlockId}

/-! ## Where dominance ends -/

namespace DominatorTrees

/-- Going up from a predecessor of a join meets the immediate dominator of the join. -/
theorem exists_stop (trees : DominatorTrees flow flow.entries current)
    (coherent : flow.Coherent) (separate : flow.Separate) (known : entry ∈ flow.entries)
    {join predecessor : BlockId} (leads : Leads flow.Edge entry predecessor)
    (taken : flow.Edge predecessor join) :
    ∃ stop, current.idom? join = some stop ∧ IsImmediateDominator flow.Edge entry stop join ∧
      stop ∈ current.ancestry flow.size predecessor := by
  rcases trees.idom?_of_leads known (leads.step taken) with ⟨root, -⟩ | ⟨stop, found, immediate⟩
  · have backward := (coherent.mem_predecessors predecessor join).2 taken
    rw [root, separate.predecessors_entry entry known] at backward
    contradiction
  · exact ⟨stop, found, immediate, trees.mem_ancestry coherent known leads
      (dominates_predecessor taken immediate.dominates immediate.strict)
      (rank_lt_size coherent (coherent.entry_lt entry known) leads)⟩

/-- The blocks whose dominance over a predecessor ends at a join. -/
theorem mem_runners (trees : DominatorTrees flow flow.entries current)
    (coherent : flow.Coherent) (separate : flow.Separate) (known : entry ∈ flow.entries)
    {join predecessor : BlockId} (leads : Leads flow.Edge entry predecessor)
    (taken : flow.Edge predecessor join) (runner : BlockId) :
    runner ∈ current.runners join predecessor ↔
      Dominates flow.Edge entry runner predecessor ∧
        ¬ (Dominates flow.Edge entry runner join ∧ runner ≠ join) := by
  have joined : Leads flow.Edge entry join := leads.step taken
  have reached := rank_lt_size coherent (coherent.entry_lt entry known) leads
  rcases trees.exists_stop coherent separate known leads taken with
    ⟨stop, found, immediate, met⟩
  rcases trees.ancestry_dominates known leads flow.size with ⟨above, chain⟩
  rcases List.eq_append_cons_of_mem met with ⟨below, beyond, climb, absent⟩
  rw [climb] at chain
  rcases List.pairwise_append.1 chain with ⟨-, upward, ordered⟩
  have runnersEq : current.runners join predecessor = below := by
    rw [runners, found, Option.getD_some, trees.agree.size_eq, climb,
      List.takeWhile_append_of_pos ?_, List.takeWhile_cons_of_neg (by simp), List.append_nil]
    intro lower member
    have different : lower ≠ stop := fun same => absent (same ▸ member)
    simpa using different
  rw [runnersEq]
  constructor
  · intro member
    refine ⟨above runner (climb ▸ List.mem_append_left _ member), ?_⟩
    rintro ⟨dominates, strict⟩
    rcases ordered runner member stop List.mem_cons_self with ⟨stopAbove, different⟩
    have stopBelow := immediate.last runner dominates strict
    have stopLeads := immediate.dominates.leads joined
    exact different (stopAbove.antisymm stopLeads stopBelow)
  · rintro ⟨dominates, unstrict⟩
    have climbed := trees.mem_ancestry coherent known leads dominates reached
    rw [climb] at climbed
    rcases List.mem_append.1 climbed with lower | later
    · exact lower
    · exfalso
      apply unstrict
      rcases List.mem_cons.1 later with rfl | higher
      · exact ⟨immediate.dominates, immediate.strict⟩
      · have outer := (List.pairwise_cons.1 upward).1 runner higher
        refine ⟨outer.1.trans immediate.dominates, ?_⟩
        intro same
        rw [same] at outer
        exact immediate.strict
          (immediate.dominates.antisymm (immediate.dominates.leads joined) outer.1)

end DominatorTrees

/-! ## Collecting the frontiers -/

/-- A block apart from its frontier. -/
def withoutFrontier (block : Block) : Block :=
  { block with frontier := [] }

theorem mem_frontier_extendFrontier (flow : ControlFlow) (join runner block other : BlockId) :
    other ∈ (flow.extendFrontier join runner).frontier block ↔
      other ∈ flow.frontier block ∨ (other = join ∧ block = runner ∧ block < flow.size) := by
  rw [extendFrontier, frontier, getD_modifyBlock]
  split
  next same =>
    subst same
    by_cases inside : runner < flow.size
    · rcases exists_block?_of_lt inside with ⟨found, equal⟩
      simp only [frontier, equal, Option.map_some, Option.getD_some]
      split
      next listed =>
        rw [List.contains_iff_mem] at listed
        simp only [inside, and_true]
        exact ⟨.inl, fun either => either.elim id fun same => same ▸ listed⟩
      next => simp [inside]
    · simp [frontier, block?_eq_none_iff.2 (Nat.le_of_not_lt inside), inside]
  next different => simp [frontier, Ne.symm different]

theorem mem_frontier_foldl_extendFrontier (join : BlockId) (runners : List BlockId)
    (flow : ControlFlow) (block other : BlockId) :
    other ∈ (runners.foldl (extendFrontier join) flow).frontier block ↔
      other ∈ flow.frontier block ∨ (other = join ∧ block ∈ runners ∧ block < flow.size) := by
  induction runners generalizing flow with
  | nil => simp
  | cons runner runners inductionHypothesis =>
      have size : (flow.extendFrontier join runner).size = flow.size := size_modifyBlock _ _ _
      rw [List.foldl_cons, inductionHypothesis, mem_frontier_extendFrontier, size, List.mem_cons]
      tauto

/-- The dominance of a block ends at a join, in computed dominator trees. -/
def EndsAt (flow : ControlFlow) (block join : BlockId) : Prop :=
  flow.isReachable join = true ∧
    ∃ predecessor ∈ flow.predecessors join,
      flow.isReachable predecessor = true ∧ block ∈ flow.runners join predecessor

theorem mem_frontier_spreadJoin (flow : ControlFlow) (join block other : BlockId) :
    other ∈ (flow.spreadJoin join).frontier block ↔
      other ∈ flow.frontier block ∨
        (other = join ∧ block < flow.size ∧ flow.EndsAt block join) := by
  rw [spreadJoin, EndsAt]
  split
  next reachable =>
    rw [mem_frontier_foldl_extendFrontier]
    simp only [List.mem_flatMap, List.mem_filter, reachable, true_and, and_assoc]
    tauto
  next unreachable => simp [unreachable]

theorem agree_spreadJoin (flow : ControlFlow) (join : BlockId) :
    Agree withoutFrontier flow (flow.spreadJoin join) := by
  rw [spreadJoin]
  split
  next =>
    apply Agree.foldl
    intro flow block
    apply Agree.modifyBlock
    intro found
    split
    next => rfl
    next => rfl
  next => exact .refl flow

/-- What frontiers are computed from: edges, immediate dominators, and whether blocks are
reachable. -/
def dominance (block : Block) : (List BlockId × List BlockId) × Option BlockId × Bool :=
  (edgeLists block, block.idom, block.reachable)

section

variable {first second : ControlFlow}

theorem idom?_eq_of_agree (agree : Agree dominance first second) (block : BlockId) :
    second.idom? block = first.idom? block :=
  agree.bind_eq (·.2.1) block

theorem ancestry_eq_of_agree (agree : Agree dominance first second) (steps : Nat)
    (block : BlockId) : second.ancestry steps block = first.ancestry steps block := by
  induction steps generalizing block with
  | zero => rfl
  | succ steps inductionHypothesis =>
      rw [ancestry, ancestry, idom?_eq_of_agree agree]
      split
      next => rfl
      next => rw [inductionHypothesis]

theorem isReachable_eq_of_agree (agree : Agree dominance first second) :
    second.isReachable = first.isReachable := by
  funext block
  exact agree.any_eq (·.2.2) block

theorem runners_eq_of_agree (agree : Agree dominance first second) (join : BlockId) :
    second.runners join = first.runners join := by
  funext predecessor
  rw [runners, runners, idom?_eq_of_agree agree, ancestry_eq_of_agree agree, agree.size_eq]

theorem endsAt_iff_of_agree (agree : Agree dominance first second) (block join : BlockId) :
    second.EndsAt block join ↔ first.EndsAt block join := by
  rw [EndsAt, EndsAt, isReachable_eq_of_agree agree,
    predecessors_eq_of_agree (agree.of_view (·.1)), runners_eq_of_agree agree]

end

theorem mem_frontier_foldl_spreadJoin {base current : ControlFlow}
    (agree : Agree withoutFrontier base current) (joins : List BlockId) (block other : BlockId) :
    other ∈ (joins.foldl spreadJoin current).frontier block ↔
      other ∈ current.frontier block ∨
        (other ∈ joins ∧ block < base.size ∧ base.EndsAt block other) := by
  induction joins generalizing current with
  | nil => simp
  | cons join joins inductionHypothesis =>
      rw [List.foldl_cons, inductionHypothesis (agree.trans (agree_spreadJoin current join)),
        mem_frontier_spreadJoin, endsAt_iff_of_agree (agree.of_view dominance), agree.size_eq,
        List.mem_cons]
      constructor
      · rintro ((old | ⟨rfl, inside, ends⟩) | ⟨later, ends⟩)
        · exact .inl old
        · exact .inr ⟨.inl rfl, inside, ends⟩
        · exact .inr ⟨.inr later, ends⟩
      · rintro (old | ⟨rfl | later, ends⟩)
        · exact .inl (.inl old)
        · exact .inl (.inr ⟨rfl, ends⟩)
        · exact .inr ⟨later, ends⟩

theorem agree_spreadJoins (flow : ControlFlow) : Agree withoutFrontier flow flow.spreadJoins :=
  Agree.foldl agree_spreadJoin _ flow

theorem mem_frontier_spreadJoins (flow : ControlFlow) (block other : BlockId) :
    other ∈ flow.spreadJoins.frontier block ↔ other ∈ flow.frontier block ∨
      (other < flow.size ∧ block < flow.size ∧ flow.EndsAt block other) := by
  rw [spreadJoins, mem_frontier_foldl_spreadJoin (.refl flow), List.mem_range]

/-! ## One round is enough -/

theorem modifyBlock_eq_self {change : Block → Block}
    (same : ∀ found, flow.block? block = some found → change found = found) :
    flow.modifyBlock block change = flow := by
  have blocks : flow.blocks.modify block change = flow.blocks := by
    apply Array.ext_getElem?
    intro other
    rw [Array.getElem?_modify]
    split
    next equal =>
      subst equal
      cases found : flow.blocks[block]? with
      | none => rfl
      | some old => exact congrArg some (same old found)
    next => rfl
  rw [modifyBlock, blocks]

theorem extendFrontier_eq_self {join : BlockId}
    (listed : block < flow.size → join ∈ flow.frontier block) :
    flow.extendFrontier join block = flow := by
  refine modifyBlock_eq_self fun found equal => ?_
  have inside : block < flow.size := by
    apply Nat.lt_of_not_le
    intro unknown
    rw [block?_eq_none_iff.2 unknown] at equal
    contradiction
  have member := listed inside
  rw [frontier, equal] at member
  exact if_pos (List.contains_iff_mem.2 member)

theorem foldl_eq_self {α β : Type} {step : β → α → β} {items : List α} {state : β}
    (same : ∀ item ∈ items, step state item = state) : items.foldl step state = state := by
  induction items with
  | nil => rfl
  | cons item items inductionHypothesis =>
      rw [List.foldl_cons, same item List.mem_cons_self]
      exact inductionHypothesis fun other member => same other (List.mem_cons_of_mem _ member)

/-- Spreading joins again changes nothing. -/
theorem spreadJoins_spreadJoins (flow : ControlFlow) :
    flow.spreadJoins.spreadJoins = flow.spreadJoins := by
  rw [spreadJoins.eq_1 flow.spreadJoins]
  refine foldl_eq_self fun join inRange => ?_
  rw [spreadJoin]
  split
  next reachable =>
    refine foldl_eq_self fun runner member => extendFrontier_eq_self fun inside => ?_
    rcases List.mem_flatMap.1 member with ⟨predecessor, before, onWay⟩
    rcases List.mem_filter.1 before with ⟨before, reached⟩
    have ends : flow.spreadJoins.EndsAt runner join :=
      ⟨reachable, predecessor, before, reached, onWay⟩
    rw [endsAt_iff_of_agree (flow.agree_spreadJoins.of_view dominance)] at ends
    rw [List.mem_range, flow.agree_spreadJoins.size_eq] at inRange
    rw [flow.agree_spreadJoins.size_eq] at inside
    exact (mem_frontier_spreadJoins flow runner join).2 (.inr ⟨inRange, inside, ends⟩)
  next => rfl

/-- The computation of frontiers ends after two rounds at most, the last of which changes
nothing. -/
theorem untilStable_spreadJoins (flow : ControlFlow) :
    Iteration.untilStable (fun flow => some flow.spreadJoins) 2 flow.clearFrontiers =
      some flow.clearFrontiers.spreadJoins := by
  simp only [Iteration.untilStable, Option.bind_eq_bind, Option.bind_some, spreadJoins_spreadJoins,
    if_pos, Option.pure_def]
  split
  next same => rw [same]
  next => rfl

theorem computeFrontiers_eq (flow : ControlFlow) :
    flow.computeFrontiers = flow.clearFrontiers.spreadJoins := by
  rw [computeFrontiers, untilStable_spreadJoins, Option.getD_some]

theorem agree_clearFrontiers (flow : ControlFlow) :
    Agree withoutFrontier flow flow.clearFrontiers := by
  apply Agree.mapBlocks
  intro found
  rfl

theorem frontier_clearFrontiers (flow : ControlFlow) (block : BlockId) :
    flow.clearFrontiers.frontier block = [] := by
  rw [frontier, block?, clearFrontiers, Array.getElem?_map]
  cases flow.blocks[block]? with
  | none => rfl
  | some found => rfl

theorem agree_computeFrontiers (flow : ControlFlow) :
    Agree withoutFrontier flow flow.computeFrontiers := by
  rw [computeFrontiers_eq]
  exact flow.agree_clearFrontiers.trans flow.clearFrontiers.agree_spreadJoins

/-- The computation of frontiers changes blocks only. -/
theorem part_computeFrontiers {β : Type} {part : ControlFlow → β}
    (stays : ∀ flow blocks, part { flow with blocks } = part flow) (flow : ControlFlow) :
    part flow.computeFrontiers = part flow := by
  rw [computeFrontiers_eq]
  refine (part_foldl ?_ _ flow.clearFrontiers).trans (stays flow _)
  intro flow join
  rw [spreadJoin]
  split
  next =>
    apply part_foldl
    intro flow block
    exact stays flow _
  next => rfl

theorem mem_frontier_computeFrontiers (flow : ControlFlow) (block other : BlockId) :
    other ∈ flow.computeFrontiers.frontier block ↔
      other < flow.size ∧ block < flow.size ∧ flow.EndsAt block other := by
  rw [computeFrontiers_eq, mem_frontier_spreadJoins, frontier_clearFrontiers,
    endsAt_iff_of_agree (flow.agree_clearFrontiers.of_view dominance),
    flow.agree_clearFrontiers.size_eq]
  simp

/-- The computed frontier of a block is its dominance frontier. -/
theorem DominatorTrees.mem_frontier (trees : DominatorTrees flow flow.entries current)
    (coherent : flow.Coherent) (separate : flow.Separate) {join : BlockId} :
    join ∈ current.computeFrontiers.frontier block ↔
      ∃ entry ∈ flow.entries, ∃ predecessor,
        flow.Edge predecessor join ∧ Leads flow.Edge entry predecessor ∧
          Dominates flow.Edge entry block predecessor ∧
            ¬ (Dominates flow.Edge entry block join ∧ block ≠ join) := by
  have predecessors : current.predecessors join = flow.predecessors join :=
    trees.agree.getD_eq (·.predecessors) join
  rw [mem_frontier_computeFrontiers, trees.agree.size_eq, EndsAt, predecessors]
  constructor
  · rintro ⟨-, -, -, predecessor, before, reachable, runner⟩
    rcases (trees.isReachable_iff predecessor).1 reachable with ⟨entry, known, leads⟩
    have taken := (coherent.mem_predecessors predecessor join).1 before
    exact ⟨entry, known, predecessor, taken, leads,
      (trees.mem_runners coherent separate known leads taken block).1 runner⟩
  · rintro ⟨entry, known, predecessor, taken, leads, dominates, unstrict⟩
    have inside := coherent.entry_lt entry known
    refine ⟨coherent.target_lt predecessor join taken,
      leads_lt coherent inside (dominates.leads leads),
      (trees.isReachable_iff join).2 ⟨entry, known, leads.step taken⟩, predecessor,
      (coherent.mem_predecessors predecessor join).2 taken,
      (trees.isReachable_iff predecessor).2 ⟨entry, known, leads⟩, ?_⟩
    exact (trees.mem_runners coherent separate known leads taken block).2 ⟨dominates, unstrict⟩

end EscapePlan.ControlFlow
