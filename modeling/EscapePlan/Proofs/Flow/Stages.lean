import EscapePlan.Proofs.Flow.Frontier
import EscapePlan.Proofs.Flow.PhiPlacement
import EscapePlan.Proofs.Flow.RenamingSteps

/-!
# Dominators and frontiers at any stage

Control flow keeps the edges it was built with, whatever is computed for it.  At any stage
of the work on it, dominators and dominance frontiers can be computed, and what is computed
is what the paths tell.
-/

namespace EscapePlan

namespace ControlFlow

open EscapePlan.Path

theorem agree_rename (flow : ControlFlow) : Agree edgeLists flow flow.rename.1 :=
  flow.retains_rename.agree.of_view edgeLists

/-! ## All stages -/

/-- Control flow at any stage of the work on it. -/
inductive Stage : ControlFlow → Prop where
  | empty : Stage empty
  | newBlock {flow : ControlFlow} : Stage flow → Stage flow.newBlock.2
  | newRegion {flow : ControlFlow} : Stage flow → Stage flow.newRegion.2
  | addEdge {flow : ControlFlow} (source target : BlockId) :
      Stage flow → Stage (flow.addEdge source target)
  | recordDefinition {flow : ControlFlow} (block : BlockId) (var : VarId) (node : NodeId) :
      Stage flow → Stage (flow.recordDefinition block var node)
  | computeDominators {flow : ControlFlow} : Stage flow → Stage flow.computeDominators
  | computeFrontiers {flow : ControlFlow} : Stage flow → Stage flow.computeFrontiers
  | attachPhi {flow : ControlFlow} (block : BlockId) (var : VarId) (node : NodeId) :
      Stage flow → Stage (flow.attachPhi block var node)
  | rename {flow : ControlFlow} : Stage flow → Stage flow.rename.1

theorem Built.stage {flow : ControlFlow} (built : flow.Built) : flow.Stage := by
  induction built with
  | empty => exact .empty
  | newBlock _ inductionHypothesis => exact inductionHypothesis.newBlock
  | newRegion _ inductionHypothesis => exact inductionHypothesis.newRegion
  | addEdge source target _ inductionHypothesis => exact inductionHypothesis.addEdge source target
  | recordDefinition block var node _ inductionHypothesis =>
      exact inductionHypothesis.recordDefinition block var node

theorem Stage.coherent {flow : ControlFlow} (stage : flow.Stage) : flow.Coherent := by
  induction stage with
  | empty => exact coherent_empty
  | newBlock _ inductionHypothesis => exact inductionHypothesis.newBlock
  | newRegion _ inductionHypothesis => exact inductionHypothesis.newRegion
  | addEdge source target _ inductionHypothesis => exact inductionHypothesis.addEdge source target
  | @recordDefinition flow block var node _ inductionHypothesis =>
      exact inductionHypothesis.of_agree
        ((flow.agree_recordDefinition block var node).of_view (·.1))
  | @computeDominators flow _ inductionHypothesis =>
      exact inductionHypothesis.of_agree (flow.agree_computeDominators.of_view edgeLists)
  | @computeFrontiers flow _ inductionHypothesis =>
      exact inductionHypothesis.of_agree (flow.agree_computeFrontiers.of_view edgeLists)
  | @attachPhi flow block var node _ inductionHypothesis =>
      exact inductionHypothesis.of_agree
        ((agree_attachPhi flow block var node).of_view edgeLists)
  | @rename flow _ inductionHypothesis => exact inductionHypothesis.of_agree flow.agree_rename

/-- Whatever phis there are, blocks list them. -/
theorem Stage.exists_holdsPhis {flow : ControlFlow} (stage : flow.Stage) :
    ∃ sites, HoldsPhis sites flow := by
  induction stage with
  | empty => exact ⟨[], holdsPhis_nil rfl fun block => by simp [phiPlaces, block?, ControlFlow.empty]⟩
  | @newBlock flow _ inductionHypothesis =>
      exact inductionHypothesis.imp fun _ holds =>
        holds.of_same rfl (getD_newBlock flow (·.phis) rfl)
  | @newRegion flow _ inductionHypothesis =>
      exact inductionHypothesis.imp fun _ holds =>
        holds.of_same rfl (getD_newBlock flow (·.phis) rfl)
  | @addEdge flow source target _ inductionHypothesis =>
      exact inductionHypothesis.imp fun _ holds =>
        holds.of_same (phis_addEdge flow source target)
          ((agree_addEdge flow source target).getD_eq (·.phis))
  | @recordDefinition flow block var node _ inductionHypothesis =>
      exact inductionHypothesis.imp fun _ holds =>
        holds.of_same rfl ((flow.agree_recordDefinition block var node).getD_eq (·.2))
  | @computeDominators flow _ inductionHypothesis =>
      have same := @part_computeDominators _ (·.phis) (fun _ _ => rfl) flow
      exact inductionHypothesis.imp fun _ holds =>
        holds.of_same same (flow.agree_computeDominators.getD_eq (·.phis))
  | @computeFrontiers flow _ inductionHypothesis =>
      have same := @part_computeFrontiers _ (·.phis) (fun _ _ => rfl) flow
      exact inductionHypothesis.imp fun _ holds =>
        holds.of_same same (flow.agree_computeFrontiers.getD_eq (·.phis))
  | @attachPhi flow block var node _ inductionHypothesis =>
      rcases inductionHypothesis with ⟨sites, holds⟩
      by_cases known : block < flow.size
      · exact ⟨_, holds.attachPhi known var node⟩
      · rw [ControlFlow.attachPhi, if_neg known]
        exact ⟨sites, holds⟩
  | @rename flow _ inductionHypothesis =>
      exact inductionHypothesis.imp fun _ holds => flow.retains_rename.holdsPhis holds

/-- Without phis, control flow is as it was built. -/
theorem Stage.wellFormed {flow : ControlFlow} (stage : flow.Stage) (none : flow.phis = #[]) :
    flow.WellFormed where
  toCoherent := stage.coherent
  phis_eq := none
  phiPlaces_eq block := by
    rcases stage.exists_holdsPhis with ⟨sites, holds⟩
    refine List.eq_nil_iff_forall_not_mem.2 fun place member => ?_
    rcases (holds.mem_phiPlaces block place).1 member with ⟨phi, found, -⟩
    simp [none] at found

/-- No edge is listed twice. -/
theorem Stage.nodup_successors {flow : ControlFlow} (stage : flow.Stage) (block : BlockId) :
    (flow.successors block).Nodup := by
  induction stage with
  | empty => simp [successors, block?, ControlFlow.empty]
  | @newBlock flow _ inductionHypothesis =>
      rw [successors, getD_newBlock flow (·.successors) rfl]
      exact inductionHypothesis
  | @newRegion flow _ inductionHypothesis =>
      have same : flow.newRegion.2.successors block = flow.successors block :=
        getD_newBlock flow (·.successors) rfl block
      rw [same]
      exact inductionHypothesis
  | @addEdge flow source target _ inductionHypothesis =>
      by_cases accepted : source < flow.size ∧ target < flow.size ∧ target ∉ flow.successors source
      · rcases accepted with ⟨known, targetKnown, fresh⟩
        rw [(addEdge_accepted known targetKnown fresh block).1]
        split
        next same => exact List.nodup_append.2 ⟨inductionHypothesis, by simp, by
          intro other old last new equal
          rw [equal, List.mem_singleton.1 new, ← same] at old
          exact fresh old⟩
        next => exact inductionHypothesis
      · rw [ControlFlow.addEdge, if_neg (by simpa using accepted)]
        exact inductionHypothesis
  | @recordDefinition flow other var node _ inductionHypothesis =>
      have agree := (flow.agree_recordDefinition other var node).of_view (·.1)
      rw [successors_eq_of_agree agree]
      exact inductionHypothesis
  | @computeDominators flow _ inductionHypothesis =>
      rw [successors_eq_of_agree (flow.agree_computeDominators.of_view edgeLists)]
      exact inductionHypothesis
  | @computeFrontiers flow _ inductionHypothesis =>
      rw [successors_eq_of_agree (flow.agree_computeFrontiers.of_view edgeLists)]
      exact inductionHypothesis
  | @attachPhi flow other var node _ inductionHypothesis =>
      rw [successors_eq_of_agree ((agree_attachPhi flow other var node).of_view edgeLists)]
      exact inductionHypothesis
  | @rename flow _ inductionHypothesis =>
      rw [successors_eq_of_agree flow.agree_rename]
      exact inductionHypothesis

/-! ## Blocks that cannot be reached -/

/-- What is computed for blocks or given to them is about blocks that can be reached. -/
structure Confined (flow : ControlFlow) : Prop where
  isReachable : ∀ block, flow.isReachable block = true → flow.Reached block
  child : ∀ parent child, child ∈ flow.childrenOf parent → flow.Reached child
  version_eq : ∀ block, ¬ flow.Reached block →
    ∀ definition ∈ flow.definitions block, definition.version = 0

section

variable {first second : ControlFlow}

theorem Reached.mono {block : BlockId} (reached : first.Reached block)
    (entries : ∀ entry ∈ first.entries, entry ∈ second.entries)
    (edges : ∀ source target, first.Edge source target → second.Edge source target) :
    second.Reached block := by
  rcases reached with ⟨entry, known, earlier, steps⟩
  exact ⟨entry, entries entry known, earlier, steps.mono edges⟩

/-- What is computed for a block. -/
def marks (block : Block) : Bool × List BlockId :=
  (block.reachable, block.children)

/-- Definitions may be added, and may change in blocks that can be reached. -/
theorem Confined.of_marks (confined : first.Confined) (agree : Agree marks first second)
    (grows : ∀ block, first.Reached block → second.Reached block)
    (old : ∀ block, ¬ second.Reached block → ∀ definition ∈ second.definitions block,
      definition ∈ first.definitions block ∨ definition.version = 0) : second.Confined where
  isReachable block reachable := by
    have same : second.isReachable block = first.isReachable block := agree.any_eq (·.1) block
    exact grows block (confined.isReachable block (same ▸ reachable))
  child parent child below := by
    have same : second.childrenOf parent = first.childrenOf parent := agree.getD_eq (·.2) parent
    exact grows child (confined.child parent child (same ▸ below))
  version_eq block unreached definition member :=
    (old block unreached definition member).elim
      (confined.version_eq block (mt (grows block) unreached) definition) id

/-- What is computed for a block or given to it. -/
def marksAndDefinitions (block : Block) : (Bool × List BlockId) × List Definition :=
  (marks block, block.definitions)

theorem Confined.of_agree (confined : first.Confined)
    (agree : Agree marksAndDefinitions first second)
    (grows : ∀ block, first.Reached block → second.Reached block) : second.Confined := by
  refine confined.of_marks (agree.of_view (·.1)) grows fun block _ definition member => .inl ?_
  have same : second.definitions block = first.definitions block := agree.getD_eq (·.2) block
  exact same ▸ member

end

theorem Confined.newBlock {flow : ControlFlow} (confined : flow.Confined) {entries : List BlockId}
    (more : ∀ entry ∈ flow.entries, entry ∈ entries) :
    Confined { flow.newBlock.2 with entries } := by
  have grows : ∀ block, flow.Reached block →
      ({ flow.newBlock.2 with entries } : ControlFlow).Reached block := fun block reached =>
    reached.mono more fun source target => (edge_newBlock source target).2
  constructor
  · intro block reachable
    refine grows block (confined.isReachable block ?_)
    change (flow.newBlock.2.block? block).any (·.reachable) = true at reachable
    rw [block?_newBlock] at reachable
    split at reachable
    next => contradiction
    next => exact reachable
  · intro parent child below
    have same : flow.newBlock.2.childrenOf parent = flow.childrenOf parent :=
      getD_newBlock flow (·.children) rfl parent
    exact grows child (confined.child parent child (same ▸ below))
  · intro block unreached definition member
    have same : flow.newBlock.2.definitions block = flow.definitions block :=
      getD_newBlock flow (·.definitions) rfl block
    exact confined.version_eq block (mt (grows block) unreached) definition (same ▸ member)

theorem Confined.recordDefinition {flow : ControlFlow} (confined : flow.Confined) (block : BlockId)
    (var : VarId) (node : NodeId) : (flow.recordDefinition block var node).Confined := by
  have edges := (flow.agree_recordDefinition block var node).of_view (·.1)
  refine confined.of_marks (.modifyBlock ?_ flow block)
    (fun other => (reached_iff_of_agree edges).2) fun other _ definition member => ?_
  · exact fun _ => rfl
  · rw [definitions, ControlFlow.recordDefinition, getD_modifyBlock] at member
    split at member
    next =>
      cases found : flow.block? other with
      | none =>
          rw [found] at member
          contradiction
      | some inside =>
          rw [found] at member
          rcases List.mem_append.1 member with before | new
          · exact .inl (by rwa [definitions, found])
          · exact .inr (by rw [List.mem_singleton.1 new])
    next => exact .inl member

/-- The dominator trees of some regions are about blocks that can be reached. -/
theorem reached_foldl_dominateRegion {flow current : ControlFlow} (coherent : flow.Coherent)
    {entries : List BlockId} (known : ∀ entry ∈ entries, entry ∈ flow.entries)
    (agree : Agree withoutTree flow current)
    (isReachable : ∀ block, current.isReachable block = true → flow.Reached block)
    (child : ∀ parent child, child ∈ current.childrenOf parent → flow.Reached child) :
    (∀ block, (entries.foldl dominateRegion current).isReachable block = true →
        flow.Reached block) ∧
      ∀ parent child, child ∈ (entries.foldl dominateRegion current).childrenOf parent →
        flow.Reached child := by
  induction entries generalizing current with
  | nil => exact ⟨isReachable, child⟩
  | cons entry entries inductionHypothesis =>
      have entryKnown := known entry List.mem_cons_self
      have inside := coherent.entry_lt entry entryKnown
      have here : entry < current.size := agree.size_eq ▸ inside
      have explored : ∀ block ∈ (current.explore entry).order, flow.Reached block := by
        intro block listed
        rw [explore_eq_of_agree (agree.of_view edgeLists), mem_order_explore coherent inside] at listed
        exact ⟨entry, entryKnown, listed⟩
      refine inductionHypothesis (fun other member => known other (List.mem_cons_of_mem _ member))
        (agree.trans (agree_dominateRegion current entry)) ?_ ?_
      · intro block reachable
        rcases (isReachable_dominateRegion here block).1 reachable with ⟨listed, -⟩ | before
        · exact explored block listed
        · exact isReachable block before
      · intro parent other below
        have parentKnown := lt_of_mem_childrenOf below
        rw [(agree_dominateRegion current entry).size_eq] at parentKnown
        rw [childrenOf_dominateRegion here parent parentKnown, List.mem_append] at below
        rcases below with before | new
        · exact child parent other before
        · exact explored other (List.mem_filter.1 new).1

theorem Confined.computeDominators {flow : ControlFlow} (confined : flow.Confined)
    (coherent : flow.Coherent) : flow.computeDominators.Confined := by
  have cleared := DominatorTrees.clear flow
  have edges := flow.agree_computeDominators.of_view edgeLists
  have regions : (∀ block, flow.computeDominators.isReachable block = true → flow.Reached block) ∧
      ∀ parent child, child ∈ flow.computeDominators.childrenOf parent → flow.Reached child := by
    refine reached_foldl_dominateRegion coherent (fun _ member => member) cleared.agree ?_ ?_
    · intro block reachable
      rcases (cleared.isReachable_iff block).1 reachable with ⟨entry, none, -⟩
      contradiction
    · intro parent child below
      have unsettled := cleared.idom?_none child fun _ none => absurd none List.not_mem_nil
      rw [cleared.mem_childrenOf, unsettled] at below
      contradiction
  constructor
  · intro block reachable
    exact (reached_iff_of_agree edges).2 (regions.1 block reachable)
  · intro parent child below
    exact (reached_iff_of_agree edges).2 (regions.2 parent child below)
  · intro block unreached definition member
    rw [reached_iff_of_agree edges] at unreached
    have same : flow.computeDominators.definitions block = flow.definitions block :=
      flow.agree_computeDominators.getD_eq (·.definitions) block
    exact confined.version_eq block unreached definition (same ▸ member)

theorem Confined.rename {flow : ControlFlow} (confined : flow.Confined) :
    flow.rename.1.Confined := by
  have steps := flow.steps_rename (fun entry member _ => ⟨entry, member, .refl flow.Edge entry⟩)
    confined.child
  refine confined.of_marks (flow.retains_rename.agree.of_view marks)
    (fun block => (reached_iff_of_agree flow.agree_rename).2) ?_
  intro block unreached definition member
  rw [reached_iff_of_agree flow.agree_rename] at unreached
  rw [definitions, flow_rename, Renaming.Steps.block?_eq steps unreached] at member
  exact .inl member

theorem Stage.confined {flow : ControlFlow} (stage : flow.Stage) : flow.Confined := by
  induction stage with
  | empty =>
      constructor <;> simp [isReachable, childrenOf, definitions, block?, ControlFlow.empty]
  | newBlock _ inductionHypothesis => exact inductionHypothesis.newBlock fun _ member => member
  | newRegion _ inductionHypothesis =>
      exact inductionHypothesis.newBlock fun _ member => List.mem_append_left _ member
  | @addEdge flow source target _ inductionHypothesis =>
      refine inductionHypothesis.of_agree ((agree_addEdge flow source target).of_view marksAndDefinitions) ?_
      intro block reached
      refine reached.mono ?_ fun first last taken => edge_addEdge_of_edge taken source target
      rw [entries_addEdge]
      exact fun _ member => member
  | recordDefinition block var node _ inductionHypothesis =>
      exact inductionHypothesis.recordDefinition block var node
  | computeDominators stage inductionHypothesis =>
      exact inductionHypothesis.computeDominators stage.coherent
  | @computeFrontiers flow _ inductionHypothesis =>
      exact inductionHypothesis.of_agree (flow.agree_computeFrontiers.of_view marksAndDefinitions)
        fun block => (reached_iff_of_agree (flow.agree_computeFrontiers.of_view edgeLists)).2
  | @attachPhi flow block var node _ inductionHypothesis =>
      have agree := agree_attachPhi flow block var node
      exact inductionHypothesis.of_agree (agree.of_view marksAndDefinitions)
        fun block => (reached_iff_of_agree (agree.of_view edgeLists)).2
  | rename _ inductionHypothesis => exact inductionHypothesis.rename

/-! ## Computed dominators -/

/-- Dominators are computed, and they are those that the paths of the control flow tell. -/
structure FindsDominators (flow : ControlFlow) : Prop where
  /-- The iteration for a region comes to rest, whatever regions were computed before it:
  chains meet, and no block without number or candidate is looked up. -/
  settles : ∀ done entry todo, flow.entries = done ++ entry :: todo →
    ∃ dominators,
      (done.foldl dominateRegion flow.clearDominators).immediateDominators? entry =
        some dominators
  isReachable_iff : ∀ block, flow.computeDominators.isReachable block = true ↔
    ∃ entry ∈ flow.entries, Leads flow.Edge entry block
  /-- Going up from a block comes to an end within as many steps as `dominates` takes. -/
  climbs : ∀ block, ∃ last,
    (flow.computeDominators.ancestry (flow.size + 1) block).getLast? = some last ∧
      flow.computeDominators.idom? last = none
  dominates_iff : ∀ entry ∈ flow.entries, ∀ block, Leads flow.Edge entry block → ∀ other,
    flow.computeDominators.dominates other block = true ↔ Dominates flow.Edge entry other block
  idom?_eq_some_iff : ∀ entry ∈ flow.entries, ∀ block, Leads flow.Edge entry block →
    ∀ dominator, flow.computeDominators.idom? block = some dominator ↔
      IsImmediateDominator flow.Edge entry dominator block
  idom?_eq_none_iff : ∀ block, flow.computeDominators.idom? block = none ↔
    block ∈ flow.entries ∨ ∀ entry ∈ flow.entries, ¬ Leads flow.Edge entry block

/-- In control flow in which no block is reachable from two entries, dominators are found. -/
theorem findsDominators (flow : ControlFlow) (stage : flow.Stage) (apart : flow.Apart) :
    flow.FindsDominators := by
  have coherent := stage.coherent
  have trees := dominatorTrees_computeDominators coherent apart
  constructor
  · intro done entry todo equal
    have known : entry ∈ flow.entries := equal ▸ List.mem_append_right _ List.mem_cons_self
    rcases exists_immediateDominators? coherent (coherent.entry_lt entry known) with
      ⟨dominators, computed, -⟩
    have agree : Agree withoutTree flow (done.foldl dominateRegion flow.clearDominators) :=
      (DominatorTrees.clear flow).agree.trans (Agree.foldl agree_dominateRegion done _)
    exact ⟨dominators,
      (immediateDominators?_eq_of_agree (agree.of_view edgeLists) entry).trans computed⟩
  · exact trees.isReachable_iff
  · exact trees.exists_last coherent
  · intro entry known block leads other
    exact trees.dominates_iff coherent known leads
  · intro entry known block leads dominator
    exact trees.idom?_eq_some_iff known leads
  · intro block
    exact trees.idom?_eq_none_iff

/-- Two blocks that lead to each other can both be entered first and lead back to the entry;
a third one is dead. -/
def knotted : ControlFlow :=
  (((((empty.newRegion.2.newBlock.2.newBlock.2.newBlock.2.addEdge 0 1).addEdge 0 2).addEdge
    1 2).addEdge 2 1).addEdge 2 0).addEdge 3 1

theorem findsDominators_knotted :
    knotted.Stage ∧ knotted.Apart ∧ Path knotted.Edge 0 [1, 2, 1, 0] ∧
      knotted.computeDominators.idom? 1 = some 0 ∧
        knotted.computeDominators.dominates 2 1 = false := by
  have stage : knotted.Stage :=
    .addEdge 3 1 (.addEdge 2 0 (.addEdge 2 1 (.addEdge 1 2 (.addEdge 0 2 (.addEdge 0 1
      (.newBlock (.newBlock (.newBlock (.newRegion .empty)))))))))
  have apart : knotted.Apart := by
    intro first firstKnown second secondKnown _ _ _
    exact (List.mem_singleton.1 firstKnown).trans (List.mem_singleton.1 secondKnown).symm
  have around : Path knotted.Edge 0 [1, 2, 1, 0] :=
    .step (.step (.step .start (by decide)) (by decide)) (by decide)
  have direct : Path knotted.Edge 0 [1, 0] := .step .start (by decide)
  have finds := findsDominators knotted stage apart
  have aside : ¬ Dominates knotted.Edge 0 2 1 := fun dominates =>
    absurd (dominates [0] direct) (by decide)
  refine ⟨stage, apart, around, ?_, ?_⟩
  · refine (finds.idom?_eq_some_iff 0 List.mem_cons_self 1 ⟨_, direct⟩ 0).2
      ⟨dominates_start 1, by decide, fun other dominates strict => ?_⟩
    have onPath := (List.mem_cons.1 (dominates [0] direct)).resolve_left strict
    rw [List.mem_singleton.1 onPath]
    exact .refl 0
  · rw [← Bool.not_eq_true, finds.dominates_iff 0 List.mem_cons_self 1 ⟨_, direct⟩]
    exact aside

/-! ## Computed frontiers -/

/-- Dominance frontiers are computed, and they are those that the paths of the control flow
tell. -/
structure FindsFrontiers (flow : ControlFlow) : Prop where
  /-- Spreading joins comes to rest. -/
  settles : Iteration.untilStable (fun flow => some flow.spreadJoins) 2
    flow.computeDominators.clearFrontiers = some flow.computeDominators.computeFrontiers
  /-- Every way up from a predecessor of a join comes to the block where it stops. -/
  stops : ∀ join, flow.computeDominators.isReachable join = true →
    ∀ predecessor ∈ flow.predecessors join,
      flow.computeDominators.isReachable predecessor = true →
        ∃ stop, flow.computeDominators.idom? join = some stop ∧
          stop ∈ flow.computeDominators.ancestry flow.size predecessor
  mem_frontier_iff : ∀ entry ∈ flow.entries, ∀ block, Leads flow.Edge entry block → ∀ join,
    join ∈ flow.computeDominators.computeFrontiers.frontier block ↔
      Leads flow.Edge entry join ∧ ∃ predecessor, flow.Edge predecessor join ∧
        Leads flow.Edge entry predecessor ∧ Dominates flow.Edge entry block predecessor ∧
          ¬ (Dominates flow.Edge entry block join ∧ block ≠ join)
  frontier_eq_nil : ∀ block, (∀ entry ∈ flow.entries, ¬ Leads flow.Edge entry block) →
    flow.computeDominators.computeFrontiers.frontier block = []

/-- In control flow in which no block is reachable from two entries and no entry has a
predecessor, frontiers are found. -/
theorem findsFrontiers (flow : ControlFlow) (stage : flow.Stage) (separate : flow.Separate) :
    flow.FindsFrontiers := by
  have coherent := stage.coherent
  have trees := dominatorTrees_computeDominators coherent separate.apart
  constructor
  · rw [untilStable_spreadJoins, computeFrontiers_eq]
  · intro join _ predecessor before reached
    rcases (trees.isReachable_iff predecessor).1 reached with ⟨entry, known, leads⟩
    have taken := (coherent.mem_predecessors predecessor join).1 before
    rcases trees.exists_stop coherent separate known leads taken with ⟨stop, found, -, met⟩
    exact ⟨stop, found, met⟩
  · intro entry known block leads join
    rw [trees.mem_frontier coherent separate]
    constructor
    · rintro ⟨root, rootKnown, predecessor, taken, reached, dominates, unstrict⟩
      have same := separate.entry_unique root rootKnown entry known block
        (dominates.leads reached) leads
      subst same
      exact ⟨reached.step taken, predecessor, taken, reached, dominates, unstrict⟩
    · rintro ⟨-, predecessor, ends⟩
      exact ⟨entry, known, predecessor, ends⟩
  · intro block unreached
    refine List.eq_nil_iff_forall_not_mem.2 fun join member => ?_
    rcases (trees.mem_frontier coherent separate).1 member with
      ⟨entry, known, predecessor, -, reached, dominates, -⟩
    exact unreached entry known (dominates.leads reached)

/-- A loop inside a loop, with a block that leads to itself and a dead predecessor. -/
def nested : ControlFlow :=
  (((((((empty.newRegion.2.newBlock.2.newBlock.2.newBlock.2.newBlock.2.addEdge 0 1).addEdge
    1 2).addEdge 2 2).addEdge 2 3).addEdge 3 2).addEdge 3 1).addEdge 4 3)

theorem findsFrontiers_nested :
    nested.Stage ∧ nested.Separate ∧
      2 ∈ nested.computeDominators.computeFrontiers.frontier 2 ∧
        1 ∈ nested.computeDominators.computeFrontiers.frontier 3 ∧
          nested.computeDominators.computeFrontiers.frontier 4 = [] := by
  have stage : nested.Stage :=
    .addEdge 4 3 (.addEdge 3 1 (.addEdge 3 2 (.addEdge 2 3 (.addEdge 2 2 (.addEdge 1 2
      (.addEdge 0 1 (.newBlock (.newBlock (.newBlock (.newBlock (.newRegion .empty)))))))))))
  have separate : nested.Separate := by
    constructor
    · intro first firstKnown second secondKnown _ _ _
      exact (List.mem_singleton.1 firstKnown).trans (List.mem_singleton.1 secondKnown).symm
    · intro entry known
      rw [List.mem_singleton.1 known]
      rfl
  have finds := findsFrontiers nested stage separate
  have toTwo : Path nested.Edge 0 [2, 1, 0] := .step (.step .start (by decide)) (by decide)
  have toThree : Path nested.Edge 0 [3, 2, 1, 0] := toTwo.step (by decide)
  refine ⟨stage, separate, ?_, ?_, ?_⟩
  · refine (finds.mem_frontier_iff 0 List.mem_cons_self 2 ⟨_, toTwo⟩ 2).2
      ⟨⟨_, toTwo⟩, 2, by decide, ⟨_, toTwo⟩, .refl 2, fun strict => strict.2 rfl⟩
  · have toOne : Path nested.Edge 0 [1, 0] := .step .start (by decide)
    refine (finds.mem_frontier_iff 0 List.mem_cons_self 3 ⟨_, toThree⟩ 1).2
      ⟨⟨_, toOne⟩, 3, by decide, ⟨_, toThree⟩, .refl 3, fun strict => ?_⟩
    exact absurd (strict.1 [0] toOne) (by decide)
  · refine finds.frontier_eq_nil 4 fun entry known leads => ?_
    rcases leads with ⟨earlier, steps⟩
    rw [List.mem_singleton.1 known] at steps
    cases steps with
    | @step before _ _ _ taken =>
        have inside := source_lt_of_edge taken
        revert taken
        have none : ∀ before < 5, ¬ nested.Edge before 4 := by decide
        exact none before inside

end ControlFlow

end EscapePlan
