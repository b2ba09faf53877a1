import EscapePlan.Proofs.Flow.Candidates
import Mathlib.Data.List.Perm.Subperm

/-!
# The computed dominator trees

In the computed trees every block hangs on its immediate dominator.  Regions are computed
one after the other and do not touch each other.
-/

namespace EscapePlan.ControlFlow

open EscapePlan.Path

variable {flow : ControlFlow} {entry block : BlockId}

/-! ## How late a block comes -/

/-- The place of a block in reverse postorder. -/
def rank (flow : ControlFlow) (entry block : BlockId) : Nat :=
  (flow.explore entry).order.idxOf block

theorem leads_lt (coherent : flow.Coherent) (known : entry < flow.size)
    (leads : Leads flow.Edge entry block) : block < flow.size := by
  rcases leads with ⟨earlier, steps⟩
  cases steps with
  | start => exact known
  | step _ taken => exact coherent.target_lt _ _ taken

theorem rank_lt_size (coherent : flow.Coherent) (known : entry < flow.size)
    (leads : Leads flow.Edge entry block) : flow.rank entry block < flow.size := by
  have listed := (mem_order_explore coherent known).2 leads
  have subset : (flow.explore entry).order ⊆ List.range flow.size := by
    intro other member
    exact List.mem_range.2 (leads_lt coherent known ((mem_order_explore coherent known).1 member))
  have fewer := ((nodup_order_explore flow known).subperm subset).length_le
  rw [List.length_range] at fewer
  exact Nat.lt_of_lt_of_le (List.idxOf_lt_length_of_mem listed) fewer

/-- A block comes later than each of its strict dominators. -/
theorem rank_lt_rank (coherent : flow.Coherent) (known : entry < flow.size)
    (leads : Leads flow.Edge entry block) {dominator : BlockId}
    (dominates : Dominates flow.Edge entry dominator block) (strict : dominator ≠ block) :
    flow.rank entry dominator < flow.rank entry block :=
  (region_explore coherent known).precedes dominator block leads dominates strict

/-! ## Changing one region -/

/-- The children of a block in the dominator tree. -/
def childrenOf (flow : ControlFlow) (block : BlockId) : List BlockId :=
  ((flow.block? block).map (·.children)).getD []

/-- A block apart from its place in the dominator tree. -/
def withoutTree (block : Block) : Block :=
  { block with idom := none, children := [], reachable := false }

/-- Changing each block of a list once changes these blocks only. -/
theorem block?_foldl_modifyBlock (change : BlockId → Block → Block) {items : List BlockId}
    (nodup : items.Nodup) (flow : ControlFlow) (block : BlockId) :
    (items.foldl (fun flow item => flow.modifyBlock item (change item)) flow).block? block =
      if block ∈ items then (flow.block? block).map (change block) else flow.block? block := by
  induction items generalizing flow with
  | nil => simp
  | cons item items inductionHypothesis =>
      rcases List.nodup_cons.1 nodup with ⟨fresh, nodup⟩
      rw [List.foldl_cons, inductionHypothesis nodup, block?_modifyBlock]
      by_cases same : item = block
      · subst same
        rw [if_neg fresh, if_pos rfl, if_pos List.mem_cons_self]
      · simp [same, Ne.symm same]

theorem idom?_adopt (flow : ControlFlow) (item block : BlockId) :
    (flow.adopt item).idom? block = flow.idom? block := by
  rw [adopt]
  split
  next => rfl
  next parent found =>
    rw [idom?, block?_modifyBlock]
    split
    next => rw [Option.bind_map]; rfl
    next => rfl

/-- Adoption adds to each block the listed blocks that it dominates immediately. -/
theorem block?_foldl_adopt (items : List BlockId) (flow : ControlFlow) (block : BlockId) :
    (items.foldl adopt flow).block? block = (flow.block? block).map fun found =>
      { found with
        children := found.children ++ items.filter fun item => flow.idom? item = some block } := by
  induction items generalizing flow with
  | nil => simp
  | cons item items inductionHypothesis =>
      rw [List.foldl_cons, inductionHypothesis]
      simp only [idom?_adopt]
      rw [adopt]
      split
      next found => simp [found]
      next parent found =>
        rw [block?_modifyBlock]
        split
        next same =>
          subst same
          simp [found, Function.comp_def]
        next different => simp [found, different]

/-- Dominance inside a region, before blocks are made children of each other. -/
def settleRegion (flow : ControlFlow) (entry : BlockId) : ControlFlow :=
  (flow.explore entry).order.foldl
    (settleBlock entry ((flow.immediateDominators? entry).getD .empty)) flow

theorem block?_settleRegion (known : entry < flow.size) (block : BlockId) :
    (flow.settleRegion entry).block? block =
      if block ∈ (flow.explore entry).order then
        (flow.block? block).map fun found =>
          { found with
            reachable := true
            idom := if block = entry then found.idom
              else ((flow.immediateDominators? entry).getD .empty).find? block }
      else flow.block? block :=
  block?_foldl_modifyBlock _ (nodup_order_explore flow known) flow block

/-- What the dominator tree of a region makes of a block. -/
theorem block?_dominateRegion (flow : ControlFlow) (entry block : BlockId) :
    (flow.dominateRegion entry).block? block =
      ((flow.settleRegion entry).block? block).map fun found =>
        { found with
          children := found.children ++ (flow.explore entry).order.filter fun item =>
            (flow.settleRegion entry).idom? item = some block } := by
  rw [dominateRegion]
  exact block?_foldl_adopt _ _ _

theorem idom?_dominateRegion (flow : ControlFlow) (entry block : BlockId) :
    (flow.dominateRegion entry).idom? block = (flow.settleRegion entry).idom? block := by
  rw [idom?, block?_dominateRegion, Option.bind_map]
  rfl

theorem idom?_of_mem_order (known : entry < flow.size) (inside : block < flow.size)
    (explored : block ∈ (flow.explore entry).order) :
    (flow.dominateRegion entry).idom? block =
      if block = entry then flow.idom? entry
      else ((flow.immediateDominators? entry).getD .empty).find? block := by
  rcases exists_block?_of_lt inside with ⟨found, equal⟩
  rw [idom?_dominateRegion, idom?, block?_settleRegion known, if_pos explored, equal]
  by_cases same : block = entry
  · rw [same] at equal
    simp [same, idom?, equal]
  · simp [same]

theorem idom?_of_not_mem_order (known : entry < flow.size)
    (elsewhere : block ∉ (flow.explore entry).order) :
    (flow.dominateRegion entry).idom? block = flow.idom? block := by
  rw [idom?_dominateRegion, idom?, block?_settleRegion known, if_neg elsewhere]
  rfl

theorem isReachable_dominateRegion (known : entry < flow.size) (block : BlockId) :
    (flow.dominateRegion entry).isReachable block = true ↔
      (block ∈ (flow.explore entry).order ∧ block < flow.size) ∨ flow.isReachable block = true := by
  rw [isReachable, block?_dominateRegion, block?_settleRegion known]
  by_cases inside : block < flow.size
  · rcases exists_block?_of_lt inside with ⟨found, equal⟩
    by_cases explored : block ∈ (flow.explore entry).order
    · simp [explored, inside, equal, isReachable]
    · simp [explored, equal, isReachable]
  · simp [block?_eq_none_iff.2 (Nat.le_of_not_lt inside), inside, isReachable]

theorem childrenOf_dominateRegion (known : entry < flow.size) (block : BlockId)
    (inside : block < flow.size) :
    (flow.dominateRegion entry).childrenOf block =
      flow.childrenOf block ++ (flow.explore entry).order.filter fun item =>
        (flow.dominateRegion entry).idom? item = some block := by
  simp only [idom?_dominateRegion]
  rw [childrenOf, block?_dominateRegion, block?_settleRegion known]
  rcases exists_block?_of_lt inside with ⟨found, equal⟩
  by_cases explored : block ∈ (flow.explore entry).order
  · simp [explored, equal, childrenOf]
  · simp [explored, equal, childrenOf]

theorem lt_of_mem_childrenOf {child : BlockId} (member : child ∈ flow.childrenOf block) :
    block < flow.size := by
  apply Nat.lt_of_not_le
  intro unknown
  rw [childrenOf, block?_eq_none_iff.2 unknown] at member
  contradiction

theorem agree_dominateRegion (flow : ControlFlow) (entry : BlockId) :
    Agree withoutTree flow (flow.dominateRegion entry) := by
  rw [dominateRegion]
  refine Agree.trans ?_ (Agree.foldl ?_ _ _)
  · apply Agree.foldl
    intro flow item
    apply Agree.modifyBlock
    intro found
    rfl
  · intro flow item
    rw [adopt]
    split
    next => exact Agree.refl flow
    next =>
      apply Agree.modifyBlock
      intro found
      rfl

section

variable {β : Type} {part : ControlFlow → β}

theorem part_foldl {γ : Type} {step : ControlFlow → γ → ControlFlow}
    (stays : ∀ flow item, part (step flow item) = part flow) (items : List γ) (flow : ControlFlow) :
    part (items.foldl step flow) = part flow := by
  induction items generalizing flow with
  | nil => rfl
  | cons item items inductionHypothesis => exact (inductionHypothesis _).trans (stays flow item)

/-- The computation of dominators changes blocks only. -/
theorem part_computeDominators (stays : ∀ flow blocks, part { flow with blocks } = part flow)
    (flow : ControlFlow) : part flow.computeDominators = part flow := by
  refine (part_foldl ?_ flow.entries flow.clearDominators).trans (stays flow _)
  intro flow entry
  refine (part_foldl ?adopted _ _).trans (part_foldl ?settled _ _)
  case settled =>
    intro flow block
    exact stays flow _
  case adopted =>
    intro flow block
    rw [adopt]
    split
    next => rfl
    next => exact stays flow _

end

/-- What is computed for a region depends on edges only. -/
theorem explore_eq_of_agree {first second : ControlFlow} (agree : Agree edgeLists first second)
    (entry : BlockId) : second.explore entry = first.explore entry := by
  have successors := funext (successors_eq_of_agree agree)
  rw [explore, explore, successors, agree.size_eq]

theorem immediateDominators?_eq_of_agree {first second : ControlFlow}
    (agree : Agree edgeLists first second) (entry : BlockId) :
    second.immediateDominators? entry = first.immediateDominators? entry := by
  have improved : second.improve = first.improve := by
    funext order candidates block
    rw [improve, improve, predecessors_eq_of_agree agree]
  rw [immediateDominators?, immediateDominators?, explore_eq_of_agree agree]
  unfold improveAll
  rw [improved]

/-! ## All regions -/

/-- The dominator trees of the regions of some entries, in control flow that differs from
a given one in dominator trees only. -/
structure DominatorTrees (base : ControlFlow) (done : List BlockId) (current : ControlFlow) :
    Prop where
  agree : Agree withoutTree base current
  isReachable_iff : ∀ block, current.isReachable block = true ↔
    ∃ entry ∈ done, Leads base.Edge entry block
  idom?_entry : ∀ entry ∈ base.entries, current.idom? entry = none
  idom?_some : ∀ entry ∈ done, ∀ block, Leads base.Edge entry block → block ≠ entry →
    ∃ dominator, current.idom? block = some dominator ∧
      IsImmediateDominator base.Edge entry dominator block
  idom?_none : ∀ block, (∀ entry ∈ done, ¬ Leads base.Edge entry block) →
    current.idom? block = none
  mem_childrenOf : ∀ parent child, child ∈ current.childrenOf parent ↔
    current.idom? child = some parent
  nodup_childrenOf : ∀ parent, (current.childrenOf parent).Nodup

theorem DominatorTrees.clear (base : ControlFlow) :
    DominatorTrees base [] base.clearDominators := by
  have blocks : ∀ block,
      base.clearDominators.block? block = (base.block? block).map withoutTree := by
    intro block
    exact Array.getElem?_map
  have idoms : ∀ block, base.clearDominators.idom? block = none := by
    intro block
    rw [idom?, blocks]
    cases base.block? block with
    | none => rfl
    | some found => rfl
  have children : ∀ block, base.clearDominators.childrenOf block = [] := by
    intro block
    rw [childrenOf, blocks]
    cases base.block? block with
    | none => rfl
    | some found => rfl
  constructor
  · apply Agree.mapBlocks
    intro found
    rfl
  · intro block
    rw [isReachable, blocks]
    cases base.block? block with
    | none => simp
    | some found => simp [withoutTree]
  · intro entry _
    exact idoms entry
  · intro entry member
    contradiction
  · intro block _
    exact idoms block
  · intro parent child
    simp [children, idoms]
  · intro parent
    rw [children]
    exact List.nodup_nil

theorem agree_computeDominators (flow : ControlFlow) :
    Agree withoutTree flow flow.computeDominators :=
  (DominatorTrees.clear flow).agree.trans (Agree.foldl agree_dominateRegion flow.entries _)

/-- What the dominator tree of one region adds to control flow where no block of the region
has a dominator yet. -/
structure AddsTree (base : ControlFlow) (entry : BlockId) (before after : ControlFlow) :
    Prop where
  agree : Agree withoutTree before after
  isReachable_iff : ∀ block, after.isReachable block = true ↔
    Leads base.Edge entry block ∨ before.isReachable block = true
  root : after.idom? entry = none
  settled : ∀ block, Leads base.Edge entry block → block ≠ entry →
    ∃ dominator, after.idom? block = some dominator ∧
      IsImmediateDominator base.Edge entry dominator block
  kept : ∀ block, ¬ Leads base.Edge entry block → after.idom? block = before.idom? block
  mem_childrenOf : ∀ parent child, child ∈ after.childrenOf parent ↔
    child ∈ before.childrenOf parent ∨
      (Leads base.Edge entry child ∧ after.idom? child = some parent)
  nodup_childrenOf : ∀ parent, (before.childrenOf parent).Nodup →
    (∀ child ∈ before.childrenOf parent, ¬ Leads base.Edge entry child) →
      (after.childrenOf parent).Nodup

theorem addsTree_dominateRegion {base current : ControlFlow} (coherent : base.Coherent)
    (agree : Agree withoutTree base current) (inside : entry < base.size)
    (unsettled : current.idom? entry = none) :
    AddsTree base entry current (current.dominateRegion entry) := by
  have sizeEq : current.size = base.size := agree.size_eq
  have edges := agree.of_view edgeLists
  have explored := explore_eq_of_agree edges entry
  have here : entry < current.size := sizeEq ▸ inside
  have within : ∀ block, Leads base.Edge entry block → block < current.size :=
    fun block leads => sizeEq ▸ leads_lt coherent inside leads
  rcases exists_immediateDominators? coherent inside with ⟨dominators, computed, immediate⟩
  have listed : ∀ block, block ∈ (current.explore entry).order ↔ Leads base.Edge entry block := by
    intro block
    rw [explored, mem_order_explore coherent inside]
  have root : (current.dominateRegion entry).idom? entry = none := by
    rw [idom?_of_mem_order here here ((listed entry).2 ⟨[], .start⟩), if_pos rfl]
    exact unsettled
  have settled : ∀ block, Leads base.Edge entry block → block ≠ entry →
      ∃ dominator, (current.dominateRegion entry).idom? block = some dominator ∧
        IsImmediateDominator base.Edge entry dominator block := by
    intro block leads different
    rw [idom?_of_mem_order here (within block leads) ((listed block).2 leads), if_neg different,
      immediateDominators?_eq_of_agree edges, computed]
    exact immediate block leads different
  have sizeStep : (current.dominateRegion entry).size = current.size :=
    (agree_dominateRegion current entry).size_eq
  constructor
  · exact agree_dominateRegion current entry
  · intro block
    rw [isReachable_dominateRegion here, listed]
    exact or_congr_left ⟨And.left, fun leads => ⟨leads, within block leads⟩⟩
  · exact root
  · exact settled
  · intro block unreached
    exact idom?_of_not_mem_order here fun member => unreached ((listed block).1 member)
  · intro parent child
    constructor
    · intro member
      have parentLt := lt_of_mem_childrenOf member
      rw [sizeStep] at parentLt
      rw [childrenOf_dominateRegion here parent parentLt, List.mem_append, List.mem_filter,
        listed] at member
      simpa using member
    · intro either
      have parentLt : parent < current.size := by
        rcases either with old | ⟨leads, found⟩
        · exact lt_of_mem_childrenOf old
        · have different : child ≠ entry := by
            rintro rfl
            rw [root] at found
            contradiction
          rcases settled child leads different with ⟨dominator, equal, immediate⟩
          rw [equal] at found
          cases found
          exact within _ (immediate.dominates.leads leads)
      rw [childrenOf_dominateRegion here parent parentLt, List.mem_append, List.mem_filter,
        listed]
      simpa using either
  · intro parent nodup outside
    by_cases parentLt : parent < current.size
    · rw [childrenOf_dominateRegion here parent parentLt, List.nodup_append]
      refine ⟨nodup, (nodup_order_explore current here).filter _, ?_⟩
      intro child old other new same
      rw [← same, List.mem_filter, listed] at new
      exact outside child old new.1
    · rw [childrenOf, block?_eq_none_iff.2 (sizeStep ▸ Nat.le_of_not_lt parentLt)]
      exact List.nodup_nil

/-- The dominator tree of a region leaves those of other regions alone. -/
theorem DominatorTrees.step {base current : ControlFlow} {done : List BlockId}
    (coherent : base.Coherent) (apart : base.Apart)
    (trees : DominatorTrees base done current) (known : entry ∈ base.entries)
    (subset : ∀ other ∈ done, other ∈ base.entries) (fresh : entry ∉ done) :
    DominatorTrees base (done ++ [entry]) (current.dominateRegion entry) := by
  have elsewhere : ∀ other ∈ done, ∀ block, Leads base.Edge other block →
      ¬ Leads base.Edge entry block := by
    intro other member block leads here
    have same := apart entry known other (subset other member) block here leads
    exact fresh (same ▸ member)
  have unsettled : ∀ block, Leads base.Edge entry block → current.idom? block = none := by
    intro block leads
    exact trees.idom?_none block fun other member there => elsewhere other member block there leads
  have adds := addsTree_dominateRegion coherent trees.agree (coherent.entry_lt entry known)
    (unsettled entry ⟨[], .start⟩)
  constructor
  · exact trees.agree.trans adds.agree
  · intro block
    rw [adds.isReachable_iff, trees.isReachable_iff]
    simp only [List.mem_append, List.mem_singleton, or_and_right, exists_or, exists_eq_left]
    exact or_comm
  · intro other member
    by_cases leads : Leads base.Edge entry other
    · rw [apart other member entry known other ⟨[], .start⟩ leads]
      exact adds.root
    · rw [adds.kept other leads]
      exact trees.idom?_entry other member
  · intro other member block leads different
    rcases List.mem_append.1 member with old | new
    · rw [adds.kept block (elsewhere other old block leads)]
      exact trees.idom?_some other old block leads different
    · rw [List.mem_singleton.1 new] at leads different ⊢
      exact adds.settled block leads different
  · intro block unreached
    rw [adds.kept block (unreached entry (by simp))]
    exact trees.idom?_none block fun other member => unreached other (List.mem_append_left _ member)
  · intro parent child
    rw [adds.mem_childrenOf, trees.mem_childrenOf]
    by_cases leads : Leads base.Edge entry child
    · simp [leads, unsettled child leads]
    · simp [leads, adds.kept child leads]
  · intro parent
    refine adds.nodup_childrenOf parent (trees.nodup_childrenOf parent) fun child old leads => ?_
    rw [trees.mem_childrenOf, unsettled child leads] at old
    contradiction

theorem DominatorTrees.foldl {base : ControlFlow} (coherent : base.Coherent)
    (apart : base.Apart) (todo : List BlockId) {done : List BlockId} {current : ControlFlow}
    (trees : DominatorTrees base done current) (equal : done ++ todo = base.entries) :
    DominatorTrees base base.entries (todo.foldl dominateRegion current) := by
  induction todo generalizing done current with
  | nil =>
      rw [List.append_nil] at equal
      exact equal ▸ trees
  | cons entry todo inductionHypothesis =>
      have nodup := coherent.entries_nodup
      rw [← equal, List.nodup_append] at nodup
      have known : entry ∈ base.entries := equal ▸ List.mem_append_right _ List.mem_cons_self
      have subset : ∀ other ∈ done, other ∈ base.entries :=
        fun other member => equal ▸ List.mem_append_left _ member
      have fresh : entry ∉ done :=
        fun member => nodup.2.2 entry member entry List.mem_cons_self rfl
      exact inductionHypothesis (trees.step coherent apart known subset fresh)
        (by simp [equal])

/-- Every region gets its dominator tree. -/
theorem dominatorTrees_computeDominators (coherent : flow.Coherent) (apart : flow.Apart) :
    DominatorTrees flow flow.entries flow.computeDominators :=
  (DominatorTrees.clear flow).foldl coherent apart flow.entries rfl

/-! ## Going down a dominator tree -/

/-- One step down a dominator tree. -/
def TreeEdge (flow : ControlFlow) (parent child : BlockId) : Prop :=
  child ∈ flow.childrenOf parent

namespace DominatorTrees

variable {current : ControlFlow} {parent child other : BlockId}

theorem immediate_of_treeEdge (trees : DominatorTrees flow flow.entries current)
    (separate : flow.Separate) (known : entry ∈ flow.entries)
    (leads : Leads flow.Edge entry parent) (below : current.TreeEdge parent child) :
    Leads flow.Edge entry child ∧ IsImmediateDominator flow.Edge entry parent child := by
  have found := (trees.mem_childrenOf parent child).1 below
  by_cases reached : ∃ root ∈ flow.entries, Leads flow.Edge root child
  · rcases reached with ⟨root, rootKnown, rootLeads⟩
    by_cases same : child = root
    · rw [same, trees.idom?_entry root rootKnown] at found
      contradiction
    · rcases trees.idom?_some root rootKnown child rootLeads same with ⟨dominator, equal, immediate⟩
      rw [equal] at found
      cases found
      have rootParent := immediate.dominates.leads rootLeads
      have rootEq := separate.entry_unique root rootKnown entry known parent rootParent leads
      exact rootEq ▸ ⟨rootLeads, immediate⟩
  · rw [trees.idom?_none child fun root member reaches => reached ⟨root, member, reaches⟩] at found
    contradiction

/-- What lies below a block in the tree is dominated by it. -/
theorem dominates_of_tree (trees : DominatorTrees flow flow.entries current)
    (separate : flow.Separate) (known : entry ∈ flow.entries)
    (leads : Leads flow.Edge entry parent) (below : Leads current.TreeEdge parent block) :
    Leads flow.Edge entry block ∧ Dominates flow.Edge entry parent block := by
  rcases below with ⟨earlier, steps⟩
  generalize equal : block :: earlier = path at steps
  induction steps generalizing block earlier with
  | start =>
      cases equal
      exact ⟨leads, .refl _⟩
  | step _ taken inductionHypothesis =>
      cases equal
      rcases inductionHypothesis _ rfl with ⟨reached, dominates⟩
      rcases trees.immediate_of_treeEdge separate known reached taken with ⟨further, immediate⟩
      exact ⟨further, dominates.trans immediate.dominates⟩

theorem not_leads_parent (trees : DominatorTrees flow flow.entries current)
    (separate : flow.Separate) (known : entry ∈ flow.entries)
    (leads : Leads flow.Edge entry parent) (below : current.TreeEdge parent child) :
    ¬ Leads current.TreeEdge child parent := by
  intro back
  rcases trees.immediate_of_treeEdge separate known leads below with ⟨reached, immediate⟩
  have backward := (trees.dominates_of_tree separate known reached back).2
  exact immediate.strict (immediate.dominates.antisymm leads backward)

/-- Different children have nothing in common below them. -/
theorem siblings_eq (trees : DominatorTrees flow flow.entries current)
    (separate : flow.Separate) (known : entry ∈ flow.entries)
    (leads : Leads flow.Edge entry parent) (below : current.TreeEdge parent child)
    (otherBelow : current.TreeEdge parent other) (first : Leads current.TreeEdge child block)
    (second : Leads current.TreeEdge other block) : child = other := by
  rcases trees.immediate_of_treeEdge separate known leads below with ⟨reached, immediate⟩
  rcases trees.immediate_of_treeEdge separate known leads otherBelow with
    ⟨otherReached, otherImmediate⟩
  rcases trees.dominates_of_tree separate known reached first with ⟨meets, dominates⟩
  have otherDominates := (trees.dominates_of_tree separate known otherReached second).2
  by_contra different
  rcases dominates.total meets otherDominates with above | above
  · have higher := otherImmediate.last child above different
    exact immediate.strict (immediate.dominates.antisymm leads higher)
  · have higher := immediate.last other above (Ne.symm different)
    exact otherImmediate.strict (otherImmediate.dominates.antisymm leads higher)

/-- Every block that can be reached lies below the entry. -/
theorem leads_tree (trees : DominatorTrees flow flow.entries current)
    (coherent : flow.Coherent) (known : entry ∈ flow.entries)
    (leads : Leads flow.Edge entry block) : Leads current.TreeEdge entry block := by
  have inside := coherent.entry_lt entry known
  induction rank : flow.rank entry block using Nat.strongRecOn generalizing block with
  | _ rank inductionHypothesis =>
      by_cases same : block = entry
      · exact ⟨[], same ▸ .start⟩
      · rcases trees.idom?_some entry known block leads same with ⟨dominator, equal, immediate⟩
        have above := immediate.dominates.leads leads
        have shallower :=
          rank_lt_rank coherent inside leads immediate.dominates immediate.strict
        have reached := inductionHypothesis _ (by omega) above rfl
        exact reached.step ((trees.mem_childrenOf dominator block).2 equal)

end DominatorTrees

end EscapePlan.ControlFlow
