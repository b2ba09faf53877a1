import EscapePlan.Flow.Basic
import EscapePlan.Proofs.Flow.Path

/-!
# The shape of control flow

Control flow that is built step by step joins known blocks only, lists every edge at
both of its ends, and holds no phis.  Later passes change what blocks carry for single
assignment form and leave this shape alone.
-/

namespace EscapePlan.ControlFlow

/-- Control may go from one block directly to another. -/
def Edge (flow : ControlFlow) (source target : BlockId) : Prop :=
  target ∈ flow.successors source

instance (flow : ControlFlow) (source target : BlockId) : Decidable (flow.Edge source target) :=
  inferInstanceAs (Decidable (target ∈ flow.successors source))

/-- Control flow that a sequence of steps builds from nothing. -/
inductive Built : ControlFlow → Prop where
  | empty : Built empty
  | newBlock {flow : ControlFlow} : Built flow → Built flow.newBlock.2
  | newRegion {flow : ControlFlow} : Built flow → Built flow.newRegion.2
  | addEdge {flow : ControlFlow} (source target : BlockId) :
      Built flow → Built (flow.addEdge source target)
  | recordDefinition {flow : ControlFlow} (block : BlockId) (var : VarId) (node : NodeId) :
      Built flow → Built (flow.recordDefinition block var node)

/-- No block is reachable from two entries. -/
def Apart (flow : ControlFlow) : Prop :=
  ∀ first ∈ flow.entries, ∀ second ∈ flow.entries, ∀ block,
    Path.Leads flow.Edge first block → Path.Leads flow.Edge second block → first = second

/-- No block is reachable from two entries, and control does not come back to an entry. -/
structure Separate (flow : ControlFlow) : Prop where
  entry_unique : ∀ first ∈ flow.entries, ∀ second ∈ flow.entries, ∀ block,
    Path.Leads flow.Edge first block → Path.Leads flow.Edge second block → first = second
  predecessors_entry : ∀ entry ∈ flow.entries, flow.predecessors entry = []

theorem Separate.apart {flow : ControlFlow} (separate : flow.Separate) : flow.Apart :=
  separate.entry_unique

/-- Some entry leads to a block. -/
def Reached (flow : ControlFlow) (block : BlockId) : Prop :=
  ∃ entry ∈ flow.entries, Path.Leads flow.Edge entry block

/-- Edges join known blocks and are listed at both ends; entries are known and listed once. -/
structure Coherent (flow : ControlFlow) : Prop where
  target_lt : ∀ source target, flow.Edge source target → target < flow.size
  mem_predecessors : ∀ source target,
    source ∈ flow.predecessors target ↔ flow.Edge source target
  entry_lt : ∀ entry ∈ flow.entries, entry < flow.size
  entries_nodup : flow.entries.Nodup

/-- What holds of all control flow that is built step by step. -/
structure WellFormed (flow : ControlFlow) : Prop extends Coherent flow where
  phis_eq : flow.phis = #[]
  phiPlaces_eq : ∀ block, flow.phiPlaces block = []

/-! ## What a block holds after a step -/

theorem block?_eq_none_iff {flow : ControlFlow} {block : BlockId} :
    flow.block? block = none ↔ flow.size ≤ block :=
  Array.getElem?_eq_none_iff

theorem exists_block?_of_lt {flow : ControlFlow} {block : BlockId} (known : block < flow.size) :
    ∃ found, flow.block? block = some found :=
  ⟨flow.blocks[block], Array.getElem?_eq_getElem known⟩

/-- What there is to control flow. -/
theorem eq_of_same {first second : ControlFlow} (blocks : second.blocks = first.blocks)
    (entries : second.entries = first.entries) (phis : second.phis = first.phis)
    (versions : second.versions = first.versions) : second = first := by
  cases first
  cases second
  cases blocks
  cases entries
  cases phis
  cases versions
  rfl

/-- What looks the same in one view looks the same in another that can be told from it. -/
theorem map_congr_of_map_eq {α β γ : Type} {view : α → β} {part : α → γ} {first second : Option α}
    (same : second.map view = first.map view)
    (told : ∀ one two, view two = view one → part two = part one) :
    second.map part = first.map part := by
  cases second with
  | none =>
      have unknown := Option.map_eq_none_iff.1 same.symm
      rw [unknown]
  | some two =>
      rcases Option.map_eq_some_iff.1 same.symm with ⟨one, rfl, equal⟩
      exact congrArg some (told one two equal.symm)

/-- Two control flows have the same entries, and blocks that look the same in a view. -/
structure Agree {α : Type} (view : Block → α) (first second : ControlFlow) : Prop where
  blocks : ∀ block, (second.block? block).map view = (first.block? block).map view
  entries : second.entries = first.entries

namespace Agree

variable {α β : Type} {view : Block → α} {first second third : ControlFlow}

theorem refl (flow : ControlFlow) : Agree view flow flow :=
  ⟨fun _ => rfl, rfl⟩

theorem symm (agree : Agree view first second) : Agree view second first :=
  ⟨fun block => (agree.blocks block).symm, agree.entries.symm⟩

theorem trans (one : Agree view first second) (two : Agree view second third) :
    Agree view first third :=
  ⟨fun block => (two.blocks block).trans (one.blocks block), two.entries.trans one.entries⟩

/-- What can be told from a view agrees too. -/
theorem of_view (agree : Agree view first second) (part : α → β) :
    Agree (fun block => part (view block)) first second where
  blocks block := by
    have same := congrArg (Option.map part) (agree.blocks block)
    simpa [Function.comp_def] using same
  entries := agree.entries

theorem getD_eq (agree : Agree view first second) (part : α → List β) (block : BlockId) :
    ((second.block? block).map fun found => part (view found)).getD [] =
      ((first.block? block).map fun found => part (view found)).getD [] :=
  congrArg (·.getD []) ((agree.of_view part).blocks block)

theorem bind_eq (agree : Agree view first second) (part : α → Option β) (block : BlockId) :
    (second.block? block).bind (fun found => part (view found)) =
      (first.block? block).bind fun found => part (view found) := by
  have same := congrArg (·.bind part) (agree.blocks block)
  simpa only [Option.bind_map, Function.comp_def] using same

theorem any_eq (agree : Agree view first second) (part : α → Bool) (block : BlockId) :
    (second.block? block).any (fun found => part (view found)) =
      (first.block? block).any fun found => part (view found) := by
  have same := congrArg (·.any part) (agree.blocks block)
  simpa only [Option.any_map, Function.comp_def] using same

theorem size_eq (agree : Agree view first second) : second.size = first.size := by
  have unknown : ∀ block, second.size ≤ block ↔ first.size ≤ block := by
    intro block
    rw [← block?_eq_none_iff, ← block?_eq_none_iff, ← Option.map_eq_none_iff (f := view),
      agree.blocks block, Option.map_eq_none_iff]
  exact Nat.le_antisymm ((unknown _).2 (Nat.le_refl _)) ((unknown _).1 (Nat.le_refl _))

/-- Changing what a view does not show. -/
theorem modifyBlock {change : Block → Block} (hidden : ∀ found, view (change found) = view found)
    (flow : ControlFlow) (block : BlockId) : Agree view flow (flow.modifyBlock block change) where
  blocks other := by
    rw [block?_modifyBlock]
    split
    next => rw [Option.map_map]; congr 1; funext found; exact hidden found
    next => rfl
  entries := rfl

/-- Changing in all blocks what a view does not show. -/
theorem mapBlocks {change : Block → Block} (hidden : ∀ found, view (change found) = view found)
    (flow : ControlFlow) : Agree view flow { flow with blocks := flow.blocks.map change } where
  blocks block := by
    simp only [block?, Array.getElem?_map, Option.map_map]
    congr 1
    funext found
    exact hidden found
  entries := rfl

theorem foldl {γ : Type} {step : ControlFlow → γ → ControlFlow}
    (stays : ∀ flow item, Agree view flow (step flow item)) (items : List γ) (flow : ControlFlow) :
    Agree view flow (items.foldl step flow) := by
  induction items generalizing flow with
  | nil => exact refl flow
  | cons item items inductionHypothesis => exact (stays flow item).trans (inductionHypothesis _)

/-- Changing a block of both in the same way. -/
theorem modifyBoth {change : Block → Block} (agree : Agree view first second)
    (told : ∀ one two, view two = view one → view (change two) = view (change one))
    (block : BlockId) :
    Agree view (first.modifyBlock block change) (second.modifyBlock block change) where
  blocks other := by
    rw [block?_modifyBlock, block?_modifyBlock]
    split
    next =>
      rw [Option.map_map, Option.map_map]
      exact map_congr_of_map_eq (agree.blocks other) told
    next => exact agree.blocks other
  entries := agree.entries

/-- Changing all blocks of both in the same way. -/
theorem mapBoth {change : Block → Block} {part : Block → β} (agree : Agree view first second)
    (told : ∀ one two, view two = view one → part (change two) = part (change one)) :
    Agree part { first with blocks := first.blocks.map change }
      { second with blocks := second.blocks.map change } where
  blocks block := by
    simp only [block?, Array.getElem?_map, Option.map_map]
    exact map_congr_of_map_eq (agree.blocks block) told
  entries := agree.entries

/-- Taking the same steps from both. -/
theorem foldlBoth {γ : Type} {step : ControlFlow → γ → ControlFlow}
    (stays : ∀ item, ∀ {first second : ControlFlow}, Agree view first second →
      Agree view (step first item) (step second item))
    (items : List γ) (agree : Agree view first second) :
    Agree view (items.foldl step first) (items.foldl step second) := by
  induction items generalizing first second with
  | nil => exact agree
  | cons item items inductionHypothesis => exact inductionHypothesis (stays item agree)

end Agree

/-! ## Building keeps control flow well formed -/

/-- What an added block lists is nothing, like what an unknown block is taken to list. -/
theorem getD_newBlock {α : Type} (flow : ControlFlow) (part : Block → List α)
    (nothing : part .empty = []) (block : BlockId) :
    ((flow.newBlock.2.block? block).map part).getD [] = ((flow.block? block).map part).getD [] := by
  rw [block?_newBlock]
  split
  next same =>
    rw [block?_eq_none_iff.2 (Nat.le_of_eq same.symm)]
    exact nothing
  next => rfl

theorem getD_modifyBlock {α : Type} (flow : ControlFlow) (part : Block → List α)
    (change : Block → Block) (block other : BlockId) :
    (((flow.modifyBlock block change).block? other).map part).getD [] =
      if block = other then ((flow.block? other).map fun found => part (change found)).getD []
      else ((flow.block? other).map part).getD [] := by
  rw [block?_modifyBlock]
  split
  next => rw [Option.map_map]; rfl
  next => rfl

/-- An edge that is accepted is listed at both ends. -/
theorem addEdge_accepted {flow : ControlFlow} {source target : BlockId} (known : source < flow.size)
    (targetKnown : target < flow.size) (fresh : target ∉ flow.successors source) (block : BlockId) :
    (flow.addEdge source target).successors block =
        (if source = block then flow.successors block ++ [target] else flow.successors block) ∧
      (flow.addEdge source target).predecessors block =
        (if target = block then flow.predecessors block ++ [source]
          else flow.predecessors block) ∧
      (flow.addEdge source target).phiPlaces block = flow.phiPlaces block := by
  rw [addEdge, if_pos ⟨known, targetKnown, by simpa using fresh⟩]
  rcases exists_block?_of_lt known with ⟨first, foundFirst⟩
  rcases exists_block?_of_lt targetKnown with ⟨last, foundLast⟩
  refine ⟨?_, ?_, ?_⟩
  · rw [successors, getD_modifyBlock, ite_self, getD_modifyBlock]
    split
    next same => subst same; simp [successors, foundFirst]
    next => rfl
  · rw [predecessors, getD_modifyBlock]
    split
    next same =>
      subst same
      rw [block?_modifyBlock]
      split
      next => simp [predecessors, foundLast]
      next => simp [predecessors, foundLast]
    next => rw [getD_modifyBlock, ite_self]; rfl
  · rw [phiPlaces, getD_modifyBlock, ite_self, getD_modifyBlock, ite_self]
    rfl

theorem entries_addEdge (flow : ControlFlow) (source target : BlockId) :
    (flow.addEdge source target).entries = flow.entries := by
  rw [addEdge]
  split
  next => rfl
  next => rfl

/-- A block apart from its edges. -/
def withoutEdges (block : Block) : Block :=
  { block with successors := [], predecessors := [] }

theorem agree_addEdge (flow : ControlFlow) (source target : BlockId) :
    Agree withoutEdges flow (flow.addEdge source target) := by
  rw [addEdge]
  split
  next =>
    refine .trans (.modifyBlock ?_ flow source) (.modifyBlock ?_ _ target)
    · exact fun _ => rfl
    · exact fun _ => rfl
  next => exact .refl flow

theorem phis_addEdge (flow : ControlFlow) (source target : BlockId) :
    (flow.addEdge source target).phis = flow.phis := by
  rw [addEdge]
  split
  next => rfl
  next => rfl

/-- An edge that an addition leaves is old, unless it is the new one. -/
theorem edge_of_addEdge {flow : ControlFlow} {source target first last : BlockId}
    (taken : (flow.addEdge source target).Edge first last) :
    flow.Edge first last ∨ (first = source ∧ last = target) := by
  by_cases accepted : source < flow.size ∧ target < flow.size ∧ target ∉ flow.successors source
  · rcases accepted with ⟨known, targetKnown, fresh⟩
    rw [Edge, (addEdge_accepted known targetKnown fresh first).1] at taken
    split at taken
    next same =>
      rcases List.mem_append.1 taken with old | new
      · exact .inl old
      · exact .inr ⟨same.symm, List.mem_singleton.1 new⟩
    next => exact .inl taken
  · rw [addEdge, if_neg (by simpa using accepted)] at taken
    exact .inl taken

/-- An addition leaves all edges there are. -/
theorem edge_addEdge_of_edge {flow : ControlFlow} {first last : BlockId} (taken : flow.Edge first last)
    (source target : BlockId) : (flow.addEdge source target).Edge first last := by
  by_cases accepted : source < flow.size ∧ target < flow.size ∧ target ∉ flow.successors source
  · rcases accepted with ⟨known, targetKnown, fresh⟩
    rw [Edge, (addEdge_accepted known targetKnown fresh first).1]
    split
    next => exact List.mem_append_left _ taken
    next => exact taken
  · rw [addEdge, if_neg (by simpa using accepted)]
    exact taken

/-- Adding an edge adds a predecessor to its target only. -/
theorem predecessors_addEdge_of_ne {flow : ControlFlow} {source target block : BlockId}
    (other : target ≠ block) :
    (flow.addEdge source target).predecessors block = flow.predecessors block := by
  by_cases accepted : source < flow.size ∧ target < flow.size ∧ target ∉ flow.successors source
  · rcases accepted with ⟨known, targetKnown, fresh⟩
    rw [(addEdge_accepted known targetKnown fresh block).2.1, if_neg other]
  · rw [addEdge, if_neg (by simpa using accepted)]

/-- No edge leads to a new block or comes from it. -/
theorem edge_newBlock {flow : ControlFlow} (source target : BlockId) :
    flow.newBlock.2.Edge source target ↔ flow.Edge source target := by
  rw [Edge, successors, getD_newBlock flow (·.successors) rfl]
  rfl

/-- Edges begin at known blocks. -/
theorem source_lt_of_edge {flow : ControlFlow} {source target : BlockId}
    (taken : flow.Edge source target) : source < flow.size := by
  apply Nat.lt_of_not_le
  intro unknown
  rw [Edge, successors, block?_eq_none_iff.2 unknown] at taken
  contradiction

theorem Coherent.newBlock {flow : ControlFlow} (coherent : flow.Coherent) :
    flow.newBlock.2.Coherent := by
  have successors := getD_newBlock flow (·.successors) rfl
  have predecessors := getD_newBlock flow (·.predecessors) rfl
  constructor
  · intro source target step
    have old : flow.Edge source target := by
      rw [Edge, ControlFlow.successors, successors] at step
      exact step
    rw [size_newBlock]
    exact Nat.lt_succ_of_lt (coherent.target_lt source target old)
  · intro source target
    rw [Edge, ControlFlow.predecessors, ControlFlow.successors, predecessors, successors]
    exact coherent.mem_predecessors source target
  · intro entry member
    rw [size_newBlock]
    exact Nat.lt_succ_of_lt (coherent.entry_lt entry member)
  · exact coherent.entries_nodup

theorem Coherent.newRegion {flow : ControlFlow} (coherent : flow.Coherent) :
    flow.newRegion.2.Coherent where
  target_lt := coherent.newBlock.target_lt
  mem_predecessors := coherent.newBlock.mem_predecessors
  entry_lt entry member := by
    have size : flow.newRegion.2.size = flow.size + 1 := size_newBlock flow
    rw [size]
    rcases List.mem_append.1 member with old | new
    · exact Nat.lt_succ_of_lt (coherent.entry_lt entry old)
    · rw [List.mem_singleton.1 new]
      exact Nat.lt_succ_self _
  entries_nodup := by
    have entries : flow.newRegion.2.entries = flow.entries ++ [flow.size] := rfl
    rw [entries, List.nodup_append]
    refine ⟨coherent.entries_nodup, by simp, ?_⟩
    intro entry old other new same
    rw [same, List.mem_singleton.1 new] at old
    exact absurd (coherent.entry_lt _ old) (Nat.lt_irrefl _)

theorem Coherent.addEdge {flow : ControlFlow} (coherent : flow.Coherent)
    (source target : BlockId) : (flow.addEdge source target).Coherent := by
  by_cases accepted : source < flow.size ∧ target < flow.size ∧ target ∉ flow.successors source
  · rcases accepted with ⟨known, targetKnown, fresh⟩
    have lists := addEdge_accepted known targetKnown fresh
    have edges : ∀ first last, (flow.addEdge source target).Edge first last ↔
        flow.Edge first last ∨ (first = source ∧ last = target) := by
      intro first last
      rw [Edge, (lists first).1]
      split
      next same => simp [Edge, same]
      next different => simp [Edge, Ne.symm different]
    constructor
    · intro first last step
      rw [size_addEdge]
      rcases (edges first last).1 step with old | ⟨-, rfl⟩
      · exact coherent.target_lt first last old
      · exact targetKnown
    · intro first last
      rw [edges, (lists last).2.1, ← coherent.mem_predecessors]
      split
      next same => simp [same]
      next different => simp [Ne.symm different]
    · intro entry member
      rw [size_addEdge]
      rw [ControlFlow.addEdge, if_pos ⟨known, targetKnown, by simpa using fresh⟩] at member
      exact coherent.entry_lt entry member
    · rw [ControlFlow.addEdge, if_pos ⟨known, targetKnown, by simpa using fresh⟩]
      exact coherent.entries_nodup
  · rw [ControlFlow.addEdge, if_neg (by simpa using accepted)]
    exact coherent

/-- The edges of a block. -/
def edgeLists (block : Block) : List BlockId × List BlockId :=
  (block.successors, block.predecessors)

theorem successors_eq_of_agree {first second : ControlFlow} (agree : Agree edgeLists first second)
    (block : BlockId) : second.successors block = first.successors block :=
  agree.getD_eq (·.1) block

theorem predecessors_eq_of_agree {first second : ControlFlow}
    (agree : Agree edgeLists first second) (block : BlockId) :
    second.predecessors block = first.predecessors block :=
  agree.getD_eq (·.2) block

/-- Control flow that has the same edges is as coherent. -/
theorem Coherent.of_agree {first second : ControlFlow} (coherent : first.Coherent)
    (agree : Agree edgeLists first second) : second.Coherent := by
  have successors := successors_eq_of_agree agree
  have predecessors := predecessors_eq_of_agree agree
  constructor
  · intro source target step
    rw [Edge, successors] at step
    rw [agree.size_eq]
    exact coherent.target_lt source target step
  · intro source target
    rw [Edge, predecessors, successors]
    exact coherent.mem_predecessors source target
  · intro entry member
    rw [agree.size_eq]
    rw [agree.entries] at member
    exact coherent.entry_lt entry member
  · rw [agree.entries]
    exact coherent.entries_nodup

section

variable {first second : ControlFlow}

/-- Control flow with the same edges has the same paths. -/
theorem edge_eq_of_agree (agree : Agree edgeLists first second) : second.Edge = first.Edge := by
  funext source target
  exact congrArg (target ∈ ·) (successors_eq_of_agree agree source)

theorem reached_iff_of_agree (agree : Agree edgeLists first second) {block : BlockId} :
    second.Reached block ↔ first.Reached block := by
  rw [Reached, Reached, agree.entries, edge_eq_of_agree agree]

theorem Separate.of_agree (separate : first.Separate) (agree : Agree edgeLists first second) :
    second.Separate where
  entry_unique := by
    rw [agree.entries, edge_eq_of_agree agree]
    exact separate.entry_unique
  predecessors_entry entry member := by
    rw [predecessors_eq_of_agree agree]
    exact separate.predecessors_entry entry (agree.entries ▸ member)

end

theorem agree_recordDefinition (flow : ControlFlow) (block : BlockId) (var : VarId) (node : NodeId) :
    Agree (fun found => (edgeLists found, found.phis)) flow (flow.recordDefinition block var node) := by
  apply Agree.modifyBlock
  intro found
  rfl

theorem WellFormed.newBlock {flow : ControlFlow} (wellFormed : flow.WellFormed) :
    flow.newBlock.2.WellFormed where
  toCoherent := wellFormed.toCoherent.newBlock
  phis_eq := wellFormed.phis_eq
  phiPlaces_eq block := by
    rw [phiPlaces, getD_newBlock flow (·.phis) rfl]
    exact wellFormed.phiPlaces_eq block

theorem WellFormed.newRegion {flow : ControlFlow} (wellFormed : flow.WellFormed) :
    flow.newRegion.2.WellFormed where
  toCoherent := wellFormed.toCoherent.newRegion
  phis_eq := wellFormed.phis_eq
  phiPlaces_eq := wellFormed.newBlock.phiPlaces_eq

theorem WellFormed.addEdge {flow : ControlFlow} (wellFormed : flow.WellFormed)
    (source target : BlockId) : (flow.addEdge source target).WellFormed := by
  refine ⟨wellFormed.toCoherent.addEdge source target, ?_, fun block => ?_⟩
  · rw [phis_addEdge]
    exact wellFormed.phis_eq
  · have same : (flow.addEdge source target).phiPlaces block = flow.phiPlaces block :=
      (agree_addEdge flow source target).getD_eq (·.phis) block
    rw [same]
    exact wellFormed.phiPlaces_eq block

/-- Recording a definition changes the definitions of a block only. -/
theorem WellFormed.recordDefinition {flow : ControlFlow} (wellFormed : flow.WellFormed)
    (block : BlockId) (var : VarId) (node : NodeId) :
    (flow.recordDefinition block var node).WellFormed where
  toCoherent := wellFormed.of_agree ((flow.agree_recordDefinition block var node).of_view (·.1))
  phis_eq := wellFormed.phis_eq
  phiPlaces_eq other := by
    rw [phiPlaces, (flow.agree_recordDefinition block var node).getD_eq (·.2)]
    exact wellFormed.phiPlaces_eq other

theorem coherent_empty : Coherent empty := by
  constructor
  · intro source target step
    simp [Edge, successors, block?, ControlFlow.empty] at step
  · intro source target
    simp [Edge, successors, predecessors, block?, ControlFlow.empty]
  · intro entry member
    simp [ControlFlow.empty] at member
  · exact List.nodup_nil

theorem Built.wellFormed {flow : ControlFlow} (built : flow.Built) : flow.WellFormed := by
  induction built with
  | empty =>
      refine ⟨coherent_empty, rfl, ?_⟩
      intro block
      simp [phiPlaces, block?, ControlFlow.empty]
  | newBlock _ inductionHypothesis => exact inductionHypothesis.newBlock
  | newRegion _ inductionHypothesis => exact inductionHypothesis.newRegion
  | addEdge source target _ inductionHypothesis => exact inductionHypothesis.addEdge source target
  | recordDefinition block var node _ inductionHypothesis =>
      exact inductionHypothesis.recordDefinition block var node

end EscapePlan.ControlFlow
