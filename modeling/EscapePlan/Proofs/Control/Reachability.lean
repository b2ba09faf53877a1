import EscapePlan.Proofs.Control.Visits
import EscapePlan.Proofs.Flow.Versions
import EscapePlan.Proofs.Relabeling.Analyses

/-!
# Reachable definitions

Whether the block of a definition is reachable can be read off the tree: it is if control can come
to the definition from the start of its function or program body.  Exactly the definitions in
reachable blocks are renamed, so the others are those that are left without a version.
-/

namespace EscapePlan

open ControlFlow

/-- Definitions that have been given versions can be listed as they were before. -/
theorem exists_versioned {definitions : BlockId → List Definition}
    {placed : List (BlockId × Definition)}
    (same : ∀ block, (definitions block).map Definition.unversioned =
      (placed.filter (·.1 = block)).map (·.2)) :
    ∃ versioned : List (BlockId × Definition),
      placed = versioned.map (fun one => (one.1, one.2.unversioned)) ∧
        ∀ block, definitions block = (versioned.filter (·.1 = block)).map (·.2) := by
  induction placed generalizing definitions with
  | nil => exact ⟨[], rfl, fun block => List.map_eq_nil_iff.1 (same block)⟩
  | cons first placed inductionHypothesis =>
      obtain ⟨home, old⟩ := first
      have here := same home
      rw [List.filter_cons_of_pos (by simp), List.map_cons, List.map_eq_cons_iff] at here
      obtain ⟨new, others, equal, rfl, rest⟩ := here
      obtain ⟨versioned, rfl, lists⟩ := @inductionHypothesis
        (Function.update definitions home others) fun block => by
          by_cases at_ : home = block
          · subst at_
            rw [Function.update_self]
            exact rest
          · rw [Function.update_of_ne (Ne.symm at_), same block,
              List.filter_cons_of_neg (by simpa using at_)]
      refine ⟨(home, new) :: versioned, rfl, fun block => ?_⟩
      by_cases at_ : home = block
      · subst at_
        have tail := lists home
        rw [Function.update_self] at tail
        rw [List.filter_cons_of_pos (by simp), List.map_cons, ← tail]
        exact equal
      · have tail := lists block
        rw [Function.update_of_ne (Ne.symm at_)] at tail
        rw [List.filter_cons_of_neg (by simpa using at_)]
        exact tail

/-- A definition that is listed is one of its block. -/
theorem ControlFlow.Lists.mem_definitions {flow : ControlFlow}
    {placed : List (BlockId × Definition)} (lists : flow.Lists placed)
    {one : BlockId × Definition} (listed : one ∈ placed) : one.2 ∈ flow.definitions one.1 := by
  rw [lists one.1]
  exact List.mem_map_of_mem (List.mem_filter.2 ⟨listed, decide_eq_true rfl⟩)

theorem definitions_clearVersions (flow : ControlFlow) (block : BlockId) :
    flow.clearVersions.definitions block = flow.definitions block :=
  rfl

namespace DataFlowGraph

variable {graph : DataFlowGraph}

/-- Placing phis leaves definitions as they are. -/
theorem definitions_withPhis (graph : DataFlowGraph) (block : BlockId) :
    graph.withPhis.flow.definitions block = graph.flow.definitions block :=
  ((graph.flow.agree_analyzed.of_view (·.definitions)).trans
    (graph.agree_withPhis.of_view (·.definitions))).getD_eq id block

/-- Renaming leaves alone what it does not visit. -/
theorem definitions_of_unvisited {blocks : List BlockId}
    (numbered : Renaming.Numbered graph.withPhis.flow.clearVersions blocks graph.convertToSsa.flow)
    {block : BlockId} (unvisited : block ∉ blocks) :
    graph.convertToSsa.flow.definitions block = graph.flow.definitions block := by
  have spared : graph.convertToSsa.flow.definitions block =
      graph.withPhis.flow.clearVersions.definitions block :=
    congrArg (fun found => (found.map Block.definitions).getD [])
      (numbered.keeps.block?_eq block unvisited)
  exact spared.trans ((definitions_clearVersions _ block).trans (graph.definitions_withPhis block))

/-- A conversion gives a version to the definitions that control can get to, and to no other. -/
theorem version_ne_zero_iff {sites : List (BlockId × VarId)} (coherent : graph.flow.Coherent)
    (separate : graph.flow.Separate) (holds : HoldsPhis sites graph.flow)
    (fresh : ∀ block, ∀ definition ∈ graph.flow.definitions block, definition.version = 0)
    {block : BlockId} {definition : Definition}
    (member : definition ∈ graph.convertToSsa.flow.definitions block) :
    definition.version ≠ 0 ↔ graph.flow.Reached block := by
  obtain ⟨blocks, -, listed, numbered⟩ := exists_numbered coherent separate holds
  rw [← listed block]
  constructor
  · intro given
    by_contra unvisited
    rw [definitions_of_unvisited numbered unvisited] at member
    exact given (fresh block definition member)
  · intro visited
    have version : definition.version ∈ versionsOf definition.var
        (blocks.flatMap graph.convertToSsa.flow.produced) := by
      refine List.mem_map_of_mem (List.mem_filter.2 ⟨List.mem_flatMap.2 ⟨block, visited, ?_⟩, ?_⟩)
      · exact List.mem_append_right _ member
      · exact decide_eq_true rfl
    have counted := numbered.counts definition.var
    have inside : definition.version ∈ List.range' 1
        (graph.convertToSsa.flow.versionCount definition.var) :=
      counted ▸ List.mem_append_right _ version
    exact Nat.one_le_iff_ne_zero.1 (List.mem_range'_1.1 inside).1

end DataFlowGraph

namespace Walk

/-- A walk begins where a program body does. -/
theorem stands_initial : Stands ⟨true, [], []⟩ initial where
  coherent := coherent_empty.newRegion
  block := ⟨Nat.one_pos, iff_of_true (reached_newRegion.2 (.inr rfl)) rfl⟩
  bound _ _ found := nomatch found
  mem_globals _ :=
    ⟨fun member => absurd member List.not_mem_nil, fun ⟨_, found, _⟩ => (nomatch found)⟩
  marked := ⟨[], fun _ => definitions_newBlock, .nil⟩

/-- The definitions that a walk has recorded have no versions yet. -/
theorem version_eq_zero {walk : Walk} {placed : List (BlockId × Definition)} {marks : List Mark}
    (lists : walk.graph.flow.Lists placed) (realized : List.Forall₂ walk.Realizes placed marks)
    {block : BlockId} {definition : Definition}
    (member : definition ∈ walk.graph.flow.definitions block) : definition.version = 0 := by
  have versions : ∀ one ∈ placed, one.2.version = 0 :=
    ((List.forall₂_and_left placed marks).1
      (realized.imp fun _ _ realizes => ⟨realizes.version_eq, realizes⟩)).1
  rw [lists block] at member
  obtain ⟨one, listed, rfl⟩ := List.mem_map.1 member
  exact versions one (List.mem_filter.1 listed).1

/-- A walk over a tree records the definitions that are marked in the tree. -/
theorem exists_placed (config : Config) (tree : Tree) :
    ∃ placed, (ofTree config tree depthLimit).graph.flow.Lists placed ∧
      List.Forall₂ (ofTree config tree depthLimit).Realizes placed tree.marks := by
  have stands := (Walker.surveys_visit config tree depthLimit [] _ tree.root initial
    (fun _ member => absurd member List.not_mem_nil) stands_initial).2
  rw [ofTree_eq]
  exact stands.marked

end Walk

namespace Analysis

/-- A definition in a block of an analysis is the one that a mark is about: it has a version, and
its block is reachable, exactly if control can come to it. -/
structure Realizes (analysis : Analysis) (placed : BlockId × Definition) (mark : Mark) : Prop where
  var_eq : placed.2.var = mark.name.toNat
  origin_eq : ∃ node, analysis.graph.values.node? placed.2.node = some node ∧
    node.origin = mark.origin
  isReachable_eq : analysis.graph.flow.isReachable placed.1 = mark.reached
  version_iff : placed.2.version ≠ 0 ↔ mark.reached = true

variable (config : Config) (tree : Tree)

/-- The graph that is converted is coherent, and its regions are apart. -/
theorem converts_ofTree :
    (ofTree config tree).graph.flow =
        (Walk.ofTree config tree depthLimit).settle.graph.convertToSsa.flow ∧
      (Walk.ofTree config tree depthLimit).settle.graph.flow =
        (Walk.ofTree config tree depthLimit).graph.flow ∧
      (Walk.ofTree config tree depthLimit).settle.graph.flow.Coherent ∧
        (Walk.ofTree config tree depthLimit).settle.graph.flow.Separate := by
  have settled := (Walk.ofTree_accounts config tree depthLimit).sound.flow_settle
  obtain ⟨region, regions⟩ := Walk.exists_regions_ofTree config tree depthLimit
  refine ⟨by rw [ofTree, flow_ofWalk], settled, ?_, ?_⟩
  · exact settled ▸ regions.coherent
  · exact settled ▸ regions.separate

theorem isReachable_ofTree (block : BlockId) :
    (ofTree config tree).graph.flow.isReachable block = true ↔
      (Walk.ofTree config tree depthLimit).graph.flow.Reached block := by
  obtain ⟨converted, settled, coherent, separate⟩ := converts_ofTree config tree
  rw [converted, DataFlowGraph.isReachable_convertToSsa coherent separate, settled]

variable {config tree}

theorem version_ne_zero_ofTree
    (fresh : ∀ block, ∀ definition ∈
      (Walk.ofTree config tree depthLimit).graph.flow.definitions block, definition.version = 0)
    {block : BlockId} {definition : Definition}
    (member : definition ∈ (ofTree config tree).graph.flow.definitions block) :
    definition.version ≠ 0 ↔ (Walk.ofTree config tree depthLimit).graph.flow.Reached block := by
  obtain ⟨converted, settled, coherent, separate⟩ := converts_ofTree config tree
  have plain := Walk.plain_settle config tree depthLimit
  have holds := holdsPhis_nil plain.phis_eq plain.phiPlaces_eq
  rw [← settled]
  rw [← settled] at fresh
  rw [converted] at member
  exact DataFlowGraph.version_ne_zero_iff coherent separate holds fresh member

/-- Values come from the tree nodes that they came from during the walk. -/
theorem exists_origin_ofTree {id : NodeId} {node : ValueNode}
    (found : (Walk.ofTree config tree depthLimit).graph.values.node? id = some node) :
    ∃ later, (ofTree config tree).graph.values.node? id = some later ∧
      later.origin = node.origin := by
  have settles := (Walk.ofTree_accounts config tree depthLimit).sound.settles
  rw [← Walk.node?_resolveAliases] at found
  obtain ⟨middle, foundMiddle, origin⟩ := settles.exists_origin found
  obtain ⟨state, foundLater⟩ := @exists_node?_ofWalk config _ id middle foundMiddle
  exact ⟨_, foundLater, origin⟩

/-- Block reachability is reachability in the tree: the definitions in the blocks of an analysis
are, one for one, those that are marked in the tree, and one has a version, and its block is
reachable, exactly if control can come to it from the start of its body. -/
theorem reachesMarks (config : Config) (tree : Tree) :
    ∃ placed, (ofTree config tree).graph.flow.Lists placed ∧
      List.Forall₂ (ofTree config tree).Realizes placed tree.marks := by
  obtain ⟨recorded, lists, realized⟩ := Walk.exists_placed config tree
  have fresh : ∀ block, ∀ definition ∈
      (Walk.ofTree config tree depthLimit).graph.flow.definitions block, definition.version = 0 :=
    fun _ _ => Walk.version_eq_zero lists realized
  have same : ∀ block, ((ofTree config tree).graph.flow.definitions block).map
      Definition.unversioned = (recorded.filter (·.1 = block)).map (·.2) := by
    intro block
    obtain ⟨converted, settled, -, -⟩ := converts_ofTree config tree
    rw [converted, map_definitions_eq
      ((DataFlowGraph.agree_code_convertToSsa _).of_view (·.2)) block, settled, ← lists block]
    refine (List.map_congr_left fun definition member => ?_).trans (List.map_id _)
    rw [Definition.unversioned, ← fresh block definition member]
    rfl
  -- The walk knows the definitions without versions, the analysis has them with versions.
  obtain ⟨placed, rfl, listed⟩ := exists_versioned same
  refine ⟨placed, listed, ?_⟩
  rw [List.forall₂_map_left_iff] at realized
  have members : ∀ one ∈ placed, one.2 ∈ (ofTree config tree).graph.flow.definitions one.1 :=
    fun _ => ControlFlow.Lists.mem_definitions listed
  refine ((List.forall₂_and_left placed tree.marks).2 ⟨members, realized⟩).imp ?_
  rintro one mark ⟨member, realizes⟩
  obtain ⟨node, found, -, origin⟩ := realizes.node
  obtain ⟨later, foundLater, originLater⟩ := exists_origin_ofTree found
  refine ⟨realizes.var_eq, ⟨later, foundLater, originLater.trans origin⟩, ?_, ?_⟩
  · rw [Bool.eq_iff_iff, isReachable_ofTree]
    exact realizes.block.2
  · rw [version_ne_zero_ofTree fresh member]
    exact realizes.block.2

-- A loop whose body returns: control does not come to its update, but to what follows the loop.
example :
    ({ root := ⟨0⟩
       strings := .empty
       nodes := #[⟨.root [⟨1⟩, ⟨3⟩], none⟩, ⟨.forStmt [] (some ⟨2⟩) [⟨3⟩] ⟨5⟩, none⟩,
        ⟨.literal .null, none⟩, ⟨.assignment ⟨4⟩ ⟨2⟩, none⟩, ⟨.var ⟨0⟩, none⟩,
        ⟨.returnStmt none, none⟩] } : Tree).marks =
      [⟨⟨0⟩, some ⟨4⟩, false⟩, ⟨⟨0⟩, some ⟨4⟩, true⟩] := by
  decide

end Analysis

end EscapePlan
