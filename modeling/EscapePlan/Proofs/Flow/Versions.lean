import EscapePlan.Proofs.Flow.IteratedFrontier
import EscapePlan.Proofs.Flow.Links
import EscapePlan.Proofs.Propagation
import Mathlib.Data.List.Dedup
import Mathlib.Data.List.Perm.Basic

/-!
# Versions and sources are complete

Renaming gives the definitions in reachable blocks and the phis of a variable the versions from
one on, each once.  Every reachable predecessor of a block is the source of each of its phis
once, and the nodes that sources name are linked to the node of the phi.
-/

namespace EscapePlan

namespace Renaming

open ControlFlow

/-! ## What a list of visits does -/

/-- What renaming some blocks one after the other does: what they produce has the next versions,
and each of them has become a source of the phis of its successors. -/
structure Numbered (before : ControlFlow) (blocks : List BlockId) (after : ControlFlow) : Prop where
  keeps : Keeps (· ∈ blocks) before after
  counts : Counts before (blocks.flatMap after.produced) after
  sources : ∀ (place : Nat) phi, after.phis[place]? = some phi →
    ∃ old, before.phis[place]? = some old ∧
      phi.sources.map (·.block) = old.sources.map (·.block) ++
        blocks.flatMap fun block =>
          List.replicate ((before.successors block).count phi.block) block

theorem numbered_nil (flow : ControlFlow) : Numbered flow [] flow where
  keeps := .refl _ flow
  counts := .nil rfl
  sources _ phi found := ⟨phi, found, (List.append_nil _).symm⟩

theorem Numbered.cons {block : BlockId} {blocks : List BlockId} {current result : Current}
    {first second third : ControlFlow} (one : OneRenamed block current first result second)
    (rest : Numbered second blocks third) (fresh : block ∉ blocks) :
    Numbered first (block :: blocks) third where
  keeps := by
    refine Keeps.trans (one.keeps.mono ?_) (rest.keeps.mono ?_)
    · rintro other rfl
      exact List.mem_cons_self
    · intro other member
      exact List.mem_cons_of_mem block member
  counts := by
    rw [List.flatMap_cons, rest.keeps.produced_eq fresh]
    exact one.counts.append rest.counts
  sources place phi found := by
    rcases rest.sources place phi found with ⟨middle, foundMiddle, sourcesEq⟩
    rcases one.sources_eq place middle foundMiddle with ⟨old, foundOld, middleEq⟩
    have sameBlock := (rest.keeps.phi_eq found foundMiddle).1
    refine ⟨old, foundOld, ?_⟩
    simp only [sourcesEq, middleEq, sameBlock, one.keeps.successors_eq, List.map_append,
      List.map_replicate, PhiSource.block_ofCurrent, List.flatMap_cons, List.append_assoc]

theorem numbered_of_visits {blocks : List BlockId} {before after : Renaming}
    {sites : List (BlockId × VarId)} (visits : Visits blocks before after) (nodup : blocks.Nodup)
    (holds : HoldsPhis sites before.flow) (known : ∀ block ∈ blocks, block < before.flow.size) :
    Numbered before.flow blocks after.flow := by
  induction visits with
  | nil state => exact numbered_nil state.flow
  | @cons block rest state _ current _ inductionHypothesis =>
      rcases List.nodup_cons.1 nodup with ⟨fresh, nodup⟩
      have one := oneRenamed_renameOne holds (known block List.mem_cons_self) current
      refine .cons one (inductionHypothesis nodup (one.keeps.holdsPhis holds) ?_) fresh
      intro other member
      rw [one.keeps.agree.size_eq]
      exact known other (List.mem_cons_of_mem block member)

end Renaming

namespace ControlFlow

/-! ## All versions -/

/-- The blocks that are marked as reachable, in ascending order. -/
def reachableBlocks (flow : ControlFlow) : List BlockId :=
  (List.range flow.size).filter flow.isReachable

theorem mem_reachableBlocks {flow : ControlFlow} {block : BlockId} :
    block ∈ flow.reachableBlocks ↔ flow.isReachable block = true := by
  rw [reachableBlocks, List.mem_filter, List.mem_range, and_iff_right_iff_imp]
  intro reachable
  apply Nat.lt_of_not_le
  intro unknown
  rw [isReachable, block?_eq_none_iff.2 unknown] at reachable
  contradiction

theorem nodup_reachableBlocks (flow : ControlFlow) : flow.reachableBlocks.Nodup :=
  List.nodup_range.filter _

theorem toList_eq_filterMap (phis : Array Phi) :
    (List.range phis.size).filterMap (phis[·]?) = phis.toList := by
  have found : ∀ place ∈ List.range phis.size, phis[place]? = some (phis[place]?.getD default) := by
    intro place member
    rw [Array.getElem?_eq_getElem (List.mem_range.1 member), Option.getD_some]
  rw [List.filterMap_congr found, List.filterMap_eq_map']
  apply List.ext_getElem?
  intro place
  rw [List.getElem?_map, Array.getElem?_toList]
  by_cases known : place < phis.size
  · simp [known]
  · simp [known]

/-- Blocks that hold all phis list each phi once. -/
theorem HoldsPhis.perm_phisIn {flow : ControlFlow} {sites : List (BlockId × VarId)}
    (holds : HoldsPhis sites flow) {blocks : List BlockId} (nodup : blocks.Nodup)
    (all : ∀ phi ∈ flow.phis, phi.block ∈ blocks) :
    (blocks.flatMap flow.phisIn).Perm flow.phis.toList := by
  have places : (blocks.flatMap flow.phiPlaces).Perm (List.range flow.phis.size) := by
    refine (List.perm_ext_iff_of_nodup ?_ List.nodup_range).2 fun place => ?_
    · refine List.nodup_flatMap.2 ⟨fun block _ => holds.nodup_phiPlaces block, ?_⟩
      refine nodup.imp fun different place one two => ?_
      rcases (holds.mem_phiPlaces _ place).1 one with ⟨phi, found, inOne⟩
      rcases (holds.mem_phiPlaces _ place).1 two with ⟨again, foundAgain, inTwo⟩
      cases found.symm.trans foundAgain
      exact different (inOne.symm.trans inTwo)
    · rw [List.mem_range, List.mem_flatMap]
      constructor
      · rintro ⟨block, -, listed⟩
        rcases (holds.mem_phiPlaces block place).1 listed with ⟨phi, found, -⟩
        exact (Array.getElem?_eq_some_iff.1 found).1
      · intro known
        have found := Array.getElem?_eq_getElem known
        exact ⟨_, all _ (Array.mem_of_getElem? found),
          (holds.mem_phiPlaces _ place).2 ⟨_, found, rfl⟩⟩
  have same : blocks.flatMap flow.phisIn =
      (blocks.flatMap flow.phiPlaces).filterMap (flow.phis[·]?) :=
    List.filterMap_flatMap.symm
  rw [same, ← toList_eq_filterMap]
  exact places.filterMap _

theorem versionsOf_perm {first second : List Definition} (perm : first.Perm second) (var : VarId) :
    (versionsOf var first).Perm (versionsOf var second) :=
  (perm.filter _).map _

/-- What blocks produce is what their phis and their definitions produce. -/
theorem perm_flatMap_produced (flow : ControlFlow) (blocks : List BlockId) :
    (blocks.flatMap flow.produced).Perm
      (blocks.flatMap flow.definitions ++ (blocks.flatMap flow.phisIn).map Phi.definition) := by
  have split := (List.flatMap_append_perm blocks flow.phiDefinitions flow.definitions).symm
  have phis : blocks.flatMap flow.phiDefinitions =
      (blocks.flatMap flow.phisIn).map Phi.definition := List.map_flatMap.symm
  rw [phis] at split
  exact split.trans List.perm_append_comm

end ControlFlow

namespace DataFlowGraph

open ControlFlow EscapePlan.Path

/-! ## A conversion -/

variable {graph : DataFlowGraph}

theorem isReachable_convertToSsa (coherent : graph.flow.Coherent) (separate : graph.flow.Separate)
    (block : BlockId) :
    graph.convertToSsa.flow.isReachable block = true ↔ graph.flow.Reached block := by
  have trees := dominatorTrees_computeDominators coherent separate.apart
  have kept : Agree (·.reachable) graph.flow.computeDominators graph.convertToSsa.flow := by
    rw [flow_convertToSsa]
    exact ((agree_computeFrontiers _).of_view (·.reachable)).trans
      ((graph.agree_withPhis.of_view (·.reachable)).trans
        ((retains_rename _).agree.of_view (·.reachable)))
  have same : graph.convertToSsa.flow.isReachable block =
      graph.flow.computeDominators.isReachable block := kept.any_eq id block
  rw [same, trees.isReachable_iff]
  rfl

/-- The blocks that can be reached are renamed one after the other. -/
theorem exists_numbered {sites : List (BlockId × VarId)} (coherent : graph.flow.Coherent)
    (separate : graph.flow.Separate) (holds : HoldsPhis sites graph.flow) :
    ∃ blocks, blocks.Nodup ∧ (∀ block, block ∈ blocks ↔ graph.flow.Reached block) ∧
      Renaming.Numbered graph.withPhis.flow.clearVersions blocks graph.convertToSsa.flow := by
  have trees := dominatorTrees_computeDominators coherent separate.apart
  have agree : Agree Renaming.outline graph.flow.computeDominators
      graph.withPhis.flow.clearVersions :=
    ((agree_computeFrontiers _).of_view Renaming.outline).trans
      ((graph.agree_withPhis.of_view Renaming.outline).trans
        ((retains_clearVersions _).agree.of_view Renaming.outline))
  rcases @Renaming.exists_visits_renameRegions _ _ trees coherent separate
    ⟨graph.withPhis.flow.clearVersions, []⟩ agree with ⟨blocks, visits, nodup, listed⟩
  have cleared := (retains_clearVersions _).holdsPhis (holdsPhis_withPhis holds)
  have inside : ∀ block ∈ blocks, block < graph.withPhis.flow.clearVersions.size := by
    intro block member
    rcases (listed block).1 member with ⟨entry, known, leads⟩
    rw [agree.size_eq, graph.flow.agree_computeDominators.size_eq]
    exact leads_lt coherent (coherent.entry_lt entry known) leads
  have numbered := Renaming.numbered_of_visits visits nodup cleared inside
  rw [flow_convertToSsa, flow_rename]
  exact ⟨blocks, nodup, listed, numbered⟩

/-- The phis of a converted graph, and the nodes they have. -/
theorem nodes_convertToSsa (graph : DataFlowGraph) :
    graph.convertToSsa.flow.phis.toList.map (·.node) =
      graph.withPhis.flow.phis.toList.map (·.node) := by
  rw [flow_convertToSsa]
  refine (retains_rename _).map_phis ?_
  exact fun _ => rfl

theorem nodup_nodes_convertToSsa (fresh : graph.flow.phis = #[]) :
    (graph.convertToSsa.flow.phis.toList.map (·.node)).Nodup := by
  have none : graph.flow.analyzed.phis = #[] := graph.flow.phis_analyzed.trans fresh
  rw [nodes_convertToSsa, withPhis]
  refine @nodup_nodes_foldl_placePhi _ { graph with flow := graph.flow.analyzed } ?_ ?_
  · simp [none]
  · simp [none]

theorem size_convertToSsa (graph : DataFlowGraph) :
    graph.convertToSsa.values.size = graph.withPhis.values.size := by
  rw [values_convertToSsa]
  exact congrArg Array.size (nodes_foldl_linkPhi _ _)

/-- Every phi has a new node. -/
theorem node_of_mem_phis (fresh : graph.flow.phis = #[]) {phi : Phi}
    (member : phi ∈ graph.convertToSsa.flow.phis) :
    graph.values.size ≤ phi.node ∧ phi.node < graph.convertToSsa.values.size := by
  have listed : phi.node ∈ graph.convertToSsa.flow.phis.toList.map (·.node) :=
    List.mem_map_of_mem (Array.mem_toList_iff.2 member)
  rw [nodes_convertToSsa] at listed
  rcases List.mem_map.1 listed with ⟨placed, placedMember, same⟩
  rcases of_mem_phis_withPhis (Array.mem_toList_iff.1 placedMember) with old | ⟨new, kind⟩
  · rw [fresh] at old
    exact absurd old (Array.not_mem_empty _)
  · rcases Option.map_eq_some_iff.1 kind with ⟨node, found, -⟩
    rw [size_convertToSsa, ← same]
    exact ⟨new, (Array.getElem?_eq_some_iff.1 found).1⟩

/-- The edge from a node that defines a source to the node of a phi. -/
def sourceEdge (phi : Phi) (node : NodeId) : Edge :=
  ⟨node, phi.node, .defUse⟩

/-- A link to the node of a phi comes from a source of that phi. -/
theorem mem_links_iff (fresh : graph.flow.phis = #[]) {phi : Phi}
    (member : phi ∈ graph.convertToSsa.flow.phis) {node : NodeId} :
    (node, phi.node) ∈ graph.withPhis.flow.rename.2 ↔
      ∃ source ∈ phi.sources, source.node = some node := by
  rw [mem_links_rename_iff, ← flow_convertToSsa]
  constructor
  · rintro ⟨place, other, found, same, source, listed, named⟩
    have otherMember := Array.mem_of_getElem? found
    cases List.inj_on_of_nodup_map (nodup_nodes_convertToSsa fresh)
      (Array.mem_toList_iff.2 otherMember) (Array.mem_toList_iff.2 member) same
    exact ⟨source, listed, named⟩
  · rintro ⟨source, listed, named⟩
    rcases Array.getElem?_of_mem member with ⟨place, found⟩
    exact ⟨place, phi, found, rfl, source, listed, named⟩

/-- The nodes that define sources of a phi each have one edge to the node of the phi, and nothing
else does. -/
theorem perm_incoming (fresh : graph.flow.phis = #[]) (known : graph.values.EdgesKnown) {phi : Phi}
    (member : phi ∈ graph.convertToSsa.flow.phis) :
    (graph.convertToSsa.values.incoming phi.node).Perm
      (((phi.sources.filterMap (·.node)).dedup.filter
        (· < graph.convertToSsa.values.size)).map (sourceEdge phi)) := by
  rcases node_of_mem_phis fresh member with ⟨new, inside⟩
  have size := graph.size_convertToSsa
  rcases graph.exists_adds_convertToSsa with ⟨added, adds⟩
  have old : ∀ edge ∈ graph.values.edges.toList, edge.target ≠ phi.node := by
    intro edge listed same
    exact Nat.lt_irrefl _ (Nat.lt_of_lt_of_le (same ▸ (known edge listed).2) new)
  have incoming : graph.convertToSsa.values.incoming phi.node =
      added.filter (·.target = phi.node) := by
    have none : graph.values.edges.toList.filter (·.target = phi.node) = [] := by
      simpa using old
    rw [ValueGraph.incoming_eq, adds.edges_eq, edges_withPhis, List.filter_append, none, List.nil_append]
  rw [incoming]
  refine (List.perm_ext_iff_of_nodup (adds.nodup.filter _) ?_).2 fun edge => ?_
  · refine ((List.nodup_dedup _).filter _).map fun one two same => ?_
    exact congrArg Edge.source same
  · simp only [List.mem_filter, decide_eq_true_eq, adds.mem_iff, List.mem_map, List.mem_dedup,
      List.mem_filterMap, linkEdges, size]
    constructor
    · rintro ⟨⟨⟨link, linked, rfl⟩, source, -, -⟩, same⟩
      have listed : (link.1, phi.node) ∈ graph.withPhis.flow.rename.2 := same ▸ linked
      exact ⟨link.1, ⟨(mem_links_iff fresh member).1 listed, source⟩, by rw [sourceEdge, ← same]⟩
    · rintro ⟨node, ⟨named, source⟩, rfl⟩
      refine ⟨⟨⟨(node, phi.node), (mem_links_iff fresh member).2 named, rfl⟩, source, ?_, ?_⟩, rfl⟩
      · rw [← size]
        exact inside
      · rw [edges_withPhis]
        exact fun listed => old _ (Array.mem_toList_iff.2 listed) rfl

/-- If definitions have known nodes, then so have sources. -/
theorem source_lt (fresh : graph.flow.phis = #[])
    (defined : ∀ block, ∀ definition ∈ graph.flow.definitions block,
      definition.node < graph.values.size) {phi : Phi}
    (member : phi ∈ graph.convertToSsa.flow.phis) {source : PhiSource}
    (listed : source ∈ phi.sources) {node : NodeId} (named : source.node = some node) :
    node < graph.convertToSsa.values.size := by
  have linked := (mem_links_iff fresh member).2 ⟨source, listed, named⟩
  refine (@mem_links_rename _ (· < graph.convertToSsa.values.size) (fun _ => True) ?_ ?_ _ linked).1
  · intro number block found definition recorded
    have kept := ((graph.flow.agree_analyzed.of_view (·.definitions)).trans
      (graph.agree_withPhis.of_view (·.definitions))).getD_eq id number
    change graph.withPhis.flow.definitions number = graph.flow.definitions number at kept
    have here : definition ∈ graph.withPhis.flow.definitions number := by
      rw [definitions, found]
      exact recorded
    rw [kept] at here
    rw [size_convertToSsa]
    exact Nat.lt_of_lt_of_le (defined number definition here) graph.le_size_withPhis
  · intro placed placedMember
    have same : placed.node ∈ graph.convertToSsa.flow.phis.toList.map (·.node) := by
      rw [nodes_convertToSsa]
      exact List.mem_map_of_mem (Array.mem_toList_iff.2 placedMember)
    rcases List.mem_map.1 same with ⟨other, otherMember, nodeEq⟩
    exact ⟨nodeEq ▸ (node_of_mem_phis fresh (Array.mem_toList_iff.1 otherMember)).2, trivial⟩

/-- The blocks of the sources of a phi, in the order in which the blocks were renamed. -/
theorem blocks_sources {blocks : List BlockId}
    (numbered : Renaming.Numbered graph.withPhis.flow.clearVersions blocks graph.convertToSsa.flow)
    {phi : Phi} (member : phi ∈ graph.convertToSsa.flow.phis) :
    phi.sources.map (·.block) = blocks.flatMap fun block =>
      List.replicate ((graph.flow.successors block).count phi.block) block := by
  rcases Array.getElem?_of_mem member with ⟨place, found⟩
  rcases numbered.sources place phi found with ⟨old, foundOld, sourcesEq⟩
  have successors : ∀ block, graph.withPhis.flow.clearVersions.successors block =
      graph.flow.successors block :=
    successors_eq_of_agree ((graph.flow.agree_analyzed.of_view edgeLists).trans
      ((graph.agree_withPhis.of_view edgeLists).trans
        ((retains_clearVersions _).agree.of_view edgeLists)))
  rw [clearVersions, Array.getElem?_map] at foundOld
  rcases Option.map_eq_some_iff.1 foundOld with ⟨unfed, -, rfl⟩
  simpa only [successors, List.map_nil, List.nil_append] using sourcesEq

/-- Renaming is complete: every version and every source is given once, and nothing else is. -/
structure CompletesVersions (graph ssa : DataFlowGraph) : Prop where
  isReachable_iff : ∀ block, ssa.flow.isReachable block = true ↔ graph.flow.Reached block
  /-- The definitions in reachable blocks and the phis have the versions from one on. -/
  versions_perm : ∀ var,
    (versionsOf var (ssa.flow.reachableBlocks.flatMap ssa.flow.definitions ++
      ssa.flow.phis.toList.map Phi.definition)).Perm (List.range' 1 (ssa.flow.versionCount var))
  version_eq_zero : ∀ block, ¬ graph.flow.Reached block →
    ∀ definition ∈ ssa.flow.definitions block, definition.version = 0
  nodup_sources : ∀ phi ∈ ssa.flow.phis, (phi.sources.map (·.block)).Nodup
  mem_sources_iff : ∀ phi ∈ ssa.flow.phis, ∀ block, block ∈ phi.sources.map (·.block) ↔
    block ∈ graph.flow.predecessors phi.block ∧ graph.flow.Reached block
  /-- One edge comes from each of the different nodes that the sources of a phi name, as far as
  there are such nodes. -/
  incoming_perm : ∀ phi ∈ ssa.flow.phis, (ssa.values.incoming phi.node).Perm
    (((phi.sources.filterMap (·.node)).dedup.filter (· < ssa.values.size)).map (sourceEdge phi))
  /-- There are all such nodes if all definitions that were recorded are of nodes. -/
  source_lt : (∀ block, ∀ definition ∈ graph.flow.definitions block,
      definition.node < graph.values.size) →
    ∀ phi ∈ ssa.flow.phis, ∀ source ∈ phi.sources, ∀ node, source.node = some node →
      node < ssa.values.size

/-- In control flow without phis in which no block is reachable from two entries and no entry has a
predecessor, a conversion gives all versions and all sources. -/
theorem completesVersions_convertToSsa (graph : DataFlowGraph) (stage : graph.flow.Stage)
    (separate : graph.flow.Separate) (fresh : graph.flow.phis = #[])
    (known : graph.values.EdgesKnown) : CompletesVersions graph graph.convertToSsa := by
  have coherent := stage.coherent
  have settled := settled_nil (stage.wellFormed fresh)
  have holds := holdsPhis_convertToSsa settled.holds
  have reachable := isReachable_convertToSsa coherent separate
  rcases exists_numbered coherent separate settled.holds with ⟨blocks, nodup, listed, numbered⟩
  have phisReached : ∀ phi ∈ graph.convertToSsa.flow.phis, phi.block ∈ blocks := by
    intro phi member
    rw [listed]
    have site := holds.mem_blocksWithPhi.1 (mem_blocksWithPhi.2 ⟨phi, member, rfl, rfl⟩)
    exact ((settled.mem_iff coherent separate).1 site).reached
  constructor
  · exact reachable
  · intro var
    have same : blocks.Perm graph.convertToSsa.flow.reachableBlocks := by
      refine (List.perm_ext_iff_of_nodup nodup (nodup_reachableBlocks _)).2 fun block => ?_
      rw [listed, ← reachable, mem_reachableBlocks]
    have counted := numbered.counts var
    have start : graph.withPhis.flow.clearVersions.versionCount var = 0 := rfl
    rw [start, List.range'_zero, List.nil_append] at counted
    rw [← counted]
    refine versionsOf_perm ((perm_flatMap_produced _ _).trans ?_).symm var
    exact (same.flatMap_right _).append ((holds.perm_phisIn nodup phisReached).map _)
  · intro block unreached
    refine (stage_convertToSsa stage).confined.version_eq block ?_
    rwa [reached_iff_of_agree graph.agree_convertToSsa]
  · intro phi member
    rw [blocks_sources numbered member, List.nodup_flatMap]
    constructor
    · intro block _
      rw [List.nodup_replicate]
      exact List.nodup_iff_count_le_one.1 (stage.nodup_successors block) phi.block
    · refine nodup.imp fun different block one two => ?_
      exact different ((List.mem_replicate.1 one).2.symm.trans (List.mem_replicate.1 two).2)
  · intro phi member block
    rw [blocks_sources numbered member, List.mem_flatMap, coherent.mem_predecessors, ← listed]
    simp only [List.mem_replicate, Nat.ne_zero_iff_zero_lt, List.count_pos_iff]
    constructor
    · rintro ⟨other, otherListed, taken, rfl⟩
      exact ⟨taken, otherListed⟩
    · rintro ⟨taken, blockListed⟩
      exact ⟨block, blockListed, taken, rfl⟩
  · intro phi member
    exact perm_incoming fresh known member
  · intro defined phi member source sourceListed node named
    exact source_lt fresh defined member sourceListed named

/-- A branch with a definition before it and one on one side; a dead block with a definition leads
to where the sides meet. -/
def branching : DataFlowGraph where
  values :=
    ((ValueGraph.empty.addNode .localVar none none .unknown).2.addNode .localVar none none
      .unknown).2
  scopes := .empty
  flow :=
    ((((((((ControlFlow.empty.newRegion.2.newBlock.2.newBlock.2.newBlock.2.newBlock.2.addEdge
      0 1).addEdge 0 2).addEdge 1 3).addEdge 2 3).addEdge 4 3).recordDefinition
      0 7 0).recordDefinition 1 7 1).recordDefinition 4 7 1)

theorem completesVersions_convertToSsa_branching :
    branching.flow.Stage ∧ branching.flow.Separate ∧ branching.flow.phis = #[] ∧
      branching.values.EdgesKnown ∧
        (versionsOf 7 (branching.convertToSsa.flow.reachableBlocks.flatMap
            branching.convertToSsa.flow.definitions ++
              branching.convertToSsa.flow.phis.toList.map Phi.definition)).Perm
          (List.range' 1 (branching.convertToSsa.flow.versionCount 7)) ∧
        ∀ definition ∈ branching.convertToSsa.flow.definitions 4, definition.version = 0 := by
  have stage : branching.flow.Stage :=
    .recordDefinition 4 7 1 (.recordDefinition 1 7 1 (.recordDefinition 0 7 0 (.addEdge 4 3
      (.addEdge 2 3 (.addEdge 1 3 (.addEdge 0 2 (.addEdge 0 1 (.newBlock (.newBlock (.newBlock
        (.newBlock (.newRegion .empty))))))))))))
  have separate : branching.flow.Separate := by
    constructor
    · intro first firstKnown second secondKnown _ _ _
      exact (List.mem_singleton.1 firstKnown).trans (List.mem_singleton.1 secondKnown).symm
    · intro entry known
      rw [List.mem_singleton.1 known]
      rfl
  have edges : branching.values.EdgesKnown :=
    (ValueGraph.edgesKnown_empty.addNode .localVar none none .unknown).addNode .localVar none none
      .unknown
  have dead : ¬ branching.flow.Reached 4 := by
    rintro ⟨entry, known, earlier, steps⟩
    rw [List.mem_singleton.1 known] at steps
    cases steps with
    | @step before _ _ _ taken =>
        have inside := source_lt_of_edge taken
        revert taken
        have none : ∀ before < 5, ¬ branching.flow.Edge before 4 := by decide
        exact none before inside
  have completes := completesVersions_convertToSsa branching stage separate rfl edges
  exact ⟨stage, separate, rfl, edges, completes.versions_perm 7, completes.version_eq_zero 4 dead⟩

end DataFlowGraph

end EscapePlan
