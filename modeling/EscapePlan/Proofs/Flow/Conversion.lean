import EscapePlan.Graph.DataFlow
import EscapePlan.Proofs.Flow.Frontier
import EscapePlan.Proofs.Flow.RenamingTree
import EscapePlan.Proofs.Graph.Edges

/-!
# The steps of a conversion

Conversion to single assignment form computes dominators and frontiers, places phis, renames
and links.  Each of these steps keeps what the others are about: edges and definitions but for
their versions, phis that were placed, and values.
-/

namespace EscapePlan

namespace ControlFlow

/-! ## Dominators and frontiers -/

/-- Control flow with its dominator trees and frontiers. -/
def analyzed (flow : ControlFlow) : ControlFlow :=
  flow.computeDominators.computeFrontiers

theorem frontier_lt (flow : ControlFlow) (block : BlockId) :
    ∀ join ∈ flow.analyzed.frontier block, join < flow.analyzed.size := by
  intro join member
  rw [analyzed, (agree_computeFrontiers _).size_eq]
  exact ((mem_frontier_computeFrontiers _ block join).1 member).1

/-- Dominators and frontiers are computed in blocks only. -/
theorem part_analyzed {β : Type} {part : ControlFlow → β}
    (stays : ∀ flow blocks, part { flow with blocks } = part flow) (flow : ControlFlow) :
    part flow.analyzed = part flow :=
  (part_computeFrontiers stays _).trans (part_computeDominators stays flow)

theorem phis_analyzed (flow : ControlFlow) : flow.analyzed.phis = flow.phis :=
  @part_analyzed _ (·.phis) (fun _ _ => rfl) flow

/-- A block apart from what is computed for it. -/
def uncomputed (block : Block) : Block :=
  { block with idom := none, children := [], reachable := false, frontier := [] }

theorem agree_analyzed (flow : ControlFlow) : Agree uncomputed flow flow.analyzed :=
  (flow.agree_computeDominators.of_view uncomputed).trans
    (flow.computeDominators.agree_computeFrontiers.of_view uncomputed)

theorem HoldsPhis.analyzed {flow : ControlFlow} {sites : List (BlockId × VarId)}
    (holds : HoldsPhis sites flow) : HoldsPhis sites flow.analyzed :=
  holds.of_same flow.phis_analyzed (flow.agree_analyzed.getD_eq (·.phis))

/-- What a block does: its edges and its definitions. -/
def code (block : Block) : (List BlockId × List BlockId) × List Definition :=
  (edgeLists block, block.definitions.map Definition.unversioned)

end ControlFlow

namespace DataFlowGraph

/-! ## Phis -/

theorem agree_foldl_placePhi (sites : List (BlockId × VarId)) (graph : DataFlowGraph) :
    ControlFlow.Agree ControlFlow.withoutPhis graph.flow (sites.foldl placePhi graph).flow := by
  induction sites generalizing graph with
  | nil => exact .refl graph.flow
  | cons site sites inductionHypothesis =>
      have placed : ControlFlow.Agree ControlFlow.withoutPhis graph.flow
          (graph.placePhi site).flow := ControlFlow.agree_attachPhi graph.flow site.1 site.2 _
      exact placed.trans (inductionHypothesis (graph.placePhi site))

theorem holdsPhis_foldl_placePhi {sites done : List (BlockId × VarId)} {graph : DataFlowGraph}
    (known : ∀ site ∈ sites, site.1 < graph.flow.size)
    (holds : ControlFlow.HoldsPhis done graph.flow) :
    ControlFlow.HoldsPhis (done ++ sites) (sites.foldl placePhi graph).flow := by
  induction sites generalizing done graph with
  | nil => rwa [List.append_nil]
  | cons site sites inductionHypothesis =>
      have placed : ControlFlow.HoldsPhis (done ++ [site]) (graph.placePhi site).flow :=
        holds.attachPhi (known site List.mem_cons_self) site.2 _
      have sizeEq : (graph.placePhi site).flow.size = graph.flow.size :=
        (agree_foldl_placePhi [site] graph).size_eq
      have rest := inductionHypothesis (fun other member => by
        rw [sizeEq]
        exact known other (List.mem_cons_of_mem _ member)) placed
      rwa [List.append_assoc] at rest

theorem node?_foldl_placePhi {sites : List (BlockId × VarId)} {graph : DataFlowGraph} {id : NodeId}
    {node : ValueNode} (found : graph.values.node? id = some node) :
    (sites.foldl placePhi graph).values.node? id = some node := by
  induction sites generalizing graph with
  | nil => exact found
  | cons site rest inductionHypothesis =>
      exact inductionHypothesis (ValueGraph.node?_of_addNode found)

theorem edges_foldl_placePhi (sites : List (BlockId × VarId)) (graph : DataFlowGraph) :
    (sites.foldl placePhi graph).values.edges = graph.values.edges := by
  induction sites generalizing graph with
  | nil => rfl
  | cons site rest inductionHypothesis => exact inductionHypothesis (graph.placePhi site)

theorem le_size_foldl_placePhi (sites : List (BlockId × VarId)) (graph : DataFlowGraph) :
    graph.values.size ≤ (sites.foldl placePhi graph).values.size := by
  induction sites generalizing graph with
  | nil => exact Nat.le_refl _
  | cons site rest inductionHypothesis =>
      have added : graph.values.size + 1 = (graph.placePhi site).values.size :=
        (graph.values.size_addNode .phi none none .unknown).symm
      exact Nat.le_trans (Nat.le_of_succ_le (Nat.le_of_eq added)) (inductionHypothesis _)

/-- A phi was there, or it has the node that was added with it. -/
theorem of_mem_phis_placePhi {graph : DataFlowGraph} {site : BlockId × VarId} {phi : Phi}
    (member : phi ∈ (graph.placePhi site).flow.phis) :
    phi ∈ graph.flow.phis ∨ phi.node = graph.values.size := by
  have attached : phi ∈ (graph.flow.attachPhi site.1 site.2 graph.values.size).phis := member
  rw [ControlFlow.attachPhi] at attached
  split at attached
  next =>
    rcases Array.mem_push.1 attached with old | rfl
    · exact .inl old
    · exact .inr rfl
  next => exact .inl attached

theorem kind?_foldl_placePhi (sites : List (BlockId × VarId)) (graph : DataFlowGraph)
    (site : BlockId × VarId) :
    (sites.foldl placePhi (graph.placePhi site)).values.kind? graph.values.size = some .phi := by
  have added : (graph.placePhi site).values.node? graph.values.size =
      some (.new graph.values.size .phi none none .unknown) :=
    (graph.values.node?_addNode .phi none none .unknown _).trans (if_pos rfl)
  exact Option.map_eq_some_iff.2 ⟨_, node?_foldl_placePhi added, rfl⟩

/-- A node that was not there before phis were placed is that of a phi. -/
theorem kind?_of_foldl_placePhi {sites : List (BlockId × VarId)} {graph : DataFlowGraph}
    {id : NodeId} {kind : NodeKind}
    (found : (sites.foldl placePhi graph).values.kind? id = some kind) :
    graph.values.kind? id = some kind ∨ kind = .phi := by
  induction sites generalizing graph with
  | nil => exact .inl found
  | cons site rest inductionHypothesis =>
      rcases inductionHypothesis found with placed | phi
      · have added := (graph.values.kind?_addNode .phi none none .unknown id).symm.trans placed
        split at added
        next => exact .inr (Option.some.inj added).symm
        next => exact .inl added
      · exact .inr phi

/-- Phis that are placed have new nodes. -/
theorem of_mem_phis_foldl_placePhi {sites : List (BlockId × VarId)} {graph : DataFlowGraph}
    {phi : Phi} (member : phi ∈ (sites.foldl placePhi graph).flow.phis) :
    phi ∈ graph.flow.phis ∨ graph.values.size ≤ phi.node ∧
      (sites.foldl placePhi graph).values.kind? phi.node = some .phi := by
  induction sites generalizing graph with
  | nil => exact .inl member
  | cons site rest inductionHypothesis =>
      rcases inductionHypothesis member with earlier | ⟨beyond, kind⟩
      · refine (of_mem_phis_placePhi earlier).imp_right fun nodeEq => ?_
        rw [nodeEq]
        exact ⟨Nat.le_refl _, kind?_foldl_placePhi rest graph site⟩
      · exact .inr ⟨Nat.le_trans (le_size_foldl_placePhi [site] graph) beyond, kind⟩

/-- Every phi that is placed has a node of its own. -/
theorem nodup_nodes_foldl_placePhi {sites : List (BlockId × VarId)} {graph : DataFlowGraph}
    (nodup : (graph.flow.phis.toList.map (·.node)).Nodup)
    (known : ∀ phi ∈ graph.flow.phis, phi.node < graph.values.size) :
    ((sites.foldl placePhi graph).flow.phis.toList.map (·.node)).Nodup := by
  induction sites generalizing graph with
  | nil => exact nodup
  | cons site rest inductionHypothesis =>
      have sizeEq : (graph.placePhi site).values.size = graph.values.size + 1 :=
        graph.values.size_addNode .phi none none .unknown
      refine @inductionHypothesis (graph.placePhi site) ?_ fun phi member => ?_
      · by_cases inside : site.1 < graph.flow.size
        · have phisEq := ControlFlow.phis_attachPhi inside site.2 graph.values.size
          change ((graph.flow.attachPhi site.1 site.2 graph.values.size).phis.toList.map
            (·.node)).Nodup
          rw [phisEq, Array.toList_push, List.map_append, List.nodup_append]
          refine ⟨nodup, by simp, ?_⟩
          rintro node old other new rfl
          rcases List.mem_map.1 old with ⟨phi, member, rfl⟩
          have bound := known phi (Array.mem_toList_iff.1 member)
          simp only [List.map_cons, List.map_nil, List.mem_singleton] at new
          exact Nat.lt_irrefl _ (new ▸ bound)
        · have same : (graph.placePhi site).flow = graph.flow := if_neg inside
          rw [same]
          exact nodup
      · rw [sizeEq]
        rcases of_mem_phis_placePhi member with old | new
        · exact Nat.lt_succ_of_lt (known phi old)
        · exact new ▸ Nat.lt_succ_self _

/-- Placing phis changes no definitions. -/
theorem definitions_foldl_placePhi {sites : List (BlockId × VarId)} {graph : DataFlowGraph}
    {number : BlockId} {block : Block}
    (found : (sites.foldl placePhi graph).flow.block? number = some block) :
    ∃ old, graph.flow.block? number = some old ∧ old.definitions = block.definitions := by
  induction sites generalizing graph with
  | nil => exact ⟨block, found, rfl⟩
  | cons site rest inductionHypothesis =>
      rcases inductionHypothesis found with ⟨middle, foundMiddle, definitions⟩
      have attached : (graph.flow.attachPhi site.1 site.2 graph.values.size).block? number =
          some middle := foundMiddle
      rw [ControlFlow.attachPhi] at attached
      split at attached
      next =>
        have modified : (graph.flow.modifyBlock site.1 fun found =>
            { found with phis := found.phis ++ [graph.flow.phis.size] }).block? number =
              some middle := attached
        rw [ControlFlow.block?_modifyBlock] at modified
        split at modified
        next =>
          rcases Option.map_eq_some_iff.1 modified with ⟨old, foundOld, rfl⟩
          exact ⟨old, foundOld, definitions⟩
        next => exact ⟨middle, modified, definitions⟩
      next => exact ⟨middle, attached, definitions⟩

/-! ## Links -/

/-- The edges that link the nodes of versions. -/
def linkEdges (links : List (NodeId × NodeId)) : List Edge :=
  links.map fun link => ⟨link.1, link.2, .defUse⟩

theorem foldl_linkPhi (links : List (NodeId × NodeId)) (values : ValueGraph) :
    links.foldl linkPhi values = (linkEdges links).foldl ValueGraph.addEdge values := by
  rw [linkEdges, List.foldl_map]
  rfl

theorem nodes_foldl_linkPhi (links : List (NodeId × NodeId)) (values : ValueGraph) :
    (links.foldl linkPhi values).nodes = values.nodes := by
  rw [foldl_linkPhi, ValueGraph.nodes_foldl_addEdge]

/-! ## All steps -/

/-- The graph with its phis placed. -/
def withPhis (graph : DataFlowGraph) : DataFlowGraph :=
  graph.flow.analyzed.newPhis.foldl placePhi { graph with flow := graph.flow.analyzed }

theorem flow_convertToSsa (graph : DataFlowGraph) :
    graph.convertToSsa.flow = graph.withPhis.flow.rename.1 := by
  rw [convertToSsa, withPhis, ControlFlow.analyzed]

theorem values_convertToSsa (graph : DataFlowGraph) :
    graph.convertToSsa.values =
      graph.withPhis.flow.rename.2.foldl linkPhi graph.withPhis.values := by
  rw [convertToSsa, withPhis, ControlFlow.analyzed]

theorem scopes_convertToSsa (graph : DataFlowGraph) :
    graph.convertToSsa.scopes = graph.withPhis.scopes := by
  rw [convertToSsa, withPhis, ControlFlow.analyzed]

/-- Conversion binds no names. -/
theorem scopes_convertToSsa_eq (graph : DataFlowGraph) :
    graph.convertToSsa.scopes = graph.scopes := by
  rw [scopes_convertToSsa]
  exact List.foldlRecOn (motive := fun placed : DataFlowGraph => placed.scopes = graph.scopes) _ _
    rfl fun _ same _ _ => same

theorem le_size_withPhis (graph : DataFlowGraph) :
    graph.values.size ≤ graph.withPhis.values.size :=
  le_size_foldl_placePhi _ { graph with flow := graph.flow.analyzed }

/-- Placing phis adds no edges. -/
theorem edges_withPhis (graph : DataFlowGraph) :
    graph.withPhis.values.edges = graph.values.edges := by
  rw [withPhis, edges_foldl_placePhi]

/-- Linking adds the edges of the links that are not there yet. -/
theorem exists_adds_convertToSsa (graph : DataFlowGraph) :
    ∃ added, ValueGraph.Adds (linkEdges graph.withPhis.flow.rename.2) graph.withPhis.values added
      graph.convertToSsa.values := by
  rw [values_convertToSsa, foldl_linkPhi]
  exact ValueGraph.exists_adds _ _

/-- Phis that a conversion places have new nodes. -/
theorem of_mem_phis_withPhis {graph : DataFlowGraph} {phi : Phi}
    (member : phi ∈ graph.withPhis.flow.phis) :
    phi ∈ graph.flow.phis ∨
      graph.values.size ≤ phi.node ∧ graph.withPhis.values.kind? phi.node = some .phi := by
  rw [withPhis] at member ⊢
  refine (of_mem_phis_foldl_placePhi member).imp_left fun old => ?_
  rwa [ControlFlow.phis_analyzed] at old

open ControlFlow in
theorem agree_withPhis (graph : DataFlowGraph) :
    Agree withoutPhis graph.flow.analyzed graph.withPhis.flow :=
  agree_foldl_placePhi _ { graph with flow := graph.flow.analyzed }

open ControlFlow in
/-- The phis that are placed come after those there were. -/
theorem holdsPhis_withPhis {graph : DataFlowGraph} {sites : List (BlockId × VarId)}
    (holds : HoldsPhis sites graph.flow) :
    HoldsPhis (sites ++ graph.flow.analyzed.newPhis) graph.withPhis.flow := by
  rw [withPhis]
  refine @holdsPhis_foldl_placePhi _ _ { graph with flow := graph.flow.analyzed } ?_
    holds.analyzed
  rintro ⟨block, var⟩ member
  rw [mem_newPhis (frontier_lt graph.flow)] at member
  exact (spreads_of_mem_phiBlocks (frontier_lt graph.flow) member).1

open ControlFlow in
/-- Where there were no phis, those that are placed are all there are. -/
theorem holdsPhis_newPhis {graph : DataFlowGraph} (none : HoldsPhis [] graph.flow) :
    HoldsPhis graph.flow.analyzed.newPhis graph.withPhis.flow := by
  have placed := holdsPhis_withPhis none
  rwa [List.nil_append] at placed

open ControlFlow in
theorem holdsPhis_convertToSsa {graph : DataFlowGraph} {sites : List (BlockId × VarId)}
    (holds : HoldsPhis sites graph.flow) :
    HoldsPhis (sites ++ graph.flow.analyzed.newPhis) graph.convertToSsa.flow := by
  rw [flow_convertToSsa]
  exact (retains_rename _).holdsPhis (holdsPhis_withPhis holds)

open ControlFlow in
/-- Placing phis and renaming keep what was computed before. -/
theorem agree_analyzed_convertToSsa (graph : DataFlowGraph) :
    Agree (fun found => withoutVersions (withoutPhis found)) graph.flow.analyzed
      graph.convertToSsa.flow := by
  rw [flow_convertToSsa]
  exact (graph.agree_withPhis.of_view withoutVersions).trans
    ((retains_rename _).agree.of_view withoutPhis)

open ControlFlow in
/-- Conversion keeps what blocks do. -/
theorem agree_code_convertToSsa (graph : DataFlowGraph) :
    Agree code graph.flow graph.convertToSsa.flow := by
  have renamed : Agree code graph.withPhis.flow graph.withPhis.flow.rename.1 :=
    (retains_rename _).agree.of_view fun block => (edgeLists block, block.definitions)
  rw [flow_convertToSsa]
  exact ((graph.flow.agree_analyzed.of_view code).trans (graph.agree_withPhis.of_view code)).trans
    renamed

open ControlFlow in
/-- Conversion keeps the edges. -/
theorem agree_convertToSsa (graph : DataFlowGraph) :
    Agree edgeLists graph.flow graph.convertToSsa.flow :=
  graph.agree_code_convertToSsa.of_view (·.1)

/-- Conversion to single assignment form keeps all values. -/
theorem node?_convertToSsa {graph : DataFlowGraph} {id : NodeId} {node : ValueNode}
    (found : graph.values.node? id = some node) :
    graph.convertToSsa.values.node? id = some node := by
  have placed : graph.withPhis.values.node? id = some node := node?_foldl_placePhi found
  rw [values_convertToSsa, ValueGraph.node?, nodes_foldl_linkPhi]
  exact placed

/-- It keeps all edges. -/
theorem mem_edges_convertToSsa {graph : DataFlowGraph} {edge : Edge}
    (listed : edge ∈ graph.values.edges) : edge ∈ graph.convertToSsa.values.edges := by
  rw [values_convertToSsa, foldl_linkPhi]
  apply ValueGraph.mem_edges_foldl_addEdge
  rw [edges_withPhis]
  exact listed

theorem kind?_convertToSsa (graph : DataFlowGraph) (id : NodeId) :
    graph.convertToSsa.values.kind? id = graph.withPhis.values.kind? id := by
  rw [values_convertToSsa, ValueGraph.kind?, ValueGraph.node?, nodes_foldl_linkPhi]
  rfl

end DataFlowGraph

end EscapePlan
