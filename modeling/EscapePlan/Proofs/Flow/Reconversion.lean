import EscapePlan.Proofs.Flow.Conversion
import EscapePlan.Proofs.Flow.RenamingAgain

/-!
# Conversion after conversion

A second conversion changes nothing.  Dominators and frontiers depend on the edges alone, every
phi that they ask for is there, renaming gives the same versions and links again, and edges that
link the same values are not added twice.
-/

namespace EscapePlan

namespace ControlFlow

variable {flow first second : ControlFlow}

/-! ## What depends on edges alone -/

/-- The edges of a block and its place in the dominator tree. -/
def position (block : Block) :
    ((List BlockId × List BlockId) × Option BlockId × Bool) × List BlockId :=
  (dominance block, block.children)

theorem agree_settleBlock (agree : Agree position first second) (entry : BlockId)
    (dominators : Candidates) (block : BlockId) :
    Agree position (first.settleBlock entry dominators block)
      (second.settleBlock entry dominators block) := by
  refine agree.modifyBoth (fun one two same => ?_) block
  simp_all [position, dominance, edgeLists]

theorem agree_adopt (agree : Agree position first second) (block : BlockId) :
    Agree position (first.adopt block) (second.adopt block) := by
  rw [adopt, adopt, idom?_eq_of_agree (agree.of_view (·.1))]
  split
  next => exact agree
  next parent _ =>
    refine agree.modifyBoth (fun one two same => ?_) parent
    simp_all [position, dominance, edgeLists]

theorem agree_position_dominateRegion (agree : Agree position first second) (entry : BlockId) :
    Agree position (first.dominateRegion entry) (second.dominateRegion entry) := by
  have edges : Agree edgeLists first second := agree.of_view (·.1.1)
  rw [dominateRegion, dominateRegion, explore_eq_of_agree edges,
    immediateDominators?_eq_of_agree edges]
  refine .foldlBoth (fun block _ _ agree => agree_adopt agree block) _ ?_
  exact .foldlBoth (fun block _ _ agree => agree_settleBlock agree entry _ block) _ agree

/-- Dominator trees depend on the edges alone. -/
theorem agree_position_computeDominators (agree : Agree edgeLists first second) :
    Agree position first.computeDominators second.computeDominators := by
  rw [computeDominators, computeDominators, agree.entries]
  refine .foldlBoth (fun entry _ _ agree => agree_position_dominateRegion agree entry) _ ?_
  refine agree.mapBoth fun one two same => ?_
  simp_all [position, dominance, edgeLists]

/-- All that is computed for a block, and its edges. -/
def computed (block : Block) :
    (((List BlockId × List BlockId) × Option BlockId × Bool) × List BlockId) × List BlockId :=
  (position block, block.frontier)

theorem agree_extendFrontier (agree : Agree computed first second) (join block : BlockId) :
    Agree computed (first.extendFrontier join block) (second.extendFrontier join block) := by
  refine agree.modifyBoth (fun one two same => ?_) block
  simp_all only [computed, position, dominance, edgeLists, Prod.mk.injEq]
  split
  next => simp_all
  next => simp_all

theorem agree_computed_spreadJoin (agree : Agree computed first second) (join : BlockId) :
    Agree computed (first.spreadJoin join) (second.spreadJoin join) := by
  have dominance : Agree dominance first second := agree.of_view (·.1.1)
  rw [spreadJoin, spreadJoin, isReachable_eq_of_agree dominance,
    predecessors_eq_of_agree (dominance.of_view (·.1)), runners_eq_of_agree dominance]
  split
  next => exact .foldlBoth (fun block _ _ agree => agree_extendFrontier agree join block) _ agree
  next => exact agree

/-- All that is computed depends on the edges alone. -/
theorem agree_computed_analyzed (agree : Agree edgeLists first second) :
    Agree computed first.analyzed second.analyzed := by
  have trees := agree_position_computeDominators agree
  have cleared : Agree computed first.computeDominators.clearFrontiers
      second.computeDominators.clearFrontiers := by
    refine trees.mapBoth fun one two same => ?_
    simp_all [computed, position, dominance, edgeLists]
  rw [analyzed, analyzed, computeFrontiers_eq, computeFrontiers_eq, spreadJoins, spreadJoins,
    cleared.size_eq]
  exact .foldlBoth (fun join _ _ agree => agree_computed_spreadJoin agree join) _ cleared

/-- Computing everything again changes nothing. -/
theorem analyzed_eq_self (agree : Agree computed flow.analyzed flow) : flow.analyzed = flow := by
  have kept := flow.agree_analyzed
  refine eq_of_same (Array.ext_getElem? fun block => ?_) kept.entries flow.phis_analyzed
    (@part_analyzed _ (·.versions) (fun _ _ => rfl) flow)
  have same := agree.blocks block
  have rest := kept.blocks block
  change flow.analyzed.block? block = flow.block? block
  cases found : flow.block? block with
  | none =>
      rw [found] at rest
      exact Option.map_eq_none_iff.1 rest
  | some old =>
      rw [found] at same rest
      rcases Option.map_eq_some_iff.1 rest with ⟨new, foundNew, equal⟩
      rw [foundNew] at same ⊢
      cases old
      cases new
      simp_all [computed, position, dominance, uncomputed]

/-! ## No phi is placed twice -/

/-- Where frontiers have their phis already, none is placed. -/
theorem Spread.placed_run {frontier : BlockId → List BlockId} {steps : Nat} {spread : Spread}
    (closed : ∀ block ∈ spread.work, ∀ join ∈ frontier block, join ∈ spread.withPhi) :
    (Spread.run frontier steps spread).placed = spread.placed := by
  induction steps generalizing spread with
  | zero => rfl
  | succ steps inductionHypothesis =>
      rw [Spread.run]
      split
      next => rfl
      next block work next =>
        rw [next] at closed
        have visited : (frontier block).foldl Spread.visit { spread with work } =
            { spread with work } := by
          refine foldl_eq_self fun join member => ?_
          exact if_pos (List.contains_iff_mem.2 (closed block List.mem_cons_self join member))
        rw [visited]
        exact inductionHypothesis fun other member =>
          closed other (List.mem_cons_of_mem _ member)

theorem phiBlocks_eq_nil {var : VarId}
    (closed : ∀ block ∈ flow.definingBlocks var, ∀ join ∈ flow.frontier block,
      join ∈ flow.blocksWithPhi var) : flow.phiBlocks var = [] := by
  rw [phiBlocks, List.reverse_eq_nil_iff]
  exact Spread.placed_run fun block member => closed block (List.mem_reverse.1 member)

theorem definingBlocks_eq_of_agree
    (agree : Agree (fun found => (found.reachable, found.definitions.map Definition.unversioned))
      first second) (var : VarId) : second.definingBlocks var = first.definingBlocks var := by
  have same : ∀ block,
      (second.block? block).any (fun found => found.reachable && found.defines var) =
        (first.block? block).any fun found => found.reachable && found.defines var := by
    intro block
    have viewed := agree.any_eq (fun found => found.1 && found.2.any (·.var = var)) block
    simp only [List.any_map] at viewed
    exact viewed
  rw [definingBlocks, definingBlocks, agree.size_eq]
  simp only [same]

/-- Renaming leaves phis where they are. -/
theorem mem_blocksWithPhi_iff_of_retains (retains : Retains first second) {block : BlockId}
    {var : VarId} : block ∈ second.blocksWithPhi var ↔ block ∈ first.blocksWithPhi var := by
  have listed : ∀ flow : ControlFlow, block ∈ flow.blocksWithPhi var ↔
      (block, var) ∈ flow.phis.toList.map fun phi => (phi.block, phi.var) := by
    simp [mem_blocksWithPhi]
  rw [listed, listed, retains.map_phis ?unnamed]
  case unnamed => exact fun _ => rfl

end ControlFlow

namespace DataFlowGraph

open ControlFlow

/-- A phi that is placed is there, and so are those there were. -/
theorem mem_blocksWithPhi_foldl_placePhi {sites : List (BlockId × VarId)} {graph : DataFlowGraph}
    (known : ∀ site ∈ sites, site.1 < graph.flow.size) {block : BlockId} {var : VarId}
    (listed : (block, var) ∈ sites ∨ block ∈ graph.flow.blocksWithPhi var) :
    block ∈ (sites.foldl placePhi graph).flow.blocksWithPhi var := by
  induction sites generalizing graph with
  | nil => exact listed.resolve_left List.not_mem_nil
  | cons site sites inductionHypothesis =>
      have inside := known site List.mem_cons_self
      have sizeEq : (graph.placePhi site).flow.size = graph.flow.size :=
        (agree_foldl_placePhi [site] graph).size_eq
      have phisEq : (graph.placePhi site).flow.phis =
          graph.flow.phis.push ⟨site.1, site.2, graph.values.size, 0, []⟩ :=
        phis_attachPhi inside site.2 graph.values.size
      refine inductionHypothesis (fun other member => ?_) ?_
      · rw [sizeEq]
        exact known other (List.mem_cons_of_mem _ member)
      · rw [mem_blocksWithPhi] at listed ⊢
        simp only [phisEq, Array.mem_push]
        rcases listed with new | ⟨phi, old, same⟩
        · rcases List.mem_cons.1 new with rfl | later
          · exact .inr ⟨_, .inr rfl, rfl, rfl⟩
          · exact .inl later
        · exact .inr ⟨phi, .inl old, same⟩

variable {graph : DataFlowGraph}

/-- After a conversion no phi is missing. -/
theorem newPhis_convertToSsa (graph : DataFlowGraph) : graph.convertToSsa.flow.newPhis = [] := by
  have kept := graph.agree_analyzed_convertToSsa
  rw [newPhis, List.flatMap_eq_nil_iff]
  intro var _
  rw [List.map_eq_nil_iff]
  refine phiBlocks_eq_nil fun block defines join ends => ?_
  have frontierEq : graph.convertToSsa.flow.frontier block = graph.flow.analyzed.frontier block :=
    kept.getD_eq (·.frontier) block
  rw [definingBlocks_eq_of_agree (kept.of_view fun found => (found.reachable, found.definitions))]
    at defines
  rw [frontierEq] at ends
  have listed := mem_phiBlocks_of_frontier (frontier_lt graph.flow) (.inl defines) ends
  rw [← mem_newPhis (frontier_lt graph.flow)] at listed
  rw [flow_convertToSsa, mem_blocksWithPhi_iff_of_retains (retains_rename _)]
  refine mem_blocksWithPhi_foldl_placePhi ?_ listed
  rintro ⟨site, other⟩ member
  rw [mem_newPhis (frontier_lt graph.flow)] at member
  exact (spreads_of_mem_phiBlocks (frontier_lt graph.flow) member).1

/-! ## All steps again -/

theorem eq_of_same {first second : DataFlowGraph} (values : second.values = first.values)
    (scopes : second.scopes = first.scopes) (flow : second.flow = first.flow) :
    second = first := by
  cases first
  cases second
  cases values
  cases scopes
  cases flow
  rfl

theorem analyzed_convertToSsa (graph : DataFlowGraph) :
    graph.convertToSsa.flow.analyzed = graph.convertToSsa.flow := by
  have again := agree_computed_analyzed graph.agree_convertToSsa
  have kept : Agree computed graph.flow.analyzed graph.convertToSsa.flow :=
    graph.agree_analyzed_convertToSsa.of_view computed
  exact analyzed_eq_self (again.symm.trans kept)

/-- A converted graph has all its phis. -/
theorem withPhis_convertToSsa (graph : DataFlowGraph) :
    graph.convertToSsa.withPhis = graph.convertToSsa := by
  rw [withPhis, analyzed_convertToSsa, newPhis_convertToSsa, List.foldl_nil]

/-- Converting a graph again changes nothing: whatever control flow, definitions and phis it has,
values, edges, blocks, phis and versions stay as the first conversion left them. -/
theorem convertToSsa_convertToSsa (graph : DataFlowGraph) :
    graph.convertToSsa.convertToSsa = graph.convertToSsa := by
  have renamed : graph.convertToSsa.flow.rename = graph.withPhis.flow.rename := by
    rw [flow_convertToSsa, rename_rename]
  have flow : graph.convertToSsa.convertToSsa.flow = graph.convertToSsa.flow := by
    rw [flow_convertToSsa, withPhis_convertToSsa, renamed, ← flow_convertToSsa]
  have values : graph.convertToSsa.convertToSsa.values = graph.convertToSsa.values := by
    rw [values_convertToSsa, withPhis_convertToSsa, renamed, values_convertToSsa, foldl_linkPhi,
      foldl_linkPhi, ValueGraph.foldl_addEdge_foldl_addEdge]
  have scopes : graph.convertToSsa.convertToSsa.scopes = graph.convertToSsa.scopes := by
    rw [scopes_convertToSsa, withPhis_convertToSsa]
  exact eq_of_same values scopes flow

end DataFlowGraph

end EscapePlan
