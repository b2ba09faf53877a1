import EscapePlan.Proofs.Flow.SingleAssignment
import EscapePlan.Proofs.Flow.Stages

/-!
# Phis on iterated dominance frontiers

After a conversion a variable has a phi exactly in the blocks of the least set that contains
the frontier of every reachable block that defines it and is closed under frontiers.  Phis of
earlier conversions count among them: they were needed by the definitions there were, and the
set only grows when more definitions are recorded.
-/

namespace EscapePlan

namespace ControlFlow

open EscapePlan.Path

variable {flow first second : ControlFlow} {block join : BlockId} {var : VarId}

/-! ## Which phis are needed -/

/-- The dominance of a block ends at another: the block dominates a reachable predecessor of the
other, and does not strictly dominate the other. -/
def InFrontier (flow : ControlFlow) (block join : BlockId) : Prop :=
  ∃ entry ∈ flow.entries, ∃ predecessor,
    flow.Edge predecessor join ∧ Leads flow.Edge entry predecessor ∧
      Dominates flow.Edge entry block predecessor ∧
        ¬ (Dominates flow.Edge entry block join ∧ block ≠ join)

/-- The least set of blocks that contains the frontier of every reachable block that defines a
variable and is closed under frontiers. -/
inductive NeedsPhi (flow : ControlFlow) (var : VarId) : BlockId → Prop where
  | definition {block join : BlockId} :
      flow.Reached block → flow.Defines block var → flow.InFrontier block join →
      NeedsPhi flow var join
  | phi {block join : BlockId} :
      NeedsPhi flow var block → flow.InFrontier block join → NeedsPhi flow var join

theorem InFrontier.reached (ends : flow.InFrontier block join) : flow.Reached join := by
  rcases ends with ⟨entry, known, predecessor, taken, leads, -⟩
  exact ⟨entry, known, leads.step taken⟩

theorem NeedsPhi.reached (needs : flow.NeedsPhi var block) : flow.Reached block := by
  cases needs with
  | definition _ _ ends => exact ends.reached
  | phi _ ends => exact ends.reached

theorem inFrontier_iff_of_agree (agree : Agree edgeLists first second) :
    second.InFrontier block join ↔ first.InFrontier block join := by
  rw [InFrontier, InFrontier, agree.entries, edge_eq_of_agree agree]

/-- With the same edges and more definitions, more phis are needed. -/
theorem NeedsPhi.mono (needs : first.NeedsPhi var block) (agree : Agree edgeLists first second)
    (grows : ∀ site, first.Defines site var → second.Defines site var) :
    second.NeedsPhi var block := by
  induction needs with
  | definition reached defines ends =>
      exact .definition ((reached_iff_of_agree agree).2 reached) (grows _ defines)
        ((inFrontier_iff_of_agree agree).2 ends)
  | phi _ ends inductionHypothesis =>
      exact .phi inductionHypothesis ((inFrontier_iff_of_agree agree).2 ends)

theorem mem_frontier_analyzed (coherent : flow.Coherent) (separate : flow.Separate) :
    join ∈ flow.analyzed.frontier block ↔ flow.InFrontier block join :=
  (dominatorTrees_computeDominators coherent separate.apart).mem_frontier coherent separate

/-- Conversions and renamings change the versions of definitions only. -/
theorem defines_iff_of_agree (agree : Agree code first second) :
    second.Defines block var ↔ first.Defines block var := by
  have vars : ∀ flow : ControlFlow, flow.Defines block var ↔
      ∃ definition ∈ (flow.definitions block).map Definition.unversioned,
        definition.var = var := by
    simp [Defines, Definition.unversioned]
  rw [vars, vars, map_definitions_eq (agree.of_view (·.2))]

/-! ## Recorded definitions -/

theorem definitions_recordDefinition (known : block < flow.size) (var : VarId) (node : NodeId) :
    (flow.recordDefinition block var node).definitions block =
      flow.definitions block ++ [⟨var, node, 0⟩] := by
  rcases exists_block?_of_lt known with ⟨found, equal⟩
  rw [definitions, recordDefinition, getD_modifyBlock, if_pos rfl, definitions, equal]
  rfl

theorem defines_recordDefinition (known : block < flow.size) (var : VarId) (node : NodeId) :
    (flow.recordDefinition block var node).Defines block var := by
  rw [Defines, definitions_recordDefinition known]
  exact ⟨_, List.mem_append_right _ List.mem_cons_self, rfl⟩

/-- Recording a definition loses none. -/
theorem Defines.recordDefinition (defines : flow.Defines block var) (other : BlockId)
    (recorded : VarId) (node : NodeId) :
    (flow.recordDefinition other recorded node).Defines block var := by
  by_cases known : other < flow.size
  · by_cases same : other = block
    · subst same
      rcases defines with ⟨definition, member, varEq⟩
      rw [Defines, definitions_recordDefinition known]
      exact ⟨definition, List.mem_append_left _ member, varEq⟩
    · have kept : (flow.recordDefinition other recorded node).definitions block =
          flow.definitions block := by
        rw [definitions, ControlFlow.recordDefinition, getD_modifyBlock, if_neg same]
        rfl
      rw [Defines, kept]
      exact defines
  · rw [ControlFlow.recordDefinition, modifyBlock_eq_self]
    · exact defines
    · intro found equal
      rw [block?_eq_none_iff.2 (Nat.le_of_not_lt known)] at equal
      contradiction

/-! ## What earlier conversions leave -/

/-- Phis stand for different blocks and variables.  They are needed, and none is missing where
the dominance of one of them ends. -/
structure Settled (sites : List (BlockId × VarId)) (flow : ControlFlow) : Prop where
  holds : HoldsPhis sites flow
  nodup : sites.Nodup
  needed : ∀ block var, (block, var) ∈ sites → flow.NeedsPhi var block
  closed : ∀ block var, (block, var) ∈ sites → ∀ join, flow.InFrontier block join →
    (join, var) ∈ sites

theorem settled_nil (wellFormed : flow.WellFormed) : Settled [] flow where
  holds := holdsPhis_nil wellFormed.phis_eq wellFormed.phiPlaces_eq
  nodup := .nil
  needed _ _ member := absurd member List.not_mem_nil
  closed _ _ member := absurd member List.not_mem_nil

theorem Settled.recordDefinition {sites : List (BlockId × VarId)} (settled : Settled sites flow)
    (block : BlockId) (var : VarId) (node : NodeId) :
    Settled sites (flow.recordDefinition block var node) := by
  have agree := flow.agree_recordDefinition block var node
  have edges := agree.of_view (·.1)
  constructor
  · exact settled.holds.of_same rfl (agree.getD_eq (·.2))
  · exact settled.nodup
  · intro site other member
    exact (settled.needed site other member).mono edges fun _ defines =>
      defines.recordDefinition block var node
  · intro site other member join ends
    exact settled.closed site other member join ((inFrontier_iff_of_agree edges).1 ends)

theorem HoldsPhis.mem_blocksWithPhi {sites : List (BlockId × VarId)}
    (holds : HoldsPhis sites flow) :
    block ∈ flow.blocksWithPhi var ↔ (block, var) ∈ sites := by
  rw [ControlFlow.mem_blocksWithPhi, ← holds.sites_eq, List.mem_map]
  simp

theorem HoldsPhis.nodup_blocksWithPhi {sites : List (BlockId × VarId)}
    (holds : HoldsPhis sites flow) (nodup : sites.Nodup) (var : VarId) :
    (flow.blocksWithPhi var).Nodup := by
  rw [← holds.sites_eq] at nodup
  rw [blocksWithPhi]
  refine List.Nodup.map_on ?_ (nodup.of_map.filter _)
  intro one oneMember two twoMember same
  simp only [List.mem_filter, decide_eq_true_eq] at oneMember twoMember
  refine List.inj_on_of_nodup_map nodup oneMember.1 twoMember.1 ?_
  rw [same, oneMember.2, twoMember.2]

theorem nodup_definedVariables (flow : ControlFlow) : flow.definedVariables.Nodup :=
  List.Pairwise.imp Nat.ne_of_lt (List.pairwise_map.2 (Table.ascending _))

/-- The new phis are all different, and none of them is there already. -/
theorem nodup_newPhis {sites : List (BlockId × VarId)} (holds : HoldsPhis sites flow)
    (nodup : sites.Nodup) (known : ∀ block, ∀ join ∈ flow.frontier block, join < flow.size) :
    flow.newPhis.Nodup ∧ ∀ site ∈ flow.newPhis, site ∉ sites := by
  constructor
  · rw [newPhis, List.nodup_flatMap]
    constructor
    · intro var _
      have placed := (nodup_phiBlocks known (holds.nodup_blocksWithPhi nodup var)).1
      exact placed.map fun one two same => congrArg Prod.fst same
    · refine flow.nodup_definedVariables.imp fun different => ?_
      intro site one two
      rcases List.mem_map.1 one with ⟨_, -, rfl⟩
      rcases List.mem_map.1 two with ⟨_, -, same⟩
      exact different (congrArg Prod.snd same).symm
  · rintro ⟨block, var⟩ new old
    rw [mem_newPhis known] at new
    have fresh := (nodup_phiBlocks known (holds.nodup_blocksWithPhi nodup var)).2
    exact fresh block new (holds.mem_blocksWithPhi.2 old)

/-! ## What a conversion adds -/

section

variable {sites : List (BlockId × VarId)}

/-- A phi that is placed is needed. -/
theorem needsPhi_of_mem_phiBlocks (coherent : flow.Coherent) (separate : flow.Separate)
    (placed : block ∈ flow.analyzed.phiBlocks var) : flow.NeedsPhi var block := by
  have trees := dominatorTrees_computeDominators coherent separate.apart
  rcases spreads_of_mem_phiBlocks (frontier_lt flow) placed with ⟨-, site, defining, spreads⟩
  rcases (mem_definingBlocks_analyzed trees).1 defining with ⟨reached, defines⟩
  clear placed
  induction spreads with
  | single ends =>
      exact .definition reached defines ((mem_frontier_analyzed coherent separate).1 ends)
  | tail _ ends inductionHypothesis =>
      exact .phi inductionHypothesis ((mem_frontier_analyzed coherent separate).1 ends)

/-- A phi that is needed is placed or there already. -/
theorem mem_newPhis_of_needsPhi (coherent : flow.Coherent) (separate : flow.Separate)
    (settled : Settled sites flow) (needs : flow.NeedsPhi var block) :
    (block, var) ∈ sites ++ flow.analyzed.newPhis := by
  have trees := dominatorTrees_computeDominators coherent separate.apart
  have ofFrontier : ∀ {block join}, block ∈ flow.analyzed.definingBlocks var ∨
      block ∈ flow.analyzed.phiBlocks var → flow.InFrontier block join →
        (join, var) ∈ sites ++ flow.analyzed.newPhis := by
    intro block join defines ends
    rw [List.mem_append, mem_newPhis (frontier_lt flow), ← settled.holds.analyzed.mem_blocksWithPhi]
    exact (mem_phiBlocks_of_frontier (frontier_lt flow) defines
      ((mem_frontier_analyzed coherent separate).2 ends)).symm
  induction needs with
  | definition reached defines ends =>
      exact ofFrontier (.inl ((mem_definingBlocks_analyzed trees).2 ⟨reached, defines⟩)) ends
  | @phi block join _ ends inductionHypothesis =>
      rcases List.mem_append.1 inductionHypothesis with old | new
      · exact List.mem_append_left _ (settled.closed block var old join ends)
      · exact ofFrontier (.inr ((mem_newPhis (frontier_lt flow)).1 new)) ends

theorem Settled.mem_iff (settled : Settled sites flow) (coherent : flow.Coherent)
    (separate : flow.Separate) :
    (block, var) ∈ sites ++ flow.analyzed.newPhis ↔ flow.NeedsPhi var block := by
  constructor
  · intro member
    rcases List.mem_append.1 member with old | new
    · exact settled.needed block var old
    · exact needsPhi_of_mem_phiBlocks coherent separate ((mem_newPhis (frontier_lt flow)).1 new)
  · exact mem_newPhis_of_needsPhi coherent separate settled

theorem Settled.nodup_append (settled : Settled sites flow) :
    (sites ++ flow.analyzed.newPhis).Nodup := by
  have new := nodup_newPhis settled.holds.analyzed settled.nodup (frontier_lt flow)
  refine List.nodup_append.2 ⟨settled.nodup, new.1, ?_⟩
  intro old oldMember site member same
  exact new.2 site member (same ▸ oldMember)

end

end ControlFlow

/-! ## Conversion after conversion -/

namespace DataFlowGraph

open ControlFlow EscapePlan.Path

theorem stage_foldl_placePhi {sites : List (BlockId × VarId)} {graph : DataFlowGraph}
    (stage : graph.flow.Stage) : (sites.foldl placePhi graph).flow.Stage := by
  induction sites generalizing graph with
  | nil => exact stage
  | cons site sites inductionHypothesis =>
      exact @inductionHypothesis (graph.placePhi site) (stage.attachPhi site.1 site.2 _)

theorem stage_convertToSsa {graph : DataFlowGraph} (stage : graph.flow.Stage) :
    graph.convertToSsa.flow.Stage := by
  have analyzed : graph.flow.analyzed.Stage := stage.computeDominators.computeFrontiers
  rw [flow_convertToSsa]
  exact (@stage_foldl_placePhi _ { graph with flow := graph.flow.analyzed } analyzed).rename

/-- What a graph may become when it is converted, definitions are recorded, and values and scopes
change, any number of times, while its edges stay the same. -/
inductive Develops (start : DataFlowGraph) : DataFlowGraph → Prop where
  | start : Develops start start
  | convertToSsa {graph : DataFlowGraph} : Develops start graph → Develops start graph.convertToSsa
  | recordDefinition {graph : DataFlowGraph} (block : BlockId) (var : VarId) (node : NodeId) :
      Develops start graph →
      Develops start { graph with flow := graph.flow.recordDefinition block var node }
  | revise {graph : DataFlowGraph} (values : ValueGraph) (scopes : Scopes) :
      Develops start graph → Develops start { graph with values, scopes }

theorem Develops.stage {start graph : DataFlowGraph} (develops : start.Develops graph)
    (stage : start.flow.Stage) : graph.flow.Stage := by
  induction develops with
  | start => exact stage
  | convertToSsa _ inductionHypothesis => exact stage_convertToSsa inductionHypothesis
  | recordDefinition block var node _ inductionHypothesis =>
      exact inductionHypothesis.recordDefinition block var node
  | revise _ _ _ inductionHypothesis => exact inductionHypothesis

theorem Develops.agree {start graph : DataFlowGraph} (develops : start.Develops graph) :
    Agree edgeLists start.flow graph.flow := by
  induction develops with
  | start => exact .refl start.flow
  | @convertToSsa graph _ inductionHypothesis =>
      exact inductionHypothesis.trans graph.agree_convertToSsa
  | @recordDefinition graph block var node _ inductionHypothesis =>
      exact inductionHypothesis.trans
        ((graph.flow.agree_recordDefinition block var node).of_view (·.1))
  | revise _ _ _ inductionHypothesis => exact inductionHypothesis

theorem settled_convertToSsa {graph : DataFlowGraph} {sites : List (BlockId × VarId)}
    (settled : Settled sites graph.flow) (coherent : graph.flow.Coherent)
    (separate : graph.flow.Separate) :
    Settled (sites ++ graph.flow.analyzed.newPhis) graph.convertToSsa.flow := by
  have same := graph.agree_convertToSsa
  constructor
  · exact holdsPhis_convertToSsa settled.holds
  · exact settled.nodup_append
  · intro block var member
    exact ((settled.mem_iff coherent separate).1 member).mono same fun _ =>
      (defines_iff_of_agree graph.agree_code_convertToSsa).2
  · intro block var member join ends
    rw [settled.mem_iff coherent separate] at member ⊢
    exact .phi member ((inFrontier_iff_of_agree same).1 ends)

theorem Develops.exists_settled {start graph : DataFlowGraph} (develops : start.Develops graph)
    (stage : start.flow.Stage) (separate : start.flow.Separate) (fresh : start.flow.phis = #[]) :
    ∃ sites, Settled sites graph.flow := by
  induction develops with
  | start => exact ⟨[], settled_nil (stage.wellFormed fresh)⟩
  | @convertToSsa graph before inductionHypothesis =>
      rcases inductionHypothesis with ⟨sites, settled⟩
      exact ⟨_, settled_convertToSsa settled (before.stage stage).coherent
        (separate.of_agree before.agree)⟩
  | recordDefinition block var node _ inductionHypothesis =>
      exact inductionHypothesis.imp fun _ settled => settled.recordDefinition block var node
  | revise _ _ _ inductionHypothesis => exact inductionHypothesis

/-- Control flow has the phis that its definitions need, and no others. -/
structure PlacesPhis (flow ssa : ControlFlow) : Prop where
  mem_frontier_iff : ∀ block join, join ∈ ssa.frontier block ↔ flow.InFrontier block join
  exists_phi_iff : ∀ block var,
    (∃ phi ∈ ssa.phis, phi.block = block ∧ phi.var = var) ↔ flow.NeedsPhi var block
  /-- No two phis are of the same variable in the same block. -/
  nodup_sites : (ssa.phis.toList.map fun phi => (phi.block, phi.var)).Nodup
  reached : ∀ phi ∈ ssa.phis, flow.Reached phi.block
  /-- Each block lists its own phis, and each of them once. -/
  mem_phiPlaces : ∀ block place, place ∈ ssa.phiPlaces block ↔
    ∃ phi, ssa.phis[place]? = some phi ∧ phi.block = block
  nodup_phiPlaces : ∀ block, (ssa.phiPlaces block).Nodup

/-- In control flow in which no block is reachable from two entries and no entry has a
predecessor, a conversion places phis on the iterated dominance frontiers of all definitions,
whatever definitions were recorded since earlier conversions. -/
theorem placesPhis_convertToSsa (start graph : DataFlowGraph) (stage : start.flow.Stage)
    (separate : start.flow.Separate) (fresh : start.flow.phis = #[])
    (develops : start.Develops graph) : PlacesPhis graph.flow graph.convertToSsa.flow := by
  have coherent := (develops.stage stage).coherent
  have apart := separate.of_agree develops.agree
  rcases develops.exists_settled stage separate fresh with ⟨sites, settled⟩
  have holds := (settled_convertToSsa settled coherent apart).holds
  have exists_phi_iff : ∀ block var,
      (∃ phi ∈ graph.convertToSsa.flow.phis, phi.block = block ∧ phi.var = var) ↔
        graph.flow.NeedsPhi var block := by
    intro block var
    rw [← mem_blocksWithPhi, holds.mem_blocksWithPhi, settled.mem_iff coherent apart]
  constructor
  · intro block join
    have kept : graph.convertToSsa.flow.frontier block = graph.flow.analyzed.frontier block := by
      rw [flow_convertToSsa]
      exact ((graph.agree_withPhis.of_view (·.frontier)).trans
        ((retains_rename _).agree.of_view (·.frontier))).getD_eq id block
    rw [kept, mem_frontier_analyzed coherent apart]
  · exact exists_phi_iff
  · rw [holds.sites_eq]
    exact settled.nodup_append
  · intro phi member
    exact ((exists_phi_iff phi.block phi.var).1 ⟨phi, member, rfl, rfl⟩).reached
  · exact holds.mem_phiPlaces
  · exact holds.nodup_phiPlaces

/-- A loop inside a loop, with a definition in either body. -/
def looping : DataFlowGraph where
  values := .empty
  scopes := .empty
  flow :=
    ((((((ControlFlow.empty.newRegion.2.newBlock.2.newBlock.2.newBlock.2.addEdge 0 1).addEdge
      1 2).addEdge 2 3).addEdge 3 2).addEdge 3 1).recordDefinition 3 7 10).recordDefinition 1 7 11

/-- The same after a conversion and one more definition. -/
def extended : DataFlowGraph :=
  { looping.convertToSsa with flow := looping.convertToSsa.flow.recordDefinition 3 8 12 }

theorem placesPhis_convertToSsa_extended :
    looping.flow.Stage ∧ looping.flow.Separate ∧ looping.flow.phis = #[] ∧
      looping.Develops extended ∧
        ∃ phi ∈ extended.convertToSsa.flow.phis, phi.block = 2 ∧ phi.var = 8 := by
  have stage : looping.flow.Stage :=
    .recordDefinition 1 7 11 (.recordDefinition 3 7 10 (.addEdge 3 1 (.addEdge 3 2 (.addEdge 2 3
      (.addEdge 1 2 (.addEdge 0 1 (.newBlock (.newBlock (.newBlock (.newRegion .empty))))))))))
  have separate : looping.flow.Separate := by
    constructor
    · intro first firstKnown second secondKnown _ _ _
      exact (List.mem_singleton.1 firstKnown).trans (List.mem_singleton.1 secondKnown).symm
    · intro entry known
      rw [List.mem_singleton.1 known]
      rfl
  have develops : looping.Develops extended := .recordDefinition 3 8 12 (.convertToSsa .start)
  have direct : Path looping.flow.Edge 0 [2, 1, 0] := .step (.step .start (by decide)) (by decide)
  have steps : Path looping.flow.Edge 0 [3, 2, 1, 0] := direct.step (by decide)
  have ends : looping.flow.InFrontier 3 2 := by
    refine ⟨0, List.mem_cons_self, 3, by decide, ⟨_, steps⟩, .refl 3, fun strict => ?_⟩
    exact absurd (strict.1 [1, 0] direct) (by decide)
  have known : 3 < looping.convertToSsa.flow.size :=
    looping.agree_convertToSsa.size_eq ▸ (by decide : 3 < looping.flow.size)
  have places := placesPhis_convertToSsa looping extended stage separate rfl develops
  refine ⟨stage, separate, rfl, develops, (places.exists_phi_iff 2 8).2 ?_⟩
  exact .definition ((reached_iff_of_agree develops.agree).2 ⟨0, List.mem_cons_self, _, steps⟩)
    (defines_recordDefinition known 8 12) ((inFrontier_iff_of_agree develops.agree).2 ends)

end DataFlowGraph

end EscapePlan
