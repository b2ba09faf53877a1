import Mathlib
import EscapePlan.Placement.Report
import EscapePlan.Proofs.Analysis.Restoration
import EscapePlan.Proofs.Isolation.States
import EscapePlan.Proofs.Relabeling.Linking
import EscapePlan.Proofs.Relabeling.Propagation
import EscapePlan.Proofs.Relabeling.Settling
import EscapePlan.Proofs.Relabeling.Visits

/-!
# Analyses under other ids

Which ids stand for the names of a tree decides the numbers of variables, the order in which phis are
placed, and so the numbers of phis and of their nodes.  None of this gets any further: records,
figures and placements are the same, and so is the single assignment form, but for these numbers.
-/

namespace EscapePlan

/-! ## What a walk leaves to a conversion -/

/-- What is left out under other ids is not there. -/
theorem ControlFlow.of_block?_plain {flow : ControlFlow}
    (plain : flow.relabel (.refl VarId) = flow) {number : BlockId} {block : Block}
    (found : flow.block? number = some block) :
    block.phis = [] ∧ block.entryVersions = .empty ∧ block.exitVersions = .empty := by
  rw [← plain, block?_relabel] at found
  rcases Option.map_eq_some_iff.1 found with ⟨old, -, rfl⟩
  exact ⟨rfl, rfl, rfl⟩

namespace Walk

theorem plain_settle (config : Config) (tree : Tree) (limit : Nat) :
    (ofTree config tree limit).settle.graph.Plain := by
  have sound := (ofTree_accounts config tree limit).sound
  have plain := relabel_flow_ofTree config tree limit
  generalize ofTree config tree limit = walk at sound plain
  have flowEq := sound.flow_settle
  constructor
  · rw [flowEq, ← plain]
    rfl
  · intro number
    rw [flowEq, ControlFlow.phiPlaces]
    cases found : walk.graph.flow.block? number with
    | none => rfl
    | some block => exact (ControlFlow.of_block?_plain plain found).1
  · intro number block found
    rw [flowEq] at found
    exact (ControlFlow.of_block?_plain plain found).2
  · intro number block found definition member
    rw [flowEq] at found
    rcases sound.named definition.node (.inl ⟨number, block, found, definition, member, rfl⟩) with
      ⟨key, varKey⟩
    rcases sound.varKey?_kind varKey with ⟨kind, known, -⟩
    exact Walker.kind?_lt ((sound.kind?_settle definition.node).trans known)

/-- Under other ids, a walk leaves a graph that defines other variables. -/
theorem redefines_settle (config : Config) (tree : Tree) (limit : Nat) (names : Equiv.Perm StrId) :
    (ofTree config tree limit).settle.graph.Redefines (StrId.varIds names)
      ((ofTree config tree limit).settle.relabel names).graph where
  values_eq := values_relabel names _
  flow_eq := by
    have sound := (ofTree_accounts config tree limit).sound
    rw [flow_relabel, sound.flow_settle]
    exact ControlFlow.relabel_eq_redefine _ (relabel_flow_ofTree config tree limit)

end Walk

/-! ## Converted graphs side by side -/

namespace DataFlowGraph

open Propagation

variable {vars : Equiv.Perm VarId} {graph one two : DataFlowGraph} {added addedTwin : List Edge}

/-- Nodes from those of a graph on are those of phis, in the unknown state. -/
theorem of_node?_convertToSsa {id : NodeId} {node : ValueNode} (beyond : graph.values.size ≤ id)
    (found : graph.convertToSsa.values.node? id = some node) :
    node.kind = .phi ∧ node.state = .unknown := by
  have nodes := graph.places_withPhis.nodes_eq
  rw [ValueGraph.node?, values_convertToSsa, nodes_foldl_linkPhi, ← Array.getElem?_toList, nodes,
    List.getElem?_append_right (by simpa [ValueGraph.size] using beyond)] at found
  obtain ⟨_, -, rfl⟩ := List.mem_map.1 (List.mem_of_getElem? found)
  exact ⟨rfl, rfl⟩

theorem Linked.outer (linked : graph.Linked added) (known : graph.values.EdgesKnown) :
    Outer graph.values.size graph.convertToSsa.values where
  beyond edge listed beyond := by
    rw [linked.edges_eq, List.mem_append] at listed
    rcases listed with old | new
    · exact absurd (known edge old).1 (Nat.not_lt_of_le beyond)
    · exact linked.le_target edge new
  target_lt edge listed := (edgesKnown_convertToSsa known edge listed).2
  unknown id beyond state found := by
    rcases Option.map_eq_some_iff.1 found with ⟨node, foundNode, rfl⟩
    exact (of_node?_convertToSsa beyond foundNode).2

/-- Edges that are added lead beyond, so they do not matter below. -/
theorem Linked.incoming_eq (linked : graph.Linked added) {id : NodeId}
    (below : id < graph.values.size) :
    graph.convertToSsa.values.incoming id = graph.values.incoming id := by
  have none : added.filter (·.target = id) = [] := by
    refine List.filter_eq_nil_iff.2 fun edge listed => ?_
    rw [decide_eq_true_eq]
    rintro rfl
    exact Nat.not_lt_of_le (linked.le_target edge listed) below
  rw [ValueGraph.incoming_eq, ValueGraph.incoming_eq, linked.edges_eq, List.filter_append, none,
    List.append_nil]

/-- What a value leads to is what it led to before, and phis if it is a source of one. -/
theorem Linked.mem_leadsBelow (linked : graph.Linked added) {id : NodeId} {target : Option NodeId} :
    target ∈ leadsBelow graph.values.size graph.convertToSsa.values id ↔
      target ∈ leadsBelow graph.values.size graph.values id ∨
        target = none ∧ ∃ edge ∈ added, edge.source = id := by
  have beyond : ∀ edge ∈ added, below graph.values.size edge.target = none := by
    intro edge listed
    rw [below, if_neg (Nat.not_lt_of_le (linked.le_target edge listed))]
  rw [leadsBelow, leadsBelow, ValueGraph.outgoing_eq, ValueGraph.outgoing_eq, linked.edges_eq,
    List.filter_append, List.map_append, List.mem_append]
  refine or_congr Iff.rfl ?_
  simp only [List.mem_map, List.mem_filter, decide_eq_true_eq]
  constructor
  · rintro ⟨edge, ⟨listed, source⟩, rfl⟩
    exact ⟨beyond edge listed, edge, listed, source⟩
  · rintro ⟨rfl, edge, listed, source⟩
    exact ⟨edge, ⟨listed, source⟩, beyond edge listed⟩

/-- Converted graphs that define different variables differ beyond the nodes there were. -/
theorem Redefines.beside (redefines : Redefines vars one two) (plain : one.Plain)
    (known : one.values.EdgesKnown) (linked : one.Linked added) (linkedTwin : two.Linked addedTwin)
    {places : Equiv.Perm Nat}
    (perm : addedTwin.Perm (added.map (Numbering.beyond one.values.size vars places).edge)) :
    Beside one.values.size one.convertToSsa.values two.convertToSsa.values := by
  have values := redefines.values_eq
  have outer_two := linkedTwin.outer (values.symm ▸ known)
  have incoming {id : NodeId} := @Linked.incoming_eq two addedTwin linkedTwin id
  have leads {id : NodeId} {target : Option NodeId} :=
    @Linked.mem_leadsBelow two addedTwin linkedTwin id target
  rw [values] at outer_two leads
  refine ⟨redefines.nodes_convertToSsa plain, fun id below => ?_, fun id below target => ?_,
    linked.outer known, outer_two⟩
  · rw [linked.incoming_eq below, incoming (values.symm ▸ below), values]
  · rw [leads, linked.mem_leadsBelow]
    refine or_congr Iff.rfl (and_congr Iff.rfl ?_)
    have kept := Numbering.nodes_of_lt one.values.size vars places below
    constructor
    · rintro ⟨edge, listed, rfl⟩
      rcases List.mem_map.1 (perm.mem_iff.1 listed) with ⟨old, oldListed, rfl⟩
      exact ⟨old, oldListed, (Numbering.beyond _ vars places).nodes.injective kept.symm⟩
    · rintro ⟨edge, listed, rfl⟩
      exact ⟨_, perm.mem_iff.2 (List.mem_map_of_mem listed), kept⟩

end DataFlowGraph

/-! ## Whole analyses -/

namespace Propagation

variable {base : NodeId} {graph : ValueGraph} {records : Records}

/-- Propagation leaves phis and records where they are. -/
theorem PhisBeyond.propagate (phis : PhisBeyond base graph records) (unknownIsBottom : Bool) :
    PhisBeyond base (propagate unknownIsBottom graph records).1
      (propagate unknownIsBottom graph records).2.1 where
  kind_eq id beyond kind found := by
    rcases Option.map_eq_some_iff.1 found with ⟨node, foundNode, rfl⟩
    rcases ValueGraph.exists_node?_of_stateless_eq
      (stateless_propagate unknownIsBottom graph records) foundNode with ⟨state, foundOld⟩
    exact phis.kind_eq id beyond node.kind (congrArg (Option.map ValueNode.kind) foundOld)
  record_lt id record found := by
    rw [records_propagate, Table.find?_map] at found
    rcases Option.map_eq_some_iff.1 found with ⟨old, foundOld, rfl⟩
    rw [node_raise]
    exact phis.record_lt id old foundOld

end Propagation

namespace Analysis

open DataFlowGraph Propagation

/-- An analysis is the same as another, but for the numbers of variables, of phis and of their
nodes. -/
structure Renumbers (names : Equiv.Perm StrId) (one two : Analysis) : Prop where
  records_eq : two.records = one.records
  stats_eq : two.stats = one.stats
  nodes_eq : two.graph.values.nodes = one.graph.values.nodes
  scopes_eq : two.graph.scopes = one.graph.scopes.rename names
  exists_numbering : ∃ numbering : Numbering, numbering.vars = StrId.varIds names ∧
    (∀ id kind, one.graph.values.kind? id = some kind → kind ≠ .phi → numbering.nodes id = id) ∧
    one.graph.flow.Renumbers numbering two.graph.flow ∧
    two.graph.values.edges.toList.Perm (one.graph.values.edges.toList.map numbering.edge)

theorem phisBeyond_settle (config : Config) (tree : Tree) :
    let walk := (Walk.ofTree config tree depthLimit).settle
    PhisBeyond walk.graph.values.size walk.graph.convertToSsa.values walk.records := by
  have sound := (Walk.ofTree_accounts config tree depthLimit).sound
  generalize Walk.ofTree config tree depthLimit = walk at sound
  constructor
  · intro id beyond kind found
    rcases Option.map_eq_some_iff.1 found with ⟨node, foundNode, rfl⟩
    exact (of_node?_convertToSsa beyond foundNode).1
  · intro id record found
    obtain ⟨same, allocates⟩ := sound.of_find?_settle found
    exact ⟨Walker.kind?_lt ((sound.kind?_settle id).trans allocates), same⟩

theorem stats_ofWalk (config : Config) (walk : Walk) :
    (ofWalk config walk).stats =
      ⟨(ofWalk config walk).records.size, walk.functions, walk.skipped,
        walk.graph.convertToSsa.flow.phis.size,
        (propagate config.unknownIsBottom walk.graph.convertToSsa.values walk.records).2.2.iterations,
        (propagate config.unknownIsBottom walk.graph.convertToSsa.values
          walk.records).2.2.increases⟩ :=
  rfl

theorem scopes_ofWalk (config : Config) (walk : Walk) :
    (ofWalk config walk).graph.scopes = walk.graph.scopes := by
  rw [ofWalk, ← scopes_convertToSsa_eq walk.graph]

/-- Graphs that define different variables are completed to analyses that are the same, but for the
numbers of variables, of phis and of their nodes. -/
theorem renumbers_ofWalk (config : Config) {names : Equiv.Perm StrId} {walk : Walk}
    (plain : walk.graph.Plain) (known : walk.graph.values.EdgesKnown)
    (redefines : walk.graph.Redefines (StrId.varIds names) (walk.relabel names).graph)
    (phis : PhisBeyond walk.graph.values.size walk.graph.convertToSsa.values walk.records) :
    Renumbers names (ofWalk config walk) (ofWalk config (walk.relabel names)) := by
  rcases plain.exists_linked known with ⟨added, linked⟩
  rcases (redefines.plain plain).exists_linked known with ⟨addedTwin, linkedTwin⟩
  rcases redefines.exists_renumbers_convertToSsa plain with ⟨places, renumbers⟩
  have perm := Redefines.perm_added linked linkedTwin renumbers
  rcases @Beside.propagate _ _ _ config.unknownIsBottom _
    (redefines.beside plain known linked linkedTwin perm) phis with ⟨beside, run⟩
  have judged := beside.judgeRecords_eq (phis.propagate config.unknownIsBottom)
    config.enableScalarReplacement
  have phisEq : (walk.relabel names).graph.convertToSsa.flow.phis.size =
      walk.graph.convertToSsa.flow.phis.size := by
    rw [plain.size_phis_convertToSsa, (redefines.plain plain).size_phis_convertToSsa,
      redefines.length_newPhis plain]
  have records : (ofWalk config (walk.relabel names)).records = (ofWalk config walk).records := by
    refine Eq.trans ?_ judged
    exact congrArg (judgeRecords _ _) (congrArg Prod.fst run)
  constructor
  · exact records
  · have figures : (propagate config.unknownIsBottom
        (walk.relabel names).graph.convertToSsa.values (walk.relabel names).records).2.2 =
        (propagate config.unknownIsBottom walk.graph.convertToSsa.values walk.records).2.2 :=
      congrArg Prod.snd run
    rw [stats_ofWalk, stats_ofWalk, records, phisEq, figures]
    rfl
  · exact beside.nodes_eq
  · rw [scopes_ofWalk, scopes_ofWalk]
    rfl
  · refine ⟨.beyond walk.graph.values.size (StrId.varIds names) places, rfl, ?_, ?_, ?_⟩
    · intro id kind found other
      refine Numbering.nodes_of_lt _ _ _ (Nat.lt_of_not_le fun beyond => other ?_)
      exact (phis.propagate config.unknownIsBottom).kind_eq id beyond kind found
    · rw [flow_ofWalk, flow_ofWalk]
      exact renumbers
    · have edges {walk : Walk} : (ofWalk config walk).graph.values.edges =
          walk.graph.convertToSsa.values.edges := edges_ofWalk
      rw [edges, edges]
      exact redefines.perm_edges known linked linkedTwin perm

/-- Which ids stand for the names of a tree does not matter for its analysis. -/
theorem renumbers_of_renames (config : Config) {names : Equiv.Perm StrId} {one two : Tree}
    (renames : Tree.Renames names one two) :
    Renumbers names (ofTree config one) (ofTree config two) := by
  have sound := (Walk.ofTree_accounts config one depthLimit).sound
  have orderly := Walk.ofTree_orderly config one depthLimit
  rw [ofTree, ofTree, Walk.ofTree_relabel renames.relabels renames.root_eq trivial,
    Walk.settle_relabel]
  exact renumbers_ofWalk config (Walk.plain_settle config one depthLimit)
    (sound.edgesKnown_settle orderly) (Walk.redefines_settle config one depthLimit names)
    (phisBeyond_settle config one)

theorem Renumbers.placement_eq {names : Equiv.Perm StrId} {one two : Analysis}
    (renumbers : Renumbers names one two) (config : Config) :
    Placement.ofAnalysis? config two = Placement.ofAnalysis? config one := by
  have nodes : two.graph.values.size = one.graph.values.size := by
    rw [ValueGraph.size, renumbers.nodes_eq, ValueGraph.size]
  have edges : two.graph.values.edges.size = one.graph.values.edges.size := by
    rcases renumbers.exists_numbering with ⟨numbering, -, -, -, perm⟩
    rw [← Array.length_toList, perm.length_eq, List.length_map, Array.length_toList]
  rw [Placement.ofAnalysis?, Placement.ofAnalysis?, renumbers.records_eq]
  refine congrArg (Option.map · _) (funext fun stack => ?_)
  rw [Placement.onStack, Placement.onStack, renumbers.records_eq, Statistics.of, Statistics.of,
    renumbers.records_eq, renumbers.stats_eq, nodes, edges]

/-- Which ids stand for the names of a tree does not matter for its analysis, nor for where its
objects are placed and what is reported about them. -/
theorem ignoresNames_ofTree (config : Config) {names : Equiv.Perm StrId} {one two : Tree}
    (renames : Tree.Renames names one two) :
    Renumbers names (ofTree config one) (ofTree config two) ∧
      Placement.ofTree? config two = Placement.ofTree? config one ∧
      ∀ micros, (Placement.ofTree? config two).map (·.report micros) =
        (Placement.ofTree? config one).map (·.report micros) := by
  have renumbers := renumbers_of_renames config renames
  have placed : Placement.ofTree? config two = Placement.ofTree? config one :=
    renumbers.placement_eq config
  exact ⟨renumbers, placed, fun micros => by rw [placed]⟩

/-- Exchanging the first two texts of a pool exchanges their ids. -/
theorem resolve?_ofList_swap (left right : String) (others : List String) (id : StrId) :
    (StringPool.ofList (right :: left :: others)).resolve? (Equiv.swap ⟨0⟩ ⟨1⟩ id) =
      (StringPool.ofList (left :: right :: others)).resolve? id := by
  have numbered (place : UInt32) : place.toNat = id.toNat → id = ⟨place⟩ := by
    intro same
    exact congrArg StrId.mk (UInt32.toNat_inj.1 same.symm)
  rw [StringPool.resolve?_eq, StringPool.resolve?_eq, StringPool.toList_ofList,
    StringPool.toList_ofList]
  rcases same : id.toNat with _ | _ | place
  · rw [numbered 0 same.symm]
    rfl
  · rw [numbered 1 same.symm]
    rfl
  · rw [Equiv.swap_apply_of_ne_of_ne (by rintro rfl; cases same) (by rintro rfl; cases same)]
    simp [same]

/-- Two variables get an object each in a branch. -/
def branchingTree (first second : StrId) (strings : StringPool) : Tree where
  root := ⟨0⟩
  strings
  nodes := #[⟨.root [⟨1⟩], none⟩, ⟨.ifStmt ⟨2⟩ ⟨3⟩ none, none⟩, ⟨.literal .null, none⟩,
    ⟨.block [⟨4⟩, ⟨7⟩], none⟩,
    ⟨.assignment ⟨5⟩ ⟨6⟩, none⟩, ⟨.var first, none⟩, ⟨.objectInstantiation ⟨2⟩ [], none⟩,
    ⟨.assignment ⟨8⟩ ⟨9⟩, none⟩, ⟨.var second, none⟩, ⟨.arrayInit [], none⟩]

theorem renames_branchingTree :
    Tree.Renames (.swap ⟨0⟩ ⟨1⟩)
      (branchingTree ⟨0⟩ ⟨1⟩ (.ofList ["left", "right", "Point"]))
      (branchingTree ⟨1⟩ ⟨0⟩ (.ofList ["right", "left", "Point"])) where
  root_eq := rfl
  nodes_eq := by
    simp [branchingTree, TreeNode.rename, NodeData.rename, Literal.rename,
      Equiv.swap_apply_of_ne_of_ne]
  resolve_eq := resolve?_ofList_swap "left" "right" ["Point"]

/-- Two variables that meet themselves again after a branch exchange their ids. -/
theorem ignoresNames_ofTree_swapped :
    (ofTree {} (branchingTree ⟨0⟩ ⟨1⟩ (.ofList ["left", "right", "Point"]))).stats.phis = 2 ∧
      Placement.ofTree? {} (branchingTree ⟨1⟩ ⟨0⟩ (.ofList ["right", "left", "Point"])) =
        Placement.ofTree? {} (branchingTree ⟨0⟩ ⟨1⟩ (.ofList ["left", "right", "Point"])) :=
  ⟨by cbv, (ignoresNames_ofTree {} renames_branchingTree).2.1⟩

end Analysis

end EscapePlan
