import EscapePlan.Proofs.Flow.Versions
import EscapePlan.Proofs.Relabeling.Placing

/-!
# Linking phis of other variables

Graphs that define different variables are converted to graphs that are the same, but for the
numbers of variables, of phis and of their nodes: they have the same nodes, the edges there were, and
the edges from sources to phis, under other numbers and in another order.
-/

namespace EscapePlan

/-- An edge between nodes under other numbers. -/
def Numbering.edge (numbering : Numbering) (edge : Edge) : Edge :=
  { edge with
    source := numbering.nodes edge.source
    target := numbering.nodes edge.target }

theorem Numbering.edge_injective (numbering : Numbering) : Function.Injective numbering.edge := by
  rintro ⟨source, target, kind⟩ ⟨other, another, _⟩ same
  obtain ⟨sources, targets, rfl⟩ := Edge.mk.inj same
  obtain rfl := numbering.nodes.injective sources
  obtain rfl := numbering.nodes.injective targets
  rfl

theorem Numbering.edge_surjective (numbering : Numbering) : Function.Surjective numbering.edge := by
  rintro ⟨source, target, kind⟩
  refine ⟨⟨numbering.nodes.symm source, numbering.nodes.symm target, kind⟩, ?_⟩
  rw [edge, numbering.nodes.apply_symm_apply, numbering.nodes.apply_symm_apply]

/-- Phis have the same sources under other numbers. -/
theorem Renaming.isSource_edge_iff {numbering : Numbering} {one two : ControlFlow}
    (renumbers : one.Renumbers numbering two) {edge : Edge} :
    IsSource two ((numbering.edge edge).source, (numbering.edge edge).target) ↔
      IsSource one (edge.source, edge.target) := by
  constructor
  · rintro ⟨place, phi, found, node, source, member, named⟩
    rw [← numbering.places.apply_symm_apply place, renumbers.phis] at found
    rcases Option.map_eq_some_iff.1 found with ⟨old, foundOld, rfl⟩
    rcases List.mem_map.1 member with ⟨first, firstMember, rfl⟩
    rcases Option.map_eq_some_iff.1 named with ⟨id, firstNamed, same⟩
    refine ⟨_, old, foundOld, numbering.nodes.injective node, first, firstMember, ?_⟩
    rw [firstNamed, numbering.nodes.injective same]
  · rintro ⟨place, phi, found, node, source, member, named⟩
    refine ⟨numbering.places place, numbering.phi phi, ?_, congrArg numbering.nodes node,
      numbering.source source, List.mem_map_of_mem member,
      congrArg (Option.map numbering.nodes) named⟩
    rw [renumbers.phis, found]
    rfl

namespace DataFlowGraph

open ControlFlow

open Renaming (IsSource)

/-- The edges that a conversion adds: one from every source to its phi. -/
structure Linked (graph : DataFlowGraph) (added : List Edge) : Prop where
  edges_eq : graph.convertToSsa.values.edges.toList = graph.values.edges.toList ++ added
  nodup : added.Nodup
  mem_iff : ∀ edge, edge ∈ added ↔
    IsSource graph.convertToSsa.flow (edge.source, edge.target) ∧ edge.kind = .defUse
  source_lt : ∀ edge ∈ added, edge.source < graph.convertToSsa.values.size
  le_target : ∀ edge ∈ added, graph.values.size ≤ edge.target
  target_lt : ∀ edge ∈ added, edge.target < graph.convertToSsa.values.size

theorem mem_linkEdges {links : List (NodeId × NodeId)} {edge : Edge} :
    edge ∈ linkEdges links ↔ (edge.source, edge.target) ∈ links ∧ edge.kind = .defUse := by
  rw [linkEdges, List.mem_map]
  constructor
  · rintro ⟨link, listed, rfl⟩
    exact ⟨listed, rfl⟩
  · rcases edge with ⟨source, target, kind⟩
    rintro ⟨listed, rfl⟩
    exact ⟨_, listed, rfl⟩

variable {vars : Equiv.Perm VarId} {graph one two : DataFlowGraph} {added addedTwin : List Edge}

theorem size_le_convertToSsa (graph : DataFlowGraph) :
    graph.values.size ≤ graph.convertToSsa.values.size := by
  rw [size_convertToSsa]
  exact graph.le_size_withPhis

theorem Plain.exists_linked (plain : graph.Plain) (known : graph.values.EdgesKnown) :
    ∃ added, graph.Linked added := by
  rcases graph.exists_adds_convertToSsa with ⟨added, adds⟩
  have phiNode : ∀ phi ∈ graph.withPhis.flow.phis,
      graph.values.size ≤ phi.node ∧ phi.node < graph.convertToSsa.values.size := by
    intro phi member
    rcases of_mem_phis_withPhis member with old | ⟨new, kind⟩
    · rw [plain.phis_eq] at old
      exact absurd old (Array.not_mem_empty _)
    · rcases Option.map_eq_some_iff.1 kind with ⟨node, found, -⟩
      rw [size_convertToSsa]
      exact ⟨new, (Array.getElem?_eq_some_iff.1 found).1⟩
  have ends : ∀ link ∈ graph.withPhis.flow.rename.2, link.1 < graph.convertToSsa.values.size ∧
      graph.values.size ≤ link.2 ∧ link.2 < graph.convertToSsa.values.size := by
    intro link listed
    refine @mem_links_rename _ (· < graph.convertToSsa.values.size)
      (fun target => graph.values.size ≤ target ∧ target < graph.convertToSsa.values.size) ?_ ?_ _
      listed
    · intro number block found definition member
      exact Nat.lt_of_lt_of_le ((plain.of_block? found).2.2 definition member)
        graph.size_le_convertToSsa
    · exact fun phi member => ⟨(phiNode phi member).2, phiNode phi member⟩
  have mem_iff : ∀ edge, edge ∈ added ↔ edge ∈ linkEdges graph.withPhis.flow.rename.2 := by
    intro edge
    rw [adds.mem_iff, ← size_convertToSsa, edges_withPhis]
    refine and_iff_left_of_imp fun listed => ?_
    obtain ⟨source, new, target⟩ := ends _ (mem_linkEdges.1 listed).1
    refine ⟨source, target, fun old => ?_⟩
    exact Nat.not_lt_of_le new (known edge (Array.mem_toList_iff.2 old)).2
  refine ⟨added, ⟨?_, adds.nodup, fun edge => ?_, fun edge listed => ?_, fun edge listed => ?_,
    fun edge listed => ?_⟩⟩
  · rw [adds.edges_eq, edges_withPhis]
  · rw [mem_iff, mem_linkEdges, mem_links_rename_iff, ← flow_convertToSsa]
  all_goals
    obtain ⟨source, new, target⟩ := ends _ (mem_linkEdges.1 ((mem_iff edge).1 listed)).1
    assumption

theorem Redefines.length_newPhis (redefines : Redefines vars one two) (plain : one.Plain) :
    two.flow.analyzed.newPhis.length = one.flow.analyzed.newPhis.length := by
  rw [← (redefines.newPhis_perm plain).length_eq, List.length_map]

theorem Plain.size_phis_convertToSsa (plain : graph.Plain) :
    graph.convertToSsa.flow.phis.size = graph.flow.analyzed.newPhis.length := by
  have same := congrArg List.length graph.nodes_convertToSsa
  rw [List.length_map, List.length_map, plain.phis_withPhis, List.length_mapIdx] at same
  exact same

/-- A graph is converted to the same nodes whatever variables it defines. -/
theorem Redefines.nodes_convertToSsa (redefines : Redefines vars one two) (plain : one.Plain) :
    two.convertToSsa.values.nodes = one.convertToSsa.values.nodes := by
  rw [values_convertToSsa, values_convertToSsa, nodes_foldl_linkPhi, nodes_foldl_linkPhi,
    ← Array.toList_inj, two.places_withPhis.nodes_eq, one.places_withPhis.nodes_eq,
    redefines.length_newPhis plain, redefines.values_eq]

/-- Graphs that define different variables are converted to the same single assignment form, but for
the numbers of variables and phis. -/
theorem Redefines.exists_renumbers_convertToSsa (redefines : Redefines vars one two)
    (plain : one.Plain) :
    ∃ places, one.convertToSsa.flow.Renumbers
      (.beyond one.values.size vars places) two.convertToSsa.flow := by
  rcases redefines.exists_renumbers plain with ⟨places, renumbers⟩
  have plainTwo := redefines.plain plain
  have nodup : two.flow.analyzed.newPhis.Nodup := by
    refine (nodup_newPhis (HoldsPhis.analyzed (holdsPhis_nil plainTwo.phis_eq
      plainTwo.phiPlaces_eq)) .nil (frontier_lt two.flow)).1
  have parallel : Renaming.Parallel (.beyond one.values.size vars places)
      two.flow.analyzed.newPhis ⟨one.withPhis.flow.clearVersions, []⟩
      ⟨two.withPhis.flow.clearVersions, []⟩ :=
    ⟨renumbers, (retains_clearVersions _).holdsPhis plainTwo.holdsPhis_withPhis⟩
  refine ⟨places, ?_⟩
  rw [flow_convertToSsa, flow_convertToSsa, flow_rename, flow_rename]
  exact (Renaming.parallel_renameRegions nodup parallel).renumbers

/-- Edges that were there keep their numbers, and those that are added get other ones. -/
theorem Redefines.perm_added (linked : one.Linked added) (linkedTwin : two.Linked addedTwin)
    {numbering : Numbering} (renumbers : one.convertToSsa.flow.Renumbers numbering
      two.convertToSsa.flow) : addedTwin.Perm (added.map numbering.edge) := by
  refine (List.perm_ext_iff_of_nodup linkedTwin.nodup
    (linked.nodup.map numbering.edge_injective)).2 fun edge => ?_
  rcases numbering.edge_surjective edge with ⟨edge, rfl⟩
  rw [linkedTwin.mem_iff, List.mem_map_of_injective numbering.edge_injective, linked.mem_iff,
    Renaming.isSource_edge_iff renumbers]
  rfl

/-- Edges that were there keep their numbers, and those that are added get other ones. -/
theorem Redefines.perm_edges (redefines : Redefines vars one two) (known : one.values.EdgesKnown)
    (linked : one.Linked added) (linkedTwin : two.Linked addedTwin) {places : Equiv.Perm Nat}
    (perm : addedTwin.Perm (added.map (Numbering.beyond one.values.size vars places).edge)) :
    two.convertToSsa.values.edges.toList.Perm (one.convertToSsa.values.edges.toList.map
      (Numbering.beyond one.values.size vars places).edge) := by
  have kept : one.values.edges.toList.map (Numbering.beyond one.values.size vars places).edge =
      one.values.edges.toList := by
    refine (List.map_congr_left fun edge listed => ?_).trans (List.map_id _)
    rw [Numbering.edge, Numbering.nodes_of_lt _ _ _ (known edge listed).1,
      Numbering.nodes_of_lt _ _ _ (known edge listed).2]
    rfl
  rw [linkedTwin.edges_eq, linked.edges_eq, List.map_append, kept, redefines.values_eq]
  exact perm.append_left _

end DataFlowGraph

end EscapePlan
