import Mathlib
import EscapePlan.Proofs.Isolation.Enclosure
import EscapePlan.Proofs.Isolation.States

/-!
# Walks without control flow

A walk and the same walk without control flow mirror each other as a whole.  So their records end
the same, and those of the latter are found without any conversion to single assignment form.
-/

namespace EscapePlan

theorem Surrounds.refl {α : Type} (beside : α → Prop) (items : List α) :
    Surrounds beside [] items items :=
  ⟨fun _ member => absurd member List.not_mem_nil, [], (List.append_nil items).symm,
    fun _ member => absurd member List.not_mem_nil⟩

theorem EscapeRecord.eq_of_unnumbered_eq {record another : EscapeRecord}
    (same : record.unnumbered = another.unnumbered) (node_eq : record.node = another.node) :
    record = another :=
  calc record = { record.unnumbered with node := record.node } := rfl
    _ = { another.unnumbered with node := another.node } := by rw [same, node_eq]
    _ = another := rfl

namespace DataFlowGraph

/-- Where there is no control flow, conversion to single assignment form leaves the values. -/
theorem values_convertToSsa_of_empty {graph : DataFlowGraph} (empty : graph.flow = .empty) :
    graph.convertToSsa.values = graph.values := by
  have phis : ControlFlow.empty.analyzed.newPhis = [] := by cbv
  have links : ControlFlow.empty.analyzed.rename.2 = [] := by cbv
  rw [values_convertToSsa, withPhis, empty, phis, List.foldl_nil, links]
  rfl

end DataFlowGraph

namespace Walk

variable {config : Config} {frame : Frame} {stage : Stage} {one two walk : Walk}

/-- Walks that have been in step from the first step on mirror each other as a whole. -/
theorem InStep.isolated_initial
    (inStep : InStep config (.diagonal initial fun _ => False) frame stage one two)
    (soundOne : one.Sound) (soundTwo : two.Sound) (orderlyOne : one.Orderly config)
    (orderlyTwo : two.Orderly config) :
    Isolated config (.diagonal initial fun _ => False) stage one two where
  sound_one := soundOne
  sound_two := soundTwo
  orderly_one := orderlyOne
  orderly_two := orderlyTwo
  scopes_unique first second := by
    cases first <;> cases second <;> exact Iff.rfl
  kind?_eq := inStep.kind?_eq
  records paired := by
    obtain ⟨_, twins⟩ := paired
    cases twins with
    | shared never => exact never.2.2.elim
    | @made place _ => exact inStep.records place
  edges_one edge listed := by
    obtain ⟨source, target, kind⟩ := edge
    rcases inStep.edges_one _ listed with never | ⟨⟨_, _, _⟩, ⟨sources, targets, rfl⟩⟩
    · exact absurd never (Array.not_mem_empty _)
    · exact .inr ⟨_, (inStep.edge_iff sources targets.paired kind).1 listed, sources, targets, rfl⟩
  edges_two edge listed := by
    obtain ⟨source, target, kind⟩ := edge
    rcases inStep.edges_two _ listed with never | ⟨⟨_, _, _⟩, ⟨sources, targets, rfl⟩⟩
    · exact absurd never (Array.not_mem_empty _)
    · exact .inr ⟨_, (inStep.edge_iff sources targets.paired _).2 listed, sources, targets, rfl⟩
  mentions := inStep.noted.mentions.mirror (.refl _ _) (.refl _ _)
  flows := inStep.noted.flows.mirror (.refl _ _) (.refl _ _)
  sinks := inStep.noted.sinks.mirror (.refl _ _) (.refl _ _)
  accesses := inStep.noted.accesses.mirror (.refl _ _) (.refl _ _)
  sites := inStep.noted.sites.mirror (.refl _ _) (.refl _ _)
  truncated := inStep.noted.truncated.mirror (.refl _ _) (.refl _ _)

theorem Sound.core (sound : walk.Sound) (none : walk.graph.flow.phis = #[]) : walk.core.Sound :=
  { sound with
    named := by
      rintro id (⟨number, block, found, -⟩ | ⟨phi, member, -⟩)
      · exact absurd found (by simp [Walk.core, ControlFlow.block?, ControlFlow.empty])
      · have known : phi ∈ walk.graph.flow.phis := member
        rw [none] at known
        exact absurd known (Array.not_mem_empty phi) }

/-- The records in the end are those of known nodes. -/
theorem Sound.of_find?_ofWalk (sound : walk.Sound) {id : NodeId} {record : EscapeRecord}
    (found : (Analysis.ofWalk config walk.settle).records.find? id = some record) :
    record.node = id ∧ id < walk.graph.values.size := by
  rw [Analysis.find?_ofWalk_eq] at found
  rcases Option.map_eq_some_iff.1 found with ⟨settled, foundSettled, rfl⟩
  obtain ⟨rfl, allocates⟩ := sound.of_find?_settle foundSettled
  rw [Analysis.finalRecord, Propagation.node_raise]
  exact ⟨rfl, Walker.kind?_lt allocates⟩

theorem InStep.paired_self
    (inStep : InStep config (.diagonal initial fun _ => False) frame stage one two) {id : NodeId}
    (known : id < one.graph.values.size) :
    Paired (.diagonal initial fun _ => False) stage id id := by
  have beyond (place : Nat) : initial.graph.values.size + place = place := Nat.zero_add place
  have inside : id < stage.nodes.length := by
    rw [inStep.size_one] at known
    exact Nat.lt_of_lt_of_eq known (beyond _)
  have made : Twins (.diagonal initial fun _ => False) stage stage.nodes[id]
      (initial.graph.values.size + id) (initial.graph.values.size + id) :=
    .made (List.getElem?_eq_getElem inside)
  rw [beyond] at made
  exact made.paired

/-- Which control flow a walk has taken does not matter for the records in the end. -/
theorem records_core
    (inStep : InStep config (.diagonal initial fun _ => False) frame stage walk walk)
    (sound : walk.Sound) :
    (Analysis.ofWalk config walk.core.settle).records =
      (Analysis.ofWalk config walk.settle).records := by
  have orderly := inStep.orderly
  have soundCore := sound.core orderly.no_phis
  have twins : InStep config (.diagonal initial fun _ => False) frame stage walk walk.core :=
    inStep.congr rfl rfl
  have isolated := twins.isolated_initial sound soundCore orderly { orderly with }
  -- Every node corresponds to itself, so the numbers that are left out are the same, too.
  have related (id : NodeId) (known : id < walk.graph.values.size) :=
    isolated.find?_ofWalk (inStep.paired_self known)
  refine Table.ext_find? fun id => ?_
  cases found : (Analysis.ofWalk config walk.settle).records.find? id with
  | none =>
      cases foundCore : (Analysis.ofWalk config walk.core.settle).records.find? id with
      | none => rfl
      | some record =>
          have same := related id (soundCore.of_find?_ofWalk foundCore).2
          rw [found, foundCore] at same
          cases same
  | some record =>
      obtain ⟨node, known⟩ := sound.of_find?_ofWalk found
      have same := related id known
      rw [found] at same
      cases foundCore : (Analysis.ofWalk config walk.core.settle).records.find? id with
      | none =>
          rw [foundCore] at same
          cases same
      | some another =>
          rw [foundCore] at same
          cases same with
          | some same =>
              have nodeCore := (soundCore.of_find?_ofWalk foundCore).1
              have records := EscapeRecord.eq_of_unnumbered_eq same (node.trans nodeCore.symm)
              exact congrArg some records.symm

theorem Sound.values_core (sound : walk.Sound) (none : walk.graph.flow.phis = #[]) :
    walk.core.settle.graph.convertToSsa.values = walk.core.settle.graph.values := by
  refine DataFlowGraph.values_convertToSsa_of_empty ?_
  calc walk.core.settle.graph.flow = walk.core.graph.flow := (sound.core none).settles.flow_eq
    _ = { ControlFlow.empty with phis := walk.graph.flow.phis } := rfl
    _ = .empty := by rw [none]; rfl

end Walk

end EscapePlan
