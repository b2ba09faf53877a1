import EscapePlan.Proofs.Flow.Shape
import Mathlib.Logic.Function.Basic

/-!
# Regions

A region belongs to an entry.  Each block is added to one region, every edge stays inside a
region, and none leads to an entry.  So a block is reachable from the entry of its own region
only.
-/

namespace EscapePlan.ControlFlow

open EscapePlan.Path

/-- Each block belongs to the region of an entry; edges stay inside a region and do not lead to
its entry. -/
structure Regions (flow : ControlFlow) (region : BlockId → BlockId) : Prop where
  coherent : flow.Coherent
  region_mem : ∀ block < flow.size, region block ∈ flow.entries
  region_entry : ∀ entry ∈ flow.entries, region entry = entry
  region_edge : ∀ source target, flow.Edge source target → region source = region target
  predecessors_entry : ∀ entry ∈ flow.entries, flow.predecessors entry = []

/-- Blocks that were there before stay in their regions, and none of them becomes an entry. -/
structure Extends (before : ControlFlow) (region : BlockId → BlockId) (after : ControlFlow)
    (later : BlockId → BlockId) : Prop where
  size_le : before.size ≤ after.size
  region_eq : ∀ block < before.size, later block = region block
  mem_entries : ∀ block < before.size, block ∈ after.entries → block ∈ before.entries

theorem Extends.refl (flow : ControlFlow) (region : BlockId → BlockId) :
    Extends flow region flow region :=
  ⟨Nat.le_refl _, fun _ _ => rfl, fun _ _ member => member⟩

theorem Extends.trans {first second third : ControlFlow} {region later last : BlockId → BlockId}
    (one : Extends first region second later) (two : Extends second later third last) :
    Extends first region third last where
  size_le := Nat.le_trans one.size_le two.size_le
  region_eq block known :=
    (two.region_eq block (Nat.lt_of_lt_of_le known one.size_le)).trans (one.region_eq block known)
  mem_entries block known member :=
    one.mem_entries block known
      (two.mem_entries block (Nat.lt_of_lt_of_le known one.size_le) member)

namespace Regions

variable {flow : ControlFlow} {region : BlockId → BlockId}

/-- Whatever an entry leads to is in its region. -/
theorem region_eq_of_leads (regions : flow.Regions region) {entry block : BlockId}
    (known : entry ∈ flow.entries) (leads : Leads flow.Edge entry block) :
    region block = entry := by
  rw [leads_iff_reflTransGen] at leads
  induction leads with
  | refl => exact regions.region_entry entry known
  | tail _ taken inductionHypothesis =>
      exact (regions.region_edge _ _ taken).symm.trans inductionHypothesis

theorem separate (regions : flow.Regions region) : flow.Separate where
  entry_unique _ firstKnown _ secondKnown _ toFirst toSecond :=
    (regions.region_eq_of_leads firstKnown toFirst).symm.trans
      (regions.region_eq_of_leads secondKnown toSecond)
  predecessors_entry := regions.predecessors_entry

/-- Regions depend on nothing but the edges. -/
theorem of_agree (regions : flow.Regions region) {other : ControlFlow}
    (agree : Agree edgeLists flow other) : other.Regions region := by
  have successors : ∀ block, other.successors block = flow.successors block :=
    agree.getD_eq (·.1)
  have predecessors : ∀ block, other.predecessors block = flow.predecessors block :=
    agree.getD_eq (·.2)
  constructor
  · exact regions.coherent.of_agree agree
  · rw [agree.size_eq, agree.entries]
    exact regions.region_mem
  · rw [agree.entries]
    exact regions.region_entry
  · intro source target taken
    rw [Edge, successors] at taken
    exact regions.region_edge source target taken
  · intro entry member
    rw [agree.entries] at member
    rw [predecessors]
    exact regions.predecessors_entry entry member

/-- Putting a new block into a region leaves every other block where it is. -/
theorem update_eq (region : BlockId → BlockId) (home : BlockId) {block : BlockId}
    (known : block < flow.size) : Function.update region flow.size home block = region block :=
  Function.update_of_ne (Nat.ne_of_lt known) home region

theorem update_edge (regions : flow.Regions region) (home : BlockId) {source target : BlockId}
    (taken : flow.newBlock.2.Edge source target) :
    Function.update region flow.size home source =
      Function.update region flow.size home target := by
  have old := (edge_newBlock source target).1 taken
  rw [update_eq region home (source_lt_of_edge old),
    update_eq region home (regions.coherent.target_lt source target old)]
  exact regions.region_edge source target old

/-- A new block may be put into any region. -/
theorem newBlock (regions : flow.Regions region) {home : BlockId} (known : home ∈ flow.entries) :
    flow.newBlock.2.Regions (Function.update region flow.size home) ∧
      Extends flow region flow.newBlock.2 (Function.update region flow.size home) := by
  have size := size_newBlock flow
  refine ⟨⟨regions.coherent.newBlock, ?_, ?_, ?_, ?_⟩, ⟨?_, ?_, fun _ _ member => member⟩⟩
  · intro block inside
    rcases Nat.lt_succ_iff_lt_or_eq.1 (size ▸ inside) with old | rfl
    · rw [update_eq region home old]
      exact regions.region_mem block old
    · rw [Function.update_self]
      exact known
  · intro entry member
    rw [update_eq region home (regions.coherent.entry_lt entry member)]
    exact regions.region_entry entry member
  · exact fun source target taken => regions.update_edge home taken
  · intro entry member
    rw [predecessors, getD_newBlock flow (·.predecessors) rfl]
    exact regions.predecessors_entry entry member
  · rw [size]
    exact Nat.le_succ flow.size
  · exact fun block inside => update_eq region home inside

/-- A new entry begins a region of its own. -/
theorem newRegion (regions : flow.Regions region) :
    flow.newRegion.2.Regions (Function.update region flow.size flow.size) ∧
      Extends flow region flow.newRegion.2 (Function.update region flow.size flow.size) := by
  have size : flow.newRegion.2.size = flow.size + 1 := size_newBlock flow
  have cases_ : ∀ entry ∈ flow.newRegion.2.entries, entry ∈ flow.entries ∨ entry = flow.size :=
    fun entry member => (List.mem_append.1 member).imp_right List.mem_singleton.1
  refine ⟨⟨regions.coherent.newRegion, ?_, ?_, ?_, ?_⟩, ⟨?_, ?_, ?_⟩⟩
  · intro block inside
    rcases Nat.lt_succ_iff_lt_or_eq.1 (size ▸ inside) with old | rfl
    · rw [update_eq region flow.size old]
      exact List.mem_append_left _ (regions.region_mem block old)
    · rw [Function.update_self]
      exact List.mem_append_right _ List.mem_cons_self
  · intro entry member
    rcases cases_ entry member with old | rfl
    · rw [update_eq region flow.size (regions.coherent.entry_lt entry old)]
      exact regions.region_entry entry old
    · exact Function.update_self ..
  · exact fun source target taken => regions.update_edge flow.size taken
  · intro entry member
    have same : flow.newRegion.2.predecessors entry = flow.predecessors entry :=
      getD_newBlock flow (·.predecessors) rfl entry
    rw [same]
    rcases cases_ entry member with old | rfl
    · exact regions.predecessors_entry entry old
    · rw [predecessors, block?_eq_none_iff.2 (Nat.le_refl _)]
      rfl
  · rw [size]
    exact Nat.le_succ flow.size
  · exact fun block inside => update_eq region flow.size inside
  · intro block inside member
    exact (cases_ block member).resolve_right (Nat.ne_of_lt inside)

/-- An edge may be added inside a region, unless it leads to the entry. -/
theorem addEdge (regions : flow.Regions region) {source target : BlockId}
    (same : region source = region target) (inner : target ∉ flow.entries) :
    (flow.addEdge source target).Regions region ∧
      Extends flow region (flow.addEdge source target) region := by
  have entries := entries_addEdge flow source target
  refine ⟨⟨regions.coherent.addEdge source target, ?_, ?_, ?_, ?_⟩, ⟨?_, fun _ _ => rfl, ?_⟩⟩
  · rw [size_addEdge, entries]
    exact regions.region_mem
  · rw [entries]
    exact regions.region_entry
  · intro first last taken
    rcases edge_of_addEdge taken with old | ⟨rfl, rfl⟩
    · exact regions.region_edge first last old
    · exact same
  · intro entry member
    rw [entries] at member
    have other : target ≠ entry := fun equal => inner (equal.symm ▸ member)
    rw [predecessors_addEdge_of_ne other]
    exact regions.predecessors_entry entry member
  · exact Nat.le_of_eq (size_addEdge flow source target).symm
  · rw [entries]
    exact fun _ _ member => member

end Regions

/-- The only block of a first region. -/
theorem regions_first : empty.newRegion.2.Regions id := by
  have empty : ControlFlow.empty.Regions id :=
    ⟨coherent_empty, fun _ inside => absurd inside (Nat.not_lt_zero _), fun _ _ => rfl,
      fun source target taken => absurd (coherent_empty.target_lt source target taken)
        (Nat.not_lt_zero _), fun _ member => absurd member List.not_mem_nil⟩
  have same : Function.update id ControlFlow.empty.size ControlFlow.empty.size = id :=
    Function.update_eq_self ControlFlow.empty.size id
  exact same ▸ empty.newRegion.1

end EscapePlan.ControlFlow
