import EscapePlan.Proofs.Placement.Overflow
import Mathlib

/-!
# How a frame is filled

Sites take slots in order, first fit: a site whose objects do not escape, are not replaced by
locals and are neither of unknown size nor too large goes on the stack exactly if the sites on the
stack before it leave room.  A site that is refused takes nothing, so a smaller one after it may
still fit.

The running total of a frame is the sum of the sizes on the stack, and this keeps within the budget.
`firstFit_placeAnew` says so of every budget below the largest one, where there always is a frame.
-/

namespace EscapePlan

/-- A new key adds its value and moves the others at most apart. -/
theorem Table.values_insert_perm {α : Type} {table : Table α} {key : Nat} (value : α)
    (absent : table.find? key = none) :
    (table.insert key value).values.Perm (value :: table.values) := by
  obtain ⟨entries, ascending⟩ := table
  simp only [find?] at absent
  simp only [insert, values]
  clear ascending
  fun_induction insertEntry key value entries with
  | case1 => exact .refl _
  | case2 => exact .refl _
  | case3 => simp [findIn?] at absent
  | case4 other old rest _ different inductionHypothesis =>
      rw [findIn?, if_neg different] at absent
      simpa using ((inductionHypothesis absent).cons old).trans (.swap ..)

namespace Decision

/-- The sizes of the objects that are put on the stack. -/
def stackBytes (decisions : List Decision) : Nat :=
  ((decisions.filter (·.location = .stack)).map (·.size.toNat)).sum

theorem stackBytes_concat (decisions : List Decision) (decision : Decision) :
    stackBytes (decisions ++ [decision]) =
      stackBytes decisions + if decision.location = .stack then decision.size.toNat else 0 := by
  by_cases onStack : decision.location = .stack <;>
    simp [stackBytes, List.filter_append, onStack]

theorem stackBytes_perm {decisions others : List Decision} (perm : decisions.Perm others) :
    stackBytes decisions = stackBytes others :=
  ((perm.filter _).map _).sum_nat

end Decision

namespace StackLayout

variable {config : Config} {layout before after : StackLayout} {record : EscapeRecord}
  {records earlier later : List EscapeRecord}

/-- The decisions about records, in the order of the records. -/
def decisionsFor (layout : StackLayout) (records : List EscapeRecord) : List Decision :=
  records.filterMap fun record => layout.decision? record.node

/-! ## All turns -/

theorem maxFrameSize_foldlM (placed : records.foldlM (placeOne? config) before = some after) :
    after.maxFrameSize = before.maxFrameSize := by
  induction records generalizing before with
  | nil =>
      cases placed
      rfl
  | cons record rest inductionHypothesis =>
      rw [List.foldlM_cons] at placed
      obtain ⟨next, stepped, placed⟩ := Option.bind_eq_some_iff.1 placed
      exact (inductionHypothesis placed).trans (turns_of_placeOne? stepped).maxFrameSize_eq

/-- What was placed on a frame before does not matter. -/
theorem placeAnew?_eq_place? (same : layout.maxFrameSize = config.maxFrameSize) :
    placeAnew? config layout records = place? config records := by
  rw [placeAnew?, place?, empty, same]

/-- Below the largest budget one frame after the other can be filled. -/
theorem exists_passes (bounded : config.maxFrameSize < 4294967295)
    (passes : List (List EscapeRecord)) :
    ∃ layout, passes.foldlM (placeAnew? config) (empty config) = some layout ∧
      layout.maxFrameSize = config.maxFrameSize := by
  induction passes using List.reverseRecOn with
  | nil => exact ⟨empty config, rfl, rfl⟩
  | append_singleton passes records inductionHypothesis =>
      obtain ⟨before, passed, same⟩ := inductionHypothesis
      obtain ⟨after, placed⟩ := @exists_foldlM_placeOne? config (empty config) bounded records
      refine ⟨after, ?_, maxFrameSize_foldlM placed⟩
      rw [List.foldlM_append, passed]
      simpa using (placeAnew?_eq_place? same).trans placed

theorem decision?_place?_eq_none (placed : place? config records = some layout) {id : NodeId}
    (others : ∀ record ∈ records, id ≠ record.node) : layout.decision? id = none :=
  decision?_foldlM_of_ne others placed

/-- Later sites do not matter to earlier ones. -/
theorem decisionsFor_of_append (distinct : ((earlier ++ later).map (·.node)).Nodup)
    (placed : later.foldlM (placeOne? config) before = some after) :
    after.decisionsFor earlier = before.decisionsFor earlier := by
  refine List.filterMap_congr fun record listed => decision?_foldlM_of_ne ?_ placed
  intro other listedLater same
  rw [List.map_append, List.nodup_append] at distinct
  exact distinct.2.2 _ (List.mem_map_of_mem listed) _ (List.mem_map_of_mem listedLater) same

theorem Turns.decisionsFor_concat (turns : Turns config record before after)
    (distinct : ((earlier ++ [record]).map (·.node)).Nodup) :
    after.decisionsFor (earlier ++ [record]) =
      before.decisionsFor earlier ++ [turn config before record] := by
  have others : ∀ other ∈ earlier, other.node ≠ record.node := by
    intro other listed
    rw [List.map_append, List.nodup_append] at distinct
    exact distinct.2.2 _ (List.mem_map_of_mem listed) record.node (by simp)
  have kept : after.decisionsFor earlier = before.decisionsFor earlier :=
    List.filterMap_congr fun other listed => turns.decision?_of_ne (others other listed)
  rw [decisionsFor, List.filterMap_append, ← decisionsFor, kept]
  simp [turns.decision?_self]

/-! ## What a frame holds -/

/-- Sites take the slots of a frame in order, first fit, within its budget. -/
structure FirstFit (config : Config) (records : List EscapeRecord) (layout : StackLayout) :
    Prop where
  /-- There is a decision about every record, and no other decision. -/
  nodes_eq : (layout.decisionsFor records).map (·.node) = records.map (·.node)
  decisions_perm : layout.decisions.values.Perm (layout.decisionsFor records)
  /-- The slots are taken in order, each once. -/
  slots_eq : (layout.decisionsFor records).filterMap (·.slot) = List.range layout.slotCount
  slot_iff : ∀ decision ∈ layout.decisionsFor records,
    decision.slot.isSome = true ↔ decision.location = .stack
  stackSize_eq : layout.stackSize = Decision.stackBytes (layout.decisionsFor records)
  bytesPromoted_eq : layout.bytesPromoted = layout.stackSize
  stackSize_le : layout.stackSize ≤ config.maxFrameSize.toNat
  /-- No sum of sizes on the way exceeds thirty-two bits. -/
  sum_lt : ∀ earlier record later decision, records = earlier ++ record :: later →
    layout.decision? record.node = some decision → decision.location = .stack →
    Decision.stackBytes (layout.decisionsFor earlier) + decision.size.toNat < UInt32.size
  size_bounds : ∀ decision ∈ layout.decisionsFor records, decision.location = .stack →
    0 < decision.size ∧ decision.size ≤ config.maxObjectSize
  /-- What may go on the stack goes there exactly if there is room. -/
  stack_iff : ∀ earlier record later, records = earlier ++ record :: later →
    record.state = .noEscape → record.isScalarReplaceable = false →
    0 < sizeOf config record → sizeOf config record ≤ config.maxObjectSize →
    ∃ decision, layout.decision? record.node = some decision ∧
      decision.size = sizeOf config record ∧
      (decision.location = .stack ↔
        Decision.stackBytes (layout.decisionsFor earlier) + (sizeOf config record).toNat ≤
          config.maxFrameSize.toNat) ∧
      (decision.location ≠ .stack →
        decision.location = .heap ∧ decision.reason = .stackOverflow)
  /-- The first decisions are those about the first records alone. -/
  earlier_eq : ∀ earlier later, records = earlier ++ later →
    ∃ first, place? config earlier = some first ∧
      layout.decisionsFor earlier = first.decisionsFor earlier

/-! ## Turn by turn -/

/-- What every turn keeps. -/
structure Filled (config : Config) (records : List EscapeRecord) (layout : StackLayout) :
    Prop where
  nodes_eq : (layout.decisionsFor records).map (·.node) = records.map (·.node)
  decisions_perm : layout.decisions.values.Perm (layout.decisionsFor records)
  slots_eq : (layout.decisionsFor records).filterMap (·.slot) = List.range layout.slotCount
  slot_iff : ∀ decision ∈ layout.decisionsFor records,
    decision.slot.isSome = true ↔ decision.location = .stack
  size_bounds : ∀ decision ∈ layout.decisionsFor records, decision.location = .stack →
    0 < decision.size ∧ decision.size ≤ config.maxObjectSize
  stackSize_eq : layout.stackSize = Decision.stackBytes (layout.decisionsFor records)
  stackSize_le : layout.stackSize ≤ layout.maxFrameSize.toNat

/-- What is on the stack has a size, and not too large a one. -/
theorem size_bounds_turn (onStack : (turn config layout record).location = .stack) :
    0 < (turn config layout record).size ∧
      (turn config layout record).size ≤ config.maxObjectSize := by
  rw [location_turn_eq_stack_iff, refusal_eq_none_iff, seeksSlot_iff] at onStack
  rw [size_turn]
  exact onStack.1.2.2

/-- An object for which there is room leaves the running total within the budget. -/
theorem Turns.used_le (turns : Turns config record before after)
    (within : before.stackSize ≤ before.maxFrameSize.toNat) :
    after.stackSize ≤ after.maxFrameSize.toNat := by
  have used := turns.used_eq
  have fits := after.used.toNat_lt
  simp only [stackSize, turns.maxFrameSize_eq] at within ⊢
  split at used
  next onStack =>
    rw [location_turn_eq_stack_iff, refusal_eq_none_iff] at onStack
    omega
  next => omega

/-- Every turn fills the frame further. -/
theorem Filled.concat (filled : Filled config earlier before)
    (turns : Turns config record before after)
    (distinct : ((earlier ++ [record]).map (·.node)).Nodup)
    (absent : before.decision? record.node = none) :
    Filled config (earlier ++ [record]) after := by
  have decisions := turns.decisionsFor_concat distinct
  have decisionsEq := turns.decisions_eq
  have usedEq := turns.used_eq
  have slotCountEq := turns.slotCount_eq
  have slotEq := @slot_turn config before record
  have nodeEq := @node_turn config before record
  have sizeEq := @size_turn config before record
  have bounds := @size_bounds_turn config before record
  generalize turn config before record = decision at *
  constructor
  · simp [decisions, filled.nodes_eq, nodeEq]
  · rw [decisions, decisionsEq]
    refine (Table.values_insert_perm _ absent).trans ?_
    exact (filled.decisions_perm.cons decision).trans (List.perm_append_singleton ..).symm
  · rw [decisions, slotCountEq, List.filterMap_append, filled.slots_eq]
    by_cases onStack : decision.location = .stack
    · simp [slotEq, onStack, List.range_succ]
    · simp [slotEq, onStack]
  · rw [decisions]
    intro other listed
    rcases List.mem_append.1 listed with before | last
    · exact filled.slot_iff other before
    · rw [List.mem_singleton.1 last, slotEq]
      split <;> simp_all
  · rw [decisions]
    intro other listed onStack
    rcases List.mem_append.1 listed with before | last
    · exact filled.size_bounds other before onStack
    · rw [List.mem_singleton.1 last] at onStack ⊢
      exact bounds onStack
  · have total := filled.stackSize_eq
    rw [decisions, Decision.stackBytes_concat, ← total, sizeEq]
    exact usedEq
  · exact turns.used_le filled.stackSize_le

theorem filled_of_place? (distinct : (records.map (·.node)).Nodup)
    (placed : place? config records = some layout) : Filled config records layout := by
  induction records using List.reverseRecOn generalizing layout with
  | nil =>
      cases placed
      constructor <;> simp [decisionsFor, empty, stackSize, Table.values, Table.empty,
        Decision.stackBytes]
  | append_singleton earlier record inductionHypothesis =>
      obtain ⟨before, placedEarlier, stepped⟩ := exists_place?_append placed
      rw [List.foldlM_cons] at stepped
      obtain ⟨after, stepped, ⟨⟩⟩ := Option.bind_eq_some_iff.1 stepped
      have apart := List.nodup_append.1 (List.map_append ▸ distinct)
      have filled := inductionHypothesis apart.1 placedEarlier
      refine filled.concat (turns_of_placeOne? stepped) distinct ?_
      refine decision?_place?_eq_none placedEarlier fun other listed same => ?_
      exact apart.2.2 _ (List.mem_map_of_mem listed) record.node (by simp) same.symm

/-! ## Within the budget -/

theorem bytesPromoted_of_place? (distinct : (records.map (·.node)).Nodup)
    (placed : place? config records = some layout) :
    layout.bytesPromoted = Decision.stackBytes (layout.decisionsFor records) :=
  Decision.stackBytes_perm (filled_of_place? distinct placed).decisions_perm

/-- Whether a site that may go on the stack does is decided by the room that is left. -/
theorem location_turn_iff_room (stepped : placeOne? config before record = some after)
    (seeks : seeksSlot config record = true) :
    (turn config before record).location = .stack ↔
      before.stackSize + (sizeOf config record).toNat ≤ before.maxFrameSize.toNat := by
  have fits : before.refusal config record = none →
      ¬ UInt32.size ≤ before.used.toNat + (sizeOf config record).toNat := by
    intro accepted exceeds
    cases stepped.symm.trans (placeOne?_eq_none_iff.2 ⟨accepted, exceeds⟩)
  have bound := before.maxFrameSize.toNat_lt
  have size : UInt32.size = 4294967296 := rfl
  rw [location_turn_eq_stack_iff, stackSize]
  constructor
  · intro accepted
    have room := (refusal_eq_none_iff.1 accepted).2
    have fits := fits accepted
    omega
  · intro room
    exact refusal_eq_none_iff.2 ⟨seeks, by omega⟩

/-- A site that may go on the stack is refused only for want of room. -/
theorem turn_of_overflow (seeks : seeksSlot config record = true)
    (refused : (turn config layout record).location ≠ .stack) :
    (turn config layout record).location = .heap ∧
      (turn config layout record).reason = .stackOverflow := by
  rw [seeksSlot_iff, UInt32.pos_iff_ne_zero] at seeks
  rw [Ne, location_turn_eq_stack_iff] at refused
  have refusal_eq : layout.refusal config record = some (.heap, .stackOverflow) := by
    obtain ⟨noEscape, kept, sized, small⟩ := seeks
    simp only [refusal, noEscape, kept] at refused ⊢
    grind
  simp [turn, refusal_eq]

/-- When the turn of a site comes, the frame holds what the sites before it have put there. -/
theorem exists_stackSize_eq (distinct : ((earlier ++ record :: later).map (·.node)).Nodup)
    (placed : place? config (earlier ++ record :: later) = some layout) :
    ∃ before after, before.maxFrameSize = config.maxFrameSize ∧
      Decision.stackBytes (layout.decisionsFor earlier) = before.stackSize ∧
      placeOne? config before record = some after ∧
      layout.decision? record.node = some (turn config before record) := by
  obtain ⟨before, after, placedEarlier, stepped, turned⟩ := exists_decision?_eq_turn distinct placed
  obtain ⟨first, placedFirst, placedLater⟩ := exists_place?_append placed
  cases placedFirst.symm.trans placedEarlier
  have distinctEarlier : (earlier.map (·.node)).Nodup :=
    (List.nodup_append.1 (List.map_append ▸ distinct)).1
  refine ⟨before, after, maxFrameSize_foldlM placedEarlier, ?_, stepped, turned⟩
  rw [decisionsFor_of_append distinct placedLater]
  exact (filled_of_place? distinctEarlier placedEarlier).stackSize_eq.symm

/-- Whatever is on a frame was put there first fit. -/
theorem firstFit_of_place? (distinct : (records.map (·.node)).Nodup)
    (placed : place? config records = some layout) : FirstFit config records layout := by
  have filled := filled_of_place? distinct placed
  have same : layout.maxFrameSize = config.maxFrameSize := maxFrameSize_foldlM placed
  constructor
  · exact filled.nodes_eq
  · exact filled.decisions_perm
  · exact filled.slots_eq
  · exact filled.slot_iff
  · exact filled.stackSize_eq
  · rw [bytesPromoted_of_place? distinct placed, filled.stackSize_eq]
  · rw [← same]
    exact filled.stackSize_le
  · rintro earlier record later decision rfl found onStack
    obtain ⟨before, after, -, total, stepped, turned⟩ := exists_stackSize_eq distinct placed
    cases found.symm.trans turned
    have used := (turns_of_placeOne? stepped).used_eq
    rw [if_pos onStack] at used
    rw [total, size_turn, stackSize, ← used]
    exact after.used.toNat_lt_size
  · exact filled.size_bounds
  · rintro earlier record later rfl noEscape kept known small
    have seeks : seeksSlot config record = true := seeksSlot_iff.2 ⟨noEscape, kept, known, small⟩
    obtain ⟨before, after, budget, total, stepped, turned⟩ := exists_stackSize_eq distinct placed
    refine ⟨_, turned, size_turn, ?_, turn_of_overflow seeks⟩
    rw [total, ← budget]
    exact location_turn_iff_room stepped seeks
  · rintro earlier later rfl
    obtain ⟨first, placedEarlier, placedLater⟩ := exists_place?_append placed
    exact ⟨first, placedEarlier, decisionsFor_of_append distinct placedLater⟩

/-- Up to a budget below the largest number there is a frame whatever was placed before, and it is
filled first fit. -/
theorem firstFit_placeAnew (config : Config) (bounded : config.maxFrameSize < 4294967295)
    (passes : List (List EscapeRecord)) {records : List EscapeRecord}
    (distinct : (records.map (·.node)).Nodup) :
    ∃ before layout, passes.foldlM (placeAnew? config) (empty config) = some before ∧
      before.placeAnew? config records = some layout ∧ FirstFit config records layout := by
  obtain ⟨before, passed, same⟩ := exists_passes bounded passes
  obtain ⟨layout, placed⟩ := @exists_foldlM_placeOne? config (empty config) bounded records
  exact ⟨before, layout, passed, (placeAnew?_eq_place? same).trans placed,
    firstFit_of_place? distinct placed⟩

/-- A frame of a hundred bytes for objects of at most sixty-four. -/
def narrow : Config :=
  { maxFrameSize := 100, maxObjectSize := 64 }

/-- Sites out of the order of their nodes: the second finds no room, the third does, the fourth is
too large, and the fifth takes the last byte. -/
def crowded : List EscapeRecord :=
  [.new 9 .object 60 true, .new 4 .array 48 true, .new 7 .object 32 true, .new 2 .closure 65 true,
    .new 5 .string 8 true]

theorem firstFit_placeAnew_crowded :
    narrow.maxFrameSize < 4294967295 ∧ (crowded.map (·.node)).Nodup ∧
      (∃ before layout,
        [crowded.reverse].foldlM (placeAnew? narrow) (empty narrow) = some before ∧
          before.placeAnew? narrow crowded = some layout ∧ FirstFit narrow crowded layout) ∧
      (place? narrow crowded).map (fun layout => (layout.decisionsFor crowded).map fun decision =>
        (decision.node, decision.slot, decision.reason)) =
          some [(9, some 0, .fitsOnStack), (4, none, .stackOverflow), (7, some 1, .fitsOnStack),
            (2, none, .tooLarge), (5, some 2, .fitsOnStack)] := by
  have bounded : narrow.maxFrameSize < 4294967295 := by decide
  have distinct : (crowded.map (·.node)).Nodup := by decide
  exact ⟨bounded, distinct, firstFit_placeAnew narrow bounded [crowded.reverse] distinct, by cbv⟩

end StackLayout

end EscapePlan
