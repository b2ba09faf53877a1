import EscapePlan.Placement.Basic
import Mathlib.Data.List.Nodup

/-!
# What is decided about a site

Sites are decided about one after the other, and no later decision touches an earlier one.  So the
decision about a site, and its plan, are those that were made when its turn came.
-/

namespace EscapePlan

section

variable {σ α : Type} {step : σ → EscapeRecord → Option σ} {look : σ → NodeId → Option α}
  (keeps : ∀ {before after record}, step before record = some after →
    ∀ {id}, id ≠ record.node → look after id = look before id)
include keeps

/-- A run over other records leaves a node alone. -/
theorem look_foldlM_of_ne {records : List EscapeRecord} {id : NodeId}
    (others : ∀ record ∈ records, id ≠ record.node) {start last : σ}
    (ran : records.foldlM step start = some last) : look last id = look start id := by
  induction records generalizing start with
  | nil =>
      cases ran
      rfl
  | cons first rest inductionHypothesis =>
      obtain ⟨other, others⟩ := List.forall_mem_cons.1 others
      rw [List.foldlM_cons] at ran
      obtain ⟨next, stepped, ran⟩ := Option.bind_eq_some_iff.1 ran
      rw [inductionHypothesis others ran, keeps stepped other]

/-- What a run over distinct records leaves about one of them is what its own step has left. -/
theorem exists_turn {earlier later : List EscapeRecord} {record : EscapeRecord}
    (distinct : ((earlier ++ record :: later).map (·.node)).Nodup) {start last : σ}
    (ran : (earlier ++ record :: later).foldlM step start = some last) :
    ∃ before after, earlier.foldlM step start = some before ∧ step before record = some after ∧
      look last record.node = look after record.node := by
  have others : ∀ other ∈ later, record.node ≠ other.node := by
    intro other listed same
    simp only [List.map_append, List.map_cons, List.nodup_append, List.nodup_cons] at distinct
    exact distinct.2.1.1 (same ▸ List.mem_map_of_mem listed)
  rw [List.foldlM_append] at ran
  obtain ⟨before, ranEarlier, ran⟩ := Option.bind_eq_some_iff.1 ran
  rw [List.foldlM_cons] at ran
  obtain ⟨after, stepped, ranLater⟩ := Option.bind_eq_some_iff.1 ran
  exact ⟨before, after, ranEarlier, stepped, look_foldlM_of_ne keeps others ranLater⟩

end

namespace StackLayout

variable {config : Config} {layout before after : StackLayout} {record : EscapeRecord}
  {records earlier later : List EscapeRecord}

/-! ## One turn -/

/-- The decision about a site when its turn comes. -/
def turn (config : Config) (layout : StackLayout) (record : EscapeRecord) : Decision :=
  match layout.refusal config record with
  | some (location, reason) => ⟨record.node, location, none, sizeOf config record, reason⟩
  | none => ⟨record.node, .stack, some layout.slotCount, sizeOf config record, .fitsOnStack⟩

/-- Whether an object takes a stack slot as long as there is room. -/
def seeksSlot (config : Config) (record : EscapeRecord) : Bool :=
  record.state = .noEscape && !record.isScalarReplaceable && 0 < sizeOf config record &&
    sizeOf config record ≤ config.maxObjectSize

theorem seeksSlot_iff : seeksSlot config record = true ↔
    record.state = .noEscape ∧ record.isScalarReplaceable = false ∧ 0 < sizeOf config record ∧
      sizeOf config record ≤ config.maxObjectSize := by
  simp [seeksSlot, and_assoc]

theorem saturatingAdd_toNat (first second : UInt32) :
    (saturatingAdd first second).toNat = min (first.toNat + second.toNat) 4294967295 := by
  simp only [saturatingAdd, UInt32.toNat_ofNat']
  omega

/-- There is room exactly if the sum of sizes is within the budget, up to the largest number. -/
theorem refusal_eq_none_iff : layout.refusal config record = none ↔
    seeksSlot config record = true ∧
      min (layout.used.toNat + (sizeOf config record).toNat) 4294967295 ≤
        layout.maxFrameSize.toNat := by
  rw [seeksSlot_iff, ← saturatingAdd_toNat, ← UInt32.le_iff_toNat_le, UInt32.pos_iff_ne_zero]
  simp only [refusal]
  grind

theorem refusal_ne_stack {location : Location} {reason : DecisionReason}
    (refused : layout.refusal config record = some (location, reason)) : location ≠ .stack := by
  simp only [refusal] at refused
  grind

@[simp] theorem node_turn : (turn config layout record).node = record.node := by
  simp only [turn]
  split <;> rfl

@[simp] theorem size_turn : (turn config layout record).size = sizeOf config record := by
  simp only [turn]
  split <;> rfl

theorem location_turn :
    (turn config layout record).location = (layout.refusal config record).elim .stack (·.1) := by
  rw [turn]
  cases layout.refusal config record <;> rfl

theorem location_turn_eq_stack_iff :
    (turn config layout record).location = .stack ↔ layout.refusal config record = none := by
  rw [location_turn]
  cases refused : layout.refusal config record with
  | none => simp
  | some why =>
      obtain ⟨location, reason⟩ := why
      simpa using refusal_ne_stack refused

theorem slot_turn : (turn config layout record).slot =
    if (turn config layout record).location = .stack then some layout.slotCount else none := by
  cases refused : layout.refusal config record with
  | none => simp [turn, refused]
  | some why =>
      obtain ⟨location, reason⟩ := why
      simp [turn, refused, refusal_ne_stack refused]

/-- What escapes goes to the heap. -/
theorem noEscape_of_location_turn (elsewhere : (turn config layout record).location ≠ .heap) :
    record.state = .noEscape := by
  rw [location_turn, refusal] at elsewhere
  split at elsewhere
  next => contradiction
  next noEscape => exact not_not.1 noEscape

/-- What can be replaced is replaced, and nothing else is. -/
theorem location_turn_eq_scalarReplaced_iff :
    (turn config layout record).location = .scalarReplaced ↔ record.isScalarReplaceable = true := by
  rw [location_turn]
  constructor
  · intro replaced
    rw [refusal] at replaced
    grind
  · intro replaceable
    have noEscape : record.state = .noEscape := by
      rw [EscapeRecord.isScalarReplaceable, Bool.and_eq_true, Bool.and_eq_true] at replaceable
      exact of_decide_eq_true replaceable.1.1
    rw [refusal]
    simp only [noEscape, replaceable, ne_eq, not_true_eq_false, if_false, if_true]
    rfl

theorem checkedAdd?_eq_none_iff {first second : UInt32} :
    checkedAdd? first second = none ↔ UInt32.size ≤ first.toNat + second.toNat := by
  simp [checkedAdd?]

theorem toNat_of_checkedAdd? {first second sum : UInt32}
    (added : checkedAdd? first second = some sum) : sum.toNat = first.toNat + second.toNat := by
  rw [checkedAdd?] at added
  split at added
  next fits =>
    cases added
    rw [UInt32.toNat_add, Nat.mod_eq_of_lt fits]
  next => contradiction

/-- A turn fails only if its object goes on the stack and its size cannot be added. -/
theorem placeOne?_eq_none_iff : placeOne? config layout record = none ↔
    layout.refusal config record = none ∧
      UInt32.size ≤ layout.used.toNat + (sizeOf config record).toNat := by
  rw [placeOne?]
  cases layout.refusal config record with
  | none => simp [checkedAdd?_eq_none_iff]
  | some why => simp

/-- A turn notes its decision, and takes room on the frame if the object goes there. -/
structure Turns (config : Config) (record : EscapeRecord) (before after : StackLayout) : Prop where
  decisions_eq : after.decisions = before.decisions.insert record.node (turn config before record)
  used_eq : after.used.toNat = before.used.toNat +
    if (turn config before record).location = .stack then (sizeOf config record).toNat else 0
  slotCount_eq : after.slotCount = before.slotCount +
    if (turn config before record).location = .stack then 1 else 0
  maxFrameSize_eq : after.maxFrameSize = before.maxFrameSize

theorem turns_of_placeOne? (placed : placeOne? config before record = some after) :
    Turns config record before after := by
  rw [placeOne?] at placed
  cases refused : before.refusal config record with
  | none =>
      rw [refused] at placed
      obtain ⟨used, added, rfl⟩ := Option.map_eq_some_iff.1 placed
      constructor <;> simp [turn, refused, toNat_of_checkedAdd? added]
  | some why =>
      obtain ⟨location, reason⟩ := why
      rw [refused] at placed
      cases placed
      constructor <;> simp [turn, refused, refusal_ne_stack refused]

theorem Turns.decision?_self (turns : Turns config record before after) :
    after.decision? record.node = some (turn config before record) := by
  rw [decision?, turns.decisions_eq, Table.find?_insert, if_pos rfl]

theorem Turns.decision?_of_ne (turns : Turns config record before after) {id : NodeId}
    (other : id ≠ record.node) : after.decision? id = before.decision? id := by
  rw [decision?, turns.decisions_eq, Table.find?_insert, if_neg other, decision?]

/-! ## All turns -/

theorem decision?_foldlM_of_ne {id : NodeId} (others : ∀ record ∈ records, id ≠ record.node)
    (placed : records.foldlM (placeOne? config) before = some after) :
    after.decision? id = before.decision? id :=
  look_foldlM_of_ne (fun stepped _ => (turns_of_placeOne? stepped).decision?_of_ne) others placed

/-- A frame for some sites comes about from the frame for the first of them. -/
theorem exists_place?_append (placed : place? config (earlier ++ later) = some layout) :
    ∃ before, place? config earlier = some before ∧
      later.foldlM (placeOne? config) before = some layout := by
  rw [place?, List.foldlM_append] at placed
  exact Option.bind_eq_some_iff.1 placed

/-- The decision about a site is made when its turn comes. -/
theorem exists_decision?_eq_turn (distinct : ((earlier ++ record :: later).map (·.node)).Nodup)
    (placed : place? config (earlier ++ record :: later) = some layout) :
    ∃ before after, place? config earlier = some before ∧
      placeOne? config before record = some after ∧
      layout.decision? record.node = some (turn config before record) := by
  obtain ⟨before, after, placedEarlier, stepped, found⟩ := exists_turn
    (fun stepped _ => (turns_of_placeOne? stepped).decision?_of_ne) distinct placed
  exact ⟨before, after, placedEarlier, stepped,
    found.trans (turns_of_placeOne? stepped).decision?_self⟩

theorem exists_decision?_of_mem (distinct : (records.map (·.node)).Nodup) (listed : record ∈ records)
    (placed : place? config records = some layout) :
    ∃ before, layout.decision? record.node = some (turn config before record) := by
  obtain ⟨earlier, later, rfl⟩ := List.append_of_mem listed
  obtain ⟨before, -, -, -, found⟩ := exists_decision?_eq_turn distinct placed
  exact ⟨before, found⟩

end StackLayout

namespace ScalarPlans

variable {records : List EscapeRecord} {record : EscapeRecord}

theorem plan?_planOne_of_ne {plans : ScalarPlans} {id : NodeId} (other : id ≠ record.node) :
    (plans.planOne record).plan? id = plans.plan? id :=
  (Table.find?_insert _ _ _ _).trans (if_neg other)

/-- Planning as a run that never fails. -/
theorem foldlM_planOne (records : List EscapeRecord) (start : ScalarPlans) :
    records.foldlM (fun plans record => some (plans.planOne record)) start =
      some (records.foldl planOne start) :=
  List.foldlM_pure

theorem keeps_plan? {before after : ScalarPlans} (planned : some (before.planOne record) = some after)
    {id : NodeId} (other : id ≠ record.node) : after.plan? id = before.plan? id := by
  cases planned
  exact plan?_planOne_of_ne other

/-- Every field of an object is mapped. -/
theorem exists_slotOf? {first : LocalSlot} {plan : ReplacementPlan}
    (mappings : plan.mappings = mapFields first record.fields) {field : String}
    (listed : field ∈ record.fields.map (·.name)) : ∃ slot, plan.slotOf? field = some slot := by
  rcases List.mem_map.1 listed with ⟨found, member, rfl⟩
  rcases List.getElem_of_mem member with ⟨place, bound, rfl⟩
  have mapped : ⟨record.fields[place].name, record.fields[place].type, first + place⟩ ∈
      plan.mappings := by
    rw [mappings, mapFields, List.mem_mapIdx]
    exact ⟨place, bound, rfl⟩
  rw [ReplacementPlan.slotOf?]
  cases search : plan.mappings.find? (·.field = record.fields[place].name) with
  | none =>
      have never := List.find?_eq_none.1 search _ mapped
      simp at never
  | some mapping => exact ⟨mapping.slot, rfl⟩

/-- An object that is replaced has a plan of its own. -/
theorem exists_plan? (distinct : (records.map (·.node)).Nodup) (listed : record ∈ records)
    (replaceable : record.isScalarReplaceable = true) :
    ∃ first, (plan records).plan? record.node =
      some ⟨record.node, mapFields first record.fields, true, record.size⟩ := by
  have distinctFiltered :
      ((records.filter (·.isScalarReplaceable)).map (·.node)).Nodup :=
    List.Nodup.sublist (List.filter_sublist.map _) distinct
  have planned := foldlM_planOne (records.filter (·.isScalarReplaceable)) empty
  obtain ⟨earlier, later, split⟩ := List.append_of_mem (List.mem_filter.2 ⟨listed, replaceable⟩)
  rw [split] at distinctFiltered planned
  obtain ⟨before, after, -, stepped, turn⟩ := exists_turn keeps_plan? distinctFiltered planned
  cases stepped
  refine ⟨before.localCount, ?_⟩
  rw [plan, split, turn, plan?, planOne, Table.find?_insert, if_pos rfl]

/-- The fields of an object that is replaced have local variables. -/
theorem exists_slotOf?_plan (distinct : (records.map (·.node)).Nodup) (listed : record ∈ records)
    (replaceable : record.isScalarReplaceable = true) {field : String}
    (uses : field ∈ record.fields.map (·.name)) :
    ∃ slot, (plan records).slotOf? record.node field = some slot := by
  rcases exists_plan? distinct listed replaceable with ⟨first, planned⟩
  rw [slotOf?, planned]
  exact exists_slotOf? rfl uses

end ScalarPlans

end EscapePlan
