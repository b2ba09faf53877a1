import EscapePlan.Proofs.Analysis.Sites
import EscapePlan.Proofs.Control.Reachability
import EscapePlan.Proofs.Placement.Agreement

/-!
# Sizes and what is decided by them

The size of an object is counted once, when its site is found, and the frame works it out again when
it decides about the site.  Both come to the same, so whether an object may go on the frame can be
told from its record alone.
-/

namespace EscapePlan

/-- What makes something makes an object of a type that has a default size. -/
theorem NodeData.exists_forType {data : NodeData} {making : Making}
    (makes : data.making? = some making) (sizes : DefaultSizes) :
    ∃ size, sizes.forType making.objectType = some size := by
  cases data <;> cases makes <;> exact ⟨_, rfl⟩

namespace Making

variable {making : Making} {config : Config} {tree : Tree} {node : TreeNode} {id : NodeId}

/-- A size that is counted stops at the largest one. -/
theorem size_of_parts (counted : making.parts ≠ 0) :
    (making.record config tree node id).size.toNat =
        min (16 + 16 * making.parts) 4294967295 ∧
      (making.record config tree node id).sizeIsExplicit = true := by
  rw [record, Walker.siteRecord, Walker.sizeOfCount, if_neg counted]
  refine ⟨?_, rfl⟩
  show (UInt32.ofNat _).toNat = _
  rw [UInt32.toNat_ofNat']
  omega

/-- Without parts there is nothing to count. -/
theorem size_of_no_parts (none : making.parts = 0) (makes : node.data.making? = some making) :
    config.defaultSizes.forType making.objectType =
        some (making.record config tree node id).size ∧
      (making.record config tree node id).sizeIsExplicit = false := by
  obtain ⟨size, known⟩ := NodeData.exists_forType makes config.defaultSizes
  rw [record, Walker.siteRecord, Walker.sizeOfCount, if_pos none]
  refine ⟨?_, rfl⟩
  show _ = some ((config.defaultSizes.forType making.objectType).getD 0)
  rw [known]
  rfl

theorem objectType_record (making : Making) :
    (making.record config tree node id).objectType = making.objectType := by
  rw [record, Walker.siteRecord]
  split <;> rfl

theorem blank_record : (making.record config tree node id).blank =
    making.record config tree node id :=
  Analysis.blank_siteRecord ..

end Making

namespace Analysis

variable {config : Config} {tree : Tree} {record : EscapeRecord}

/-- What is known of a record before anything is found out about its object is what the tree node
says that it stems from. -/
structure StemsFrom (config : Config) (tree : Tree) (record : EscapeRecord) (node : TreeNode)
    (making : Making) : Prop where
  origin : ∃ value index, (ofTree config tree).graph.values.node? record.node = some value ∧
    value.origin = some index ∧ tree.get? index = some node
  makes : node.data.making? = some making
  blank_eq : record.blank = making.record config tree node record.node

theorem exists_stemsFrom (listed : record ∈ (ofTree config tree).records.values) :
    ∃ node making, StemsFrom config tree record node making := by
  obtain ⟨start, found, same⟩ := exists_start listed
  have blank : record.blank = start.blank := by
    rw [same]
    exact (blank_finalRecord ..).trans (EscapeRecord.blank_settledRecord ..)
  obtain ⟨index, making, stems⟩ := Walk.ofTree_rooted config tree depthLimit _ _ found
  obtain ⟨value, foundValue, origin⟩ := stems.origin
  obtain ⟨node, foundNode, makes, rfl⟩ := stems.makes
  obtain ⟨later, foundLater, sameOrigin⟩ := exists_origin_ofTree foundValue
  refine ⟨node, making, ⟨later, index, foundLater, sameOrigin.trans origin, foundNode⟩, makes, ?_⟩
  rw [blank, Making.blank_record]

end Analysis

namespace StackLayout

variable {config : Config} {layout : StackLayout} {record : EscapeRecord}

/-- The reason of a decision tells what is known about the object. -/
structure ReasonTells (config : Config) (record : EscapeRecord) (reason : DecisionReason) :
    Prop where
  escapes_iff : reason = .escapes ↔ record.state ≠ .noEscape
  canScalarReplace_iff : reason = .canScalarReplace ↔ record.isScalarReplaceable = true
  unknownType_iff : reason = .unknownType ↔
    record.state = .noEscape ∧ record.isScalarReplaceable = false ∧ record.size = 0
  tooLarge_iff : reason = .tooLarge ↔
    record.state = .noEscape ∧ record.isScalarReplaceable = false ∧ 0 < record.size ∧
      config.maxObjectSize < record.size
  /-- Whether there is still room for an object that fits is another matter. -/
  fits_iff : reason = .fitsOnStack ∨ reason = .stackOverflow ↔
    record.fitsOnStack config.maxObjectSize = true ∧ record.isScalarReplaceable = false

/-- The frame decides by the record if both go by one size. -/
theorem reasonTells_turn (same : sizeOf config record = record.size) :
    ReasonTells config record (turn config layout record).reason := by
  have replaceable : record.isScalarReplaceable = true → record.state = .noEscape := by
    simp only [EscapeRecord.isScalarReplaceable, Bool.and_eq_true, decide_eq_true_eq]
    exact fun facts => facts.1.1
  have fits : record.fitsOnStack config.maxObjectSize = true ↔
      record.state = .noEscape ∧ 0 < record.size ∧ record.size ≤ config.maxObjectSize := by
    simp only [EscapeRecord.fitsOnStack, Bool.and_eq_true, decide_eq_true_eq, and_assoc]
  have positive : 0 < record.size ↔ record.size ≠ 0 := UInt32.pos_iff_ne_zero
  have small : record.size ≤ config.maxObjectSize ↔ ¬ config.maxObjectSize < record.size :=
    UInt32.not_lt.symm
  have reason : (turn config layout record).reason =
      ((layout.refusal config record).map (·.2)).getD .fitsOnStack := by
    rw [turn]
    cases layout.refusal config record <;> rfl
  rw [reason, refusal, same]
  constructor
  all_goals grind

end StackLayout

namespace Placement

/-- What is said about the size of an object, and what is decided by it. -/
structure SizeAgrees (config : Config) (tree : Tree) (record : EscapeRecord) : Prop where
  size : ∃ node making, Analysis.StemsFrom config tree record node making ∧
    record.objectType = making.objectType ∧
    (making.parts ≠ 0 → record.size.toNat = min (16 + 16 * making.parts) 4294967295 ∧
      record.sizeIsExplicit = true) ∧
    (making.parts = 0 → config.defaultSizes.forType record.objectType = some record.size ∧
      record.sizeIsExplicit = false)
  placed_iff : (∃ placement, ofTree? config tree = some placement) ↔ ¬ Overflows config tree
  decision : ∀ placement, ofTree? config tree = some placement →
    ∃ decision, placement.stack.decision? record.node = some decision ∧
      decision.size = record.size ∧ StackLayout.ReasonTells config record decision.reason

/-- The frame goes by the size that the analysis tells, and this is the number of parts of what a
tree node makes, or else the default of its type. -/
theorem size_agrees (config : Config) (tree : Tree) {record : EscapeRecord}
    (listed : record ∈ (Analysis.ofTree config tree).records.values) :
    SizeAgrees config tree record where
  size := by
    obtain ⟨node, making, stems⟩ := Analysis.exists_stemsFrom listed
    have type : record.objectType = making.objectType :=
      (congrArg (·.objectType) stems.blank_eq).trans making.objectType_record
    refine ⟨node, making, stems, type, fun counted => ?_, fun none => ?_⟩
    · have size := @Making.size_of_parts making config tree node record.node counted
      rw [← stems.blank_eq] at size
      exact size
    · have size := @Making.size_of_no_parts making config tree node record.node none stems.makes
      rw [← stems.blank_eq, ← type] at size
      exact size
  placed_iff := exists_ofTree?_iff
  decision := by
    intro placement placed
    have tells := Analysis.tells_of_mem_values config tree listed
    obtain ⟨stack, stackPlaced, rfl⟩ := exists_onStack placed
    obtain ⟨before, found⟩ :=
      StackLayout.exists_decision?_of_mem (distinct_records config tree) listed stackPlaced
    exact ⟨StackLayout.turn config before record, found,
      StackLayout.size_turn.trans tells.size_eq, StackLayout.reasonTells_turn tells.size_eq⟩

/-- An array is made of two elements. -/
def twoElements : Tree where
  root := ⟨2⟩
  strings := .empty
  nodes := #[⟨.literal .null, none⟩, ⟨.arrayInit [⟨0⟩, ⟨0⟩], none⟩, ⟨.root [⟨1⟩], none⟩]

theorem size_agrees_twoElements :
    .new 2 .array 48 true ∈ (Analysis.ofTree {} twoElements).records.values ∧
      SizeAgrees {} twoElements (.new 2 .array 48 true) ∧
      ∃ placement, ofTree? {} twoElements = some placement := by
  have values : (Analysis.ofTree {} twoElements).records.values = [.new 2 .array 48 true] := by cbv
  have listed : .new 2 .array 48 true ∈ (Analysis.ofTree {} twoElements).records.values := by
    rw [values]
    exact List.mem_singleton_self _
  have agrees := size_agrees {} twoElements listed
  have bounded : ¬ Overflows {} twoElements := fun overflows => absurd overflows.1 (by decide)
  exact ⟨listed, agrees, agrees.placed_iff.2 bounded⟩

end Placement

end EscapePlan
