import EscapePlan.Escape.Record
import EscapePlan.Table

/-!
# Scalar replacement

An object that can be taken apart is replaced by one local variable for each of its
fields.  Locals are numbered through all objects and none is used twice.
-/

namespace EscapePlan

/-- The number of a local variable. -/
abbrev LocalSlot := Nat

/-- How a local variable is displayed. -/
def LocalSlot.text (slot : LocalSlot) : String :=
  "local" ++ toString slot

/-- The local variable that stands for a field. -/
structure FieldMapping where
  field : String
  type : ValueType
  slot : LocalSlot
  deriving DecidableEq, Repr, Inhabited

/-- How the objects of an allocation site are replaced. -/
structure ReplacementPlan where
  allocation : NodeId
  /-- The fields in order of first use. -/
  mappings : List FieldMapping
  /-- Whether every field has a local variable. -/
  fullyReplaced : Bool
  bytesSaved : UInt32
  deriving DecidableEq, Repr, Inhabited

namespace ReplacementPlan

/-- The local variable that stands for a field. -/
def slotOf? (plan : ReplacementPlan) (field : String) : Option LocalSlot :=
  (plan.mappings.find? (·.field = field)).map (·.slot)

end ReplacementPlan

/-- The plans for all allocation sites that are replaced. -/
structure ScalarPlans where
  plans : Table ReplacementPlan
  /-- How many local variables are used. -/
  localCount : Nat
  /-- The sizes of all replaced objects together. -/
  bytesSaved : Nat
  deriving DecidableEq, Repr, Inhabited

namespace ScalarPlans

/-- No plans. -/
def empty : ScalarPlans :=
  ⟨.empty, 0, 0⟩

/-- Numbers the local variables of an object from the given one on. -/
def mapFields (first : LocalSlot) (fields : List ScalarField) : List FieldMapping :=
  fields.mapIdx fun place field => ⟨field.name, field.type, first + place⟩

/-- Plans the replacement of an object. -/
def planOne (plans : ScalarPlans) (record : EscapeRecord) : ScalarPlans where
  plans := plans.plans.insert record.node
    ⟨record.node, mapFields plans.localCount record.fields, true, record.size⟩
  localCount := plans.localCount + record.fields.length
  bytesSaved := plans.bytesSaved + record.size.toNat

/-- Plans the replacement of all objects that can be replaced, in order. -/
def plan (records : List EscapeRecord) : ScalarPlans :=
  (records.filter (·.isScalarReplaceable)).foldl planOne empty

/-- Forgets all plans, and numbers local variables from the first one again. -/
def clear (plans : ScalarPlans) : ScalarPlans :=
  { plans with plans := .empty, localCount := 0, bytesSaved := 0 }

/-- Plans the replacement of objects anew; what was planned before is forgotten. -/
def planAnew (plans : ScalarPlans) (records : List EscapeRecord) : ScalarPlans :=
  (records.filter (·.isScalarReplaceable)).foldl planOne plans.clear

/-- The plan for an allocation site. -/
def plan? (plans : ScalarPlans) (node : NodeId) : Option ReplacementPlan :=
  plans.plans.find? node

/-- The local variable that stands for a field of an allocation site. -/
def slotOf? (plans : ScalarPlans) (node : NodeId) (field : String) : Option LocalSlot :=
  (plans.plan? node).bind (·.slotOf? field)

end ScalarPlans

end EscapePlan
