import EscapePlan.Json.Decode

/-!
# Shapes: records read from drafts

A shape says which fields a record has and how it is made from their values.  A
record is read from an object, by name, or from an array, by place.

Reading an object takes its members in the order of the text.  A member of an
unknown name is skipped, a known one is decoded at once, and a second member of a
known name is a fault; fields that are missing in the end take their fallback or
are a fault, in the order of the shape.

Reading an array takes its items in the order of the shape.  Fields beyond the
last item take their fallback; the first that has none is a fault of length.
-/

namespace EscapePlan

/-- A field of a record. -/
structure Field (α : Type) where
  name : String
  decode : Decoder α
  /-- The value of a missing field. -/
  fallback : Option α := none

/-- The fields of a record, in order of declaration. -/
inductive Fields : List Type → Type 1 where
  | nil : Fields []
  | cons {α : Type} {types : List Type} (field : Field α) (fields : Fields types) :
      Fields (α :: types)

namespace Fields

/-- One value for each field. -/
@[reducible] def Values : List Type → Type
  | [] => Unit
  | α :: types => α × Values types

/-- At most one value for each field. -/
@[reducible] def Slots : List Type → Type
  | [] => Unit
  | α :: types => Option α × Slots types

/-- The number of fields. -/
def count {types : List Type} : Fields types → Nat
  | .nil => 0
  | .cons _ fields => fields.count + 1

/-- The names of the fields. -/
def names {types : List Type} : Fields types → List String
  | .nil => []
  | .cons field fields => field.name :: fields.names

/-- No value for any field. -/
def vacant {types : List Type} : Fields types → Slots types
  | .nil => ()
  | .cons _ fields => (none, fields.vacant)

/-- Puts a member into the slot of its name. -/
def offer {types : List Type} :
    Fields types → String → Draft → Slots types → Except Fault (Slots types)
  | .nil, _, draft, () => if draft.isIgnorable then .ok () else .error .malformed
  | .cons field fields, name, draft, (slot, slots) =>
      if name = field.name then
        if slot.isSome then .error (.duplicateField name)
        else (field.decode draft).map fun value => (some value, slots)
      else
        (fields.offer name draft slots).map fun slots => (slot, slots)

/-- Puts members into their slots, one after the other. -/
def offerAll {types : List Type} (fields : Fields types) :
    List (Option String × Draft) → Slots types → Except Fault (Slots types)
  | [], slots => .ok slots
  | (none, _) :: _, _ => .error .malformed
  | (some name, draft) :: members, slots => do
      fields.offerAll members (← fields.offer name draft slots)

/-- Takes the values out of the slots. -/
def settle {types : List Type} : Fields types → Slots types → Except Fault (Values types)
  | .nil, () => .ok ()
  | .cons field fields, (slot, slots) =>
      match slot.or field.fallback with
      | none => .error (.missingField field.name)
      | some value => (fields.settle slots).map fun values => (value, values)

/-- Reads the fields from the members of an object. -/
def readMembers {types : List Type} (fields : Fields types)
    (members : List (Option String × Draft)) (closed : Bool) : Except Fault (Values types) := do
  let slots ← fields.offerAll members fields.vacant
  if closed then fields.settle slots else throw .malformed

/-- Reads the fields from the items of an array; answers the items left over.  The
number of fields before these and the wording of what is expected go into faults. -/
def readItems {types : List Type} (expected : String) (closed : Bool) :
    Nat → Fields types → List Draft → Except Fault (Values types × List Draft)
  | _, .nil, items => .ok ((), items)
  | before, .cons field fields, item :: items => do
      let value ← field.decode item
      let (values, rest) ← readItems expected closed (before + 1) fields items
      return ((value, values), rest)
  | before, .cons field fields, [] =>
      if closed then
        match field.fallback with
        | none => throw (.invalidLength before expected)
        | some value => do
            let (values, rest) ← readItems expected closed (before + 1) fields []
            return ((value, values), rest)
      else throw .malformed

end Fields

/-- A number of elements in words. -/
def elementCount (count : Nat) : String :=
  toString count ++ (if count = 1 then " element" else " elements")

/-- How a record of type `α` is read. -/
structure Shape (α : Type) where
  {types : List Type}
  /-- What messages call the record. -/
  title : String
  fields : Fields types
  build : Fields.Values types → α

namespace Shape

/-- What messages call the record when its length is wrong. -/
def expectedLength {α : Type} (shape : Shape α) : String :=
  shape.title ++ " with " ++ elementCount shape.fields.count

/-- Reads a record; an array with surplus items is no notation of it. -/
def decode {α : Type} (shape : Shape α) : Decoder α
  | .object members closed => (shape.fields.readMembers members closed).map shape.build
  | .array items closed => do
      let (values, rest) ← Fields.readItems shape.expectedLength closed 0 shape.fields items
      if rest.isEmpty && closed then return shape.build values else throw .malformed
  | draft => .error (draft.mismatch shape.title)

/-- Reads a record from a draft that was not written in JSON, if there is one; whatever
the fault, it has no wording. -/
def decodeSilently {α : Type} (shape : Shape α) (draft : Option Draft) : Except Fault α :=
  match draft with
  | none => .error .malformed
  | some draft => (shape.decode draft).mapError fun _ => .malformed

end Shape

end EscapePlan
