import EscapePlan.Proofs.Analysis.Records
import EscapePlan.Proofs.Analysis.Sites
import Mathlib

/-!
# Lists of fields

The fields of an object are listed as they are used.  Whatever is done with a list of fields one
use after the other, it lists each name that is used once, in the order of first uses, and gives it
the first type that is known.  The fields of a record after an analysis are those of the accesses
to its object, in the order in which the walk came by them.

Places and offsets are told in thirty-two bits, which are enough for the offsets of 2^29 fields.
-/

namespace EscapePlan

namespace ScalarField

variable {name : String} {type : ValueType} {place : Nat}

theorem toNat_slot_ofPlace (bound : place < UInt32.size) :
    (ofPlace name type place).slot.toNat = place :=
  UInt32.toNat_ofNat_of_lt' bound

/-- Eight bytes a field leave thirty-two bits after 2^29 fields. -/
theorem toNat_offset_ofPlace (bound : place < 2 ^ 29) :
    (ofPlace name type place).offset.toNat = 8 * place := by
  simp only [ofPlace, UInt32.toNat_mul, UInt32.toNat_ofNat', UInt32.reduceToNat]
  omega

end ScalarField

/-- A use of a field: its name, and the type of the value. -/
abbrev FieldUse := String × ValueType

namespace EscapeRecord

/-- Records uses of fields one after the other. -/
def recordUses (record : EscapeRecord) (uses : List FieldUse) : EscapeRecord :=
  uses.foldl (fun record use => record.recordField use.1 use.2) record

/-- The types with which a name is used. -/
def typesOf (uses : List FieldUse) (name : String) : List ValueType :=
  (uses.filter (·.1 = name)).map (·.2)

/-- The first type that is known. -/
def firstKnown (types : List ValueType) : ValueType :=
  (types.find? (· ≠ .unknown)).getD .unknown

/-- Each name that is used is listed once, in the order of first uses, with its place, its offset
and the first type that is known. -/
structure FirstUses (uses : List FieldUse) (fields : List ScalarField) : Prop where
  nodup : (fields.map (·.name)).Nodup
  mem_iff : ∀ name, name ∈ fields.map (·.name) ↔ name ∈ uses.map (·.1)
  ordered : (fields.map (·.name)).Pairwise fun one other =>
    (uses.map (·.1)).idxOf one < (uses.map (·.1)).idxOf other
  slot_eq : ∀ (place : Nat) (field : ScalarField), fields[place]? = some field →
    place < UInt32.size → field.slot.toNat = place
  offset_eq : ∀ (place : Nat) (field : ScalarField), fields[place]? = some field →
    place < 2 ^ 29 → field.offset.toNat = 8 * place
  type_eq : ∀ field ∈ fields, field.type = firstKnown (typesOf uses field.name)

/-! ## Types -/

theorem typesOf_concat (uses : List FieldUse) (use : FieldUse) (name : String) :
    typesOf (uses ++ [use]) name = typesOf uses name ++ if use.1 = name then [use.2] else [] := by
  rw [typesOf, typesOf, List.filter_append, List.map_append]
  by_cases same : use.1 = name <;> simp [same]

theorem typesOf_of_not_mem {uses : List FieldUse} {name : String}
    (unused : name ∉ uses.map (·.1)) : typesOf uses name = [] := by
  rw [typesOf, List.map_eq_nil_iff, List.filter_eq_nil_iff]
  intro use listed same
  exact unused (of_decide_eq_true same ▸ List.mem_map_of_mem listed)

theorem firstKnown_concat (types : List ValueType) (type : ValueType) :
    firstKnown (types ++ [type]) = if firstKnown types = .unknown then type else firstKnown types := by
  rw [firstKnown, firstKnown, List.find?_append]
  cases found : types.find? (· ≠ .unknown) with
  | none => by_cases known : type = .unknown <;> simp [known]
  | some first =>
      have known := List.find?_some found
      simp_all

/-! ## One use -/

theorem name_typed (name : String) (type : ValueType) (field : ScalarField) :
    (typed name type field).name = field.name := by
  rw [typed]
  split
  next => rfl
  next => rfl

/-- A field that is used again keeps its place. -/
theorem FirstUses.again {uses : List FieldUse} {fields : List ScalarField}
    (first : FirstUses uses fields) {name : String} (known : name ∈ fields.map (·.name))
    (type : ValueType) : FirstUses (uses ++ [(name, type)]) (fields.map (typed name type)) := by
  have names : (fields.map (typed name type)).map (·.name) = fields.map (·.name) := by
    simp [Function.comp_def, name_typed]
  have used := (first.mem_iff name).1 known
  have place_typed (place : Nat) (field : ScalarField)
      (found : (fields.map (typed name type))[place]? = some field) :
      ∃ old, fields[place]? = some old ∧ field.slot = old.slot ∧ field.offset = old.offset := by
    rw [List.getElem?_map] at found
    obtain ⟨old, foundOld, rfl⟩ := Option.map_eq_some_iff.1 found
    refine ⟨old, foundOld, ?_⟩
    rw [typed]
    split
    next => exact ⟨rfl, rfl⟩
    next => exact ⟨rfl, rfl⟩
  constructor
  · rw [names]
    exact first.nodup
  · intro other
    rw [names, first.mem_iff, List.map_append, List.mem_append]
    refine ⟨.inl, fun listed => listed.elim id fun last => ?_⟩
    rwa [List.mem_singleton.1 last]
  · rw [names]
    refine first.ordered.imp_of_mem fun one other less => ?_
    rwa [List.map_append, List.idxOf_append_of_mem ((first.mem_iff _).1 one),
      List.idxOf_append_of_mem ((first.mem_iff _).1 other)]
  · intro place field found bound
    obtain ⟨old, foundOld, slot, -⟩ := place_typed place field found
    rw [slot]
    exact first.slot_eq place old foundOld bound
  · intro place field found bound
    obtain ⟨old, foundOld, -, offset⟩ := place_typed place field found
    rw [offset]
    exact first.offset_eq place old foundOld bound
  · intro field listed
    obtain ⟨old, listedOld, rfl⟩ := List.mem_map.1 listed
    have typeEq := first.type_eq old listedOld
    rw [name_typed, typesOf_concat]
    by_cases same : name = old.name
    · rw [if_pos same, firstKnown_concat, ← typeEq, typed]
      by_cases unknown : old.type = .unknown
      · rw [if_pos ⟨same.symm, unknown⟩, if_pos unknown]
      · rw [if_neg (unknown ·.2), if_neg unknown]
    · rw [if_neg same, List.append_nil, ← typeEq, typed, if_neg (same ·.1.symm)]

/-- A field that is used for the first time is listed last. -/
theorem FirstUses.new {uses : List FieldUse} {fields : List ScalarField}
    (first : FirstUses uses fields) {name : String} (unknown : name ∉ fields.map (·.name))
    (type : ValueType) :
    FirstUses (uses ++ [(name, type)]) (fields ++ [.ofPlace name type fields.length]) := by
  have unused : name ∉ uses.map (·.1) := mt (first.mem_iff name).2 unknown
  have placed (place : Nat) (field : ScalarField)
      (found : (fields ++ [.ofPlace name type fields.length])[place]? = some field) :
      fields[place]? = some field ∨ place = fields.length ∧ field = .ofPlace name type fields.length := by
    rw [List.getElem?_append] at found
    split at found
    next => exact .inl found
    next beyond =>
      rw [List.getElem?_singleton] at found
      split at found
      next last =>
        cases found
        exact .inr ⟨by omega, rfl⟩
      next => contradiction
  have names : (fields ++ [ScalarField.ofPlace name type fields.length]).map (·.name) =
      fields.map (·.name) ++ [name] := by simp
  constructor
  · rw [names, List.nodup_append]
    refine ⟨first.nodup, List.nodup_singleton _, fun one listed other last same => ?_⟩
    rw [List.mem_singleton] at last
    have oneEq : one = name := same.trans last
    exact unknown (oneEq ▸ listed)
  · intro other
    simp [← first.mem_iff]
  · rw [names, List.map_append, List.pairwise_append]
    refine ⟨first.ordered.imp_of_mem fun one other less => ?_, List.pairwise_singleton _ _,
      fun one listed other last => ?_⟩
    · rwa [List.idxOf_append_of_mem ((first.mem_iff _).1 one),
        List.idxOf_append_of_mem ((first.mem_iff _).1 other)]
    · rw [List.mem_singleton] at last
      rw [last, List.idxOf_append_of_mem ((first.mem_iff _).1 listed),
        List.idxOf_append_of_notMem unused]
      exact Nat.lt_add_right _ (List.idxOf_lt_length_iff.2 ((first.mem_iff _).1 listed))
  · intro place field found bound
    rcases placed place field found with old | ⟨rfl, rfl⟩
    · exact first.slot_eq place field old bound
    · exact ScalarField.toNat_slot_ofPlace bound
  · intro place field found bound
    rcases placed place field found with old | ⟨rfl, rfl⟩
    · exact first.offset_eq place field old bound
    · exact ScalarField.toNat_offset_ofPlace bound
  · intro field listed
    rw [typesOf_concat]
    rcases List.mem_append.1 listed with old | last
    · rw [if_neg, List.append_nil]
      · exact first.type_eq field old
      · rintro rfl
        exact unknown (List.mem_map_of_mem old)
    · rw [List.mem_singleton.1 last, ScalarField.name_ofPlace, if_pos rfl,
        typesOf_of_not_mem unused, firstKnown_concat]
      rfl

/-- The fields of all uses so far, with one more. -/
theorem FirstUses.addField {uses : List FieldUse} {fields : List ScalarField}
    (first : FirstUses uses fields) (use : FieldUse) :
    FirstUses (uses ++ [use]) (addField use.1 use.2 fields) := by
  by_cases known : use.1 ∈ fields.map (·.name)
  · rw [addField_of_known known]
    exact first.again known use.2
  · rw [addField_of_unknown known]
    exact first.new known use.2

/-! ## All uses -/

/-- The fields that uses list one after the other. -/
def usedFields (uses : List FieldUse) : List ScalarField :=
  uses.foldl (fun fields use => addField use.1 use.2 fields) []

theorem firstUses_usedFields (uses : List FieldUse) : FirstUses uses (usedFields uses) := by
  induction uses using List.reverseRecOn with
  | nil => constructor <;> simp [usedFields]
  | append_singleton uses use inductionHypothesis =>
      rw [usedFields, List.foldl_concat]
      exact inductionHypothesis.addField use

/-- Recording uses changes the fields only. -/
theorem recordUses_eq (record : EscapeRecord) (uses : List FieldUse) :
    record.recordUses uses = { record with
      fields := uses.foldl (fun fields use => addField use.1 use.2 fields) record.fields } := by
  induction uses generalizing record with
  | nil => rfl
  | cons use uses inductionHypothesis => exact inductionHypothesis (record.recordField use.1 use.2)

/-! ## Records of an analysis -/

theorem fields_escalate (record : EscapeRecord) (state : EscapeState) (reason : EscapeReason)
    (position : Option Position) : (record.escalate state reason position).fields = record.fields := by
  rw [escalate]
  split
  next => rfl
  next => rfl

end EscapeRecord

namespace Walk

open EscapeRecord

variable {walk : Walk} {id : NodeId}

/-- The use of a field that an access is, if it names one and its base may denote an allocation. -/
def namedUse? (walk : Walk) (id : NodeId) (access : Access) : Option FieldUse :=
  if id ∈ walk.resolveAliases.aliases access.base then
    access.field.map fun field => (field, access.type)
  else none

/-- The uses of fields of an allocation in the order in which a walk has noted them. -/
def namedUses (walk : Walk) (id : NodeId) : List FieldUse :=
  walk.accesses.toList.filterMap (walk.namedUse? id)

theorem fields_accessedRecord (record : EscapeRecord) :
    (walk.accessedRecord id record).fields =
      (walk.namedUses id).foldl (fun fields use => addField use.1 use.2 fields) record.fields := by
  rw [accessedRecord, namedUses, List.foldl_filterMap]
  induction walk.accesses.toList generalizing record with
  | nil => rfl
  | cons access rest inductionHypothesis =>
      rw [List.foldl_cons, List.foldl_cons, inductionHypothesis, namedUse?]
      split
      next =>
        rw [EscapeRecord.access]
        cases access.field with
        | none => rfl
        | some field => rfl
      next => rfl

theorem fields_settledRecord (record : EscapeRecord) :
    (walk.settledRecord id record).fields = (walk.accessedRecord id record).fields := by
  have sunk : (walk.sunkRecord id record).fields = (walk.accessedRecord id record).fields := by
    rw [sunkRecord]
    refine List.foldlRecOn (motive := fun found : EscapeRecord =>
      found.fields = (walk.accessedRecord id record).fields) _ _ rfl fun found same sink _ => ?_
    split
    next => exact (fields_escalate _ _ _ _).trans same
    next => exact same
  rw [settledRecord]
  split
  next => exact (fields_escalate _ _ _ _).trans sunk
  next => exact sunk

/-- No field has been recorded when a walk over a tree is over. -/
theorem fields_ofTree {config : Config} {tree : Tree} {levels : Nat} {record : EscapeRecord}
    (found : (ofTree config tree levels).records.find? id = some record) : record.fields = [] := by
  obtain ⟨_, making, stems⟩ := ofTree_rooted config tree levels id record found
  obtain ⟨_, -, -, rfl⟩ := stems.makes
  exact (Walker.blank_siteRecord _ _ _ _ _ _).2.2

end Walk

namespace Analysis

open EscapeRecord

/-- The fields of a record are those of the accesses to its object. -/
theorem fields_of_find? {config : Config} {tree : Tree} {id : NodeId} {record : EscapeRecord}
    (found : (ofTree config tree).records.find? id = some record) :
    record.fields = usedFields ((Walk.ofTree config tree depthLimit).namedUses id) := by
  have sound := (Walk.ofTree_accounts config tree depthLimit).sound
  rw [ofTree, find?_ofWalk_eq, sound.find?_settle, Option.map_map] at found
  obtain ⟨first, foundFirst, rfl⟩ := Option.map_eq_some_iff.1 found
  have final : ∀ graph settled, (finalRecord config graph settled).fields = settled.fields :=
    fun _ settled => Propagation.fields_raise settled
  rw [Function.comp_apply, final, Walk.fields_settledRecord, Walk.fields_accessedRecord,
    Walk.fields_ofTree foundFirst, usedFields]

/-- Uses that are recorded one after the other, from no fields on, give the list of first uses, and
the fields of a record after an analysis are the list of the named accesses to its object. -/
theorem fields_firstUses :
    (∀ (record : EscapeRecord) (uses : List FieldUse), record.fields = [] →
      record.recordUses uses = { record with fields := usedFields uses } ∧
        FirstUses uses (record.recordUses uses).fields) ∧
    ∀ (config : Config) (tree : Tree) (id : NodeId) (record : EscapeRecord),
      (ofTree config tree).records.find? id = some record →
        record.fields = usedFields ((Walk.ofTree config tree depthLimit).namedUses id) ∧
          FirstUses ((Walk.ofTree config tree depthLimit).namedUses id) record.fields := by
  constructor
  · intro record uses fresh
    have recorded : record.recordUses uses = { record with fields := usedFields uses } := by
      rw [recordUses_eq, fresh, usedFields]
    refine ⟨recorded, ?_⟩
    rw [recorded]
    exact firstUses_usedFields uses
  · intro config tree id record found
    have fields := fields_of_find? found
    refine ⟨fields, ?_⟩
    rw [fields]
    exact firstUses_usedFields _

/-- An object is stored in one variable and copied to another; a field is read through the copy, and
then that field and another one are written through the first variable. -/
def copiedPoint : Tree where
  root := ⟨0⟩
  strings := .ofList ["point", "Point", "copy", "x", "y"]
  nodes := #[⟨.root [⟨1⟩, ⟨4⟩, ⟨7⟩, ⟨8⟩, ⟨11⟩], none⟩, ⟨.assignment ⟨2⟩ ⟨3⟩, none⟩,
    ⟨.var ⟨0⟩, none⟩, ⟨.objectInstantiation ⟨1⟩ [], none⟩, ⟨.assignment ⟨5⟩ ⟨6⟩, none⟩,
    ⟨.var ⟨2⟩, none⟩, ⟨.var ⟨0⟩, none⟩, ⟨.propertyAccess ⟨5⟩ ⟨3⟩, none⟩,
    ⟨.assignment ⟨9⟩ ⟨10⟩, none⟩, ⟨.propertyAccess ⟨2⟩ ⟨4⟩, none⟩, ⟨.literal .null, none⟩,
    ⟨.assignment ⟨12⟩ ⟨13⟩, none⟩, ⟨.propertyAccess ⟨2⟩ ⟨3⟩, none⟩, ⟨.literal (.bool true), none⟩]

theorem fields_firstUses_copiedPoint :
    let uses : List FieldUse := [("x", .unknown), ("y", .null), ("x", .bool)]
    let fields : List ScalarField := [⟨"x", .bool, 0, 0⟩, ⟨"y", .null, 1, 8⟩]
    ((EscapeRecord.new 0 .object 64 true).recordUses uses).fields = fields ∧
      FirstUses uses fields ∧
      ∃ record, (ofTree {} copiedPoint).records.find? 0 = some record ∧
        (Walk.ofTree {} copiedPoint depthLimit).namedUses 0 = uses ∧ record.fields = fields := by
  intro uses fields
  have recorded := (fields_firstUses.1 (EscapeRecord.new 0 .object 64 true) uses rfl)
  have same : ((EscapeRecord.new 0 .object 64 true).recordUses uses).fields = fields := by decide
  have noted : (Walk.ofTree {} copiedPoint depthLimit).namedUses 0 = uses := by cbv
  have known : ((ofTree {} copiedPoint).records.find? 0).isSome = true := by cbv
  obtain ⟨record, found⟩ := Option.isSome_iff_exists.1 known
  have listed := (fields_firstUses.2 {} copiedPoint 0 record found).1
  rw [noted] at listed
  exact ⟨same, same ▸ recorded.2, record, found, noted, listed⟩

end Analysis

end EscapePlan
