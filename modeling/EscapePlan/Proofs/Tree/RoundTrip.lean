import EscapePlan.Proofs.Json.Drafts
import EscapePlan.Tree.Document
import Mathlib.Data.List.Induction

/-!
# Trees are read as they are written

Writing a tree as a JSON text and reading the text gives the tree: `Tree.ofText_toText`.  Nothing is
required of the tree but that no literal of it is a double.

`Spells` says that a JSON value is read as some value; what spells the parts of a record spells the
record.

A pool of names is written without the index from names to ids.  `IndexedPool` keeps that index; it
is the same when it is built anew, since an index never says more than where a name is first listed.
-/

namespace EscapePlan

/-- A JSON value is read as a value. -/
structure Spells {α : Type} (json : Json) (decode : Decoder α) (value : α) : Prop where
  exact : json.Exact
  decode_eq : decode json.toDraft = .ok value

/-! ## Records -/

namespace Fields

variable {types : List Type} {fields : Fields types} {values : Values types}
  {members : List (String × Json)}

/-- Members spell the fields of a record in order; one that has a fallback may be missing. -/
inductive Writes : {types : List Type} → Fields types → Values types → List (String × Json) → Prop where
  | nil : Writes .nil () []
  | field {α : Type} {types : List Type} {field : Field α} {fields : Fields types} {value : α}
      {values : Values types} {json : Json} {members : List (String × Json)} :
      Spells json field.decode value → Writes fields values members →
      Writes (.cons field fields) (value, values) ((field.name, json) :: members)
  | missing {α : Type} {types : List Type} {field : Field α} {fields : Fields types} {value : α}
      {values : Values types} {members : List (String × Json)} :
      field.fallback = some value → Writes fields values members →
      Writes (.cons field fields) (value, values) members

theorem Writes.exact (writes : Writes fields values members) : Json.ExactMembers members := by
  induction writes with
  | nil => trivial
  | field spells _ inductionHypothesis => exact ⟨spells.exact, inductionHypothesis⟩
  | missing _ _ inductionHypothesis => exact inductionHypothesis

theorem Writes.mem_names (writes : Writes fields values members) {member : String × Json}
    (listed : member ∈ members) : member.1 ∈ fields.names := by
  induction writes with
  | nil => contradiction
  | field _ _ inductionHypothesis =>
      rcases List.mem_cons.1 listed with rfl | later
      · exact List.mem_cons_self
      · exact List.mem_cons_of_mem _ (inductionHypothesis later)
  | missing _ _ inductionHypothesis => exact List.mem_cons_of_mem _ (inductionHypothesis listed)

/-- Members of other names pass a field by. -/
theorem offerAll_cons_of_ne {α : Type} {field : Field α} (others : ∀ member ∈ members, member.1 ≠ field.name)
    (slot : Option α) (slots : Slots types) :
    (Fields.cons field fields).offerAll (Json.draftsOfMembers members) (slot, slots) =
      (fields.offerAll (Json.draftsOfMembers members) slots).map fun slots => (slot, slots) := by
  induction members generalizing slots with
  | nil => rfl
  | cons member members inductionHypothesis =>
      obtain ⟨name, json⟩ := member
      obtain ⟨other, others⟩ := List.forall_mem_cons.1 others
      rw [Json.draftsOfMembers, offerAll, offerAll, offer, if_neg other]
      cases fields.offer name json.toDraft slots with
      | error fault => rfl
      | ok slots => exact inductionHypothesis others slots

/-- Members in order are put into the slots of their fields. -/
theorem Writes.exists_offerAll (writes : Writes fields values members) (distinct : fields.names.Nodup) :
    ∃ slots, fields.offerAll (Json.draftsOfMembers members) fields.vacant = .ok slots ∧
      fields.settle slots = .ok values := by
  induction writes with
  | nil => exact ⟨(), rfl, rfl⟩
  | @field _ _ field fields value values json members spells writes inductionHypothesis =>
      rw [names, List.nodup_cons] at distinct
      obtain ⟨slots, offered, settled⟩ := inductionHypothesis distinct.2
      have others : ∀ member ∈ members, member.1 ≠ field.name := fun member listed same =>
        distinct.1 (same ▸ writes.mem_names listed)
      refine ⟨(some value, slots), ?_, ?_⟩
      · rw [Json.draftsOfMembers, offerAll, vacant, offer, if_pos rfl, spells.decode_eq]
        refine (offerAll_cons_of_ne others (some value) fields.vacant).trans ?_
        rw [offered]
        rfl
      · simp [settle, settled, Except.map]
  | @missing _ _ field fields value values members fallback writes inductionHypothesis =>
      rw [names, List.nodup_cons] at distinct
      obtain ⟨slots, offered, settled⟩ := inductionHypothesis distinct.2
      have others : ∀ member ∈ members, member.1 ≠ field.name := fun member listed same =>
        distinct.1 (same ▸ writes.mem_names listed)
      refine ⟨(none, slots), ?_, ?_⟩
      · rw [vacant, offerAll_cons_of_ne others, offered]
        rfl
      · simp [settle, fallback, settled, Except.map]

theorem Writes.readMembers (writes : Writes fields values members) (distinct : fields.names.Nodup) :
    fields.readMembers (Json.draftsOfMembers members) true = .ok values := by
  obtain ⟨slots, offered, settled⟩ := writes.exists_offerAll distinct
  rw [Fields.readMembers, offered]
  exact settled

end Fields

/-- What spells the fields of a record spells the record. -/
theorem Shape.spells {α : Type} (shape : Shape α) {values : Fields.Values shape.types}
    {members : List (String × Json)} (writes : shape.fields.Writes values members)
    (distinct : shape.fields.names.Nodup) :
    Spells (.object members) shape.decode (shape.build values) where
  exact := writes.exact
  decode_eq := by
    rw [Json.toDraft, Shape.decode, writes.readMembers distinct]
    rfl

/-! ## Numbers, lists and options -/

theorem exact_natural {value : Nat} (small : value < UInt64.size) : (Json.natural value).Exact := by
  simp only [Json.natural, Json.Exact, lowestInt64]
  omega

theorem spells_uint32 (value : UInt32) :
    Spells (.natural value.toNat) Draft.decodeUInt32 value where
  exact := exact_natural (Nat.lt_trans value.toNat_lt (by decide))
  decode_eq := by
    have bound := value.toNat_lt
    simp only [Json.natural, Json.toDraft, Draft.decodeUInt32, Draft.decodeInteger]
    rw [if_pos (by omega)]
    simp [Except.map]

theorem NodeIndex.spells (index : NodeIndex) : Spells index.toJson NodeIndex.decode index where
  exact := (spells_uint32 index.val).exact
  decode_eq := by
    rw [NodeIndex.decode, NodeIndex.toJson, NodeIndex.toNat, (spells_uint32 index.val).decode_eq]
    rfl

theorem StrId.spells (id : StrId) : Spells id.toJson StrId.decode id where
  exact := (spells_uint32 id.val).exact
  decode_eq := by
    rw [StrId.decode, StrId.toJson, StrId.toNat, (spells_uint32 id.val).decode_eq]
    rfl

/-- An integer fits into sixty-four bits. -/
theorem spells_int64 (value : Int64) : Spells (.integer value.toInt) Draft.decodeInt64 value := by
  have lowest := value.le_toInt
  have highest := value.toInt_lt
  have inRange : lowestInt64 ≤ value.toInt ∧ value.toInt ≤ highestInt64 := by
    simp only [lowestInt64, highestInt64]
    omega
  constructor
  · refine ⟨inRange.1, ?_⟩
    simp only [UInt64.size]
    omega
  · rw [Json.toDraft, Draft.decodeInt64, Draft.decodeInteger, if_pos inRange]
    exact congrArg Except.ok value.ofInt_toInt

section

variable {α : Type} {encode : α → Json} {decode : Decoder α}

/-- A list is spelt item by item. -/
theorem spells_list {values : List α} (each : ∀ value ∈ values, Spells (encode value) decode value) :
    Spells (.array (values.map encode)) (Draft.decodeList decode) values := by
  have items : Json.ExactItems (values.map encode) ∧
      (Json.draftsOfItems (values.map encode)).mapM decode = .ok values := by
    induction values with
    | nil => exact ⟨trivial, rfl⟩
    | cons value values inductionHypothesis =>
        obtain ⟨spells, each⟩ := List.forall_mem_cons.1 each
        obtain ⟨exact, decoded⟩ := inductionHypothesis each
        refine ⟨⟨spells.exact, exact⟩, ?_⟩
        rw [List.map_cons, Json.draftsOfItems, List.mapM_cons, spells.decode_eq, decoded]
        rfl
  refine ⟨items.1, ?_⟩
  rw [Json.toDraft, Draft.decodeList, items.2]
  rfl

theorem spells_option {value : Option α} (each : ∀ inner ∈ value, Spells (encode inner) decode inner)
    (visible : ∀ inner, (encode inner).toDraft ≠ .null) :
    Spells (.ofOption encode value) (Draft.decodeOption decode) value := by
  cases value with
  | none => exact ⟨trivial, rfl⟩
  | some inner =>
      have spells := each inner rfl
      refine ⟨spells.exact, ?_⟩
      rw [Json.ofOption, Draft.decodeOption, spells.decode_eq]
      · rfl
      · exact visible inner

end

theorem spells_text (expected text : String) :
    Spells (.text text) (Draft.decodeText expected) text :=
  ⟨trivial, rfl⟩

namespace NodeData

theorem spells_nodes (nodes : List NodeIndex) :
    Spells (nodesToJson nodes) (Draft.decodeList NodeIndex.decode) nodes :=
  spells_list fun index _ => index.spells

theorem spells_names (names : List StrId) :
    Spells (namesToJson names) (Draft.decodeList StrId.decode) names :=
  spells_list fun id _ => id.spells

theorem spells_node? (node : Option NodeIndex) :
    Spells (.ofOption NodeIndex.toJson node) (Draft.decodeOption NodeIndex.decode) node :=
  spells_option (fun index _ => index.spells) nofun

theorem spells_name? (name : Option StrId) :
    Spells (.ofOption StrId.toJson name) (Draft.decodeOption StrId.decode) name :=
  spells_option (fun id _ => id.spells) nofun

/-! ## Literals -/

theorem spells_literal {value : Literal} (noFloat : ∀ double, value ≠ .float double) :
    Spells value.toJson Literal.decode value := by
  cases value with
  | null => exact ⟨trivial, rfl⟩
  | bool value => exact ⟨⟨trivial, trivial⟩, rfl⟩
  | int value =>
      have spells := spells_int64 value
      refine ⟨⟨spells.exact, trivial⟩, ?_⟩
      exact congrArg (Except.map Literal.int) spells.decode_eq
  | float double => exact absurd rfl (noFloat double)
  | string id =>
      refine ⟨⟨id.spells.exact, trivial⟩, ?_⟩
      exact congrArg (Except.map Literal.string) id.spells.decode_eq

/-! ## Node data -/

/-- A value that may stand inside node data. -/
def Kept (json : Json) : Prop :=
  json.toDraft.isComplete contentDepth = true

theorem areComplete_naturals {α : Type} (number : α → Nat) (values : List α) (depth : Nat) :
    Draft.areComplete depth (Json.draftsOfItems (values.map fun value => .natural (number value))) =
      true := by
  induction values with
  | nil => rfl
  | cons value values inductionHypothesis =>
      rw [List.map_cons, Json.draftsOfItems, Draft.areComplete, inductionHypothesis]
      rfl

theorem takeIn_of_kept {json : Json} (kept : Kept json) : takeIn json.toDraft = .ok () :=
  if_pos kept

theorem kept_nodes (nodes : List NodeIndex) : Kept (nodesToJson nodes) := by
  have complete := areComplete_naturals NodeIndex.toNat nodes 122
  simp [Kept, nodesToJson, Json.toDraft, Draft.isComplete, contentDepth]
  exact complete

theorem kept_names (names : List StrId) : Kept (namesToJson names) := by
  have complete := areComplete_naturals StrId.toNat names 122
  simp [Kept, namesToJson, Json.toDraft, Draft.isComplete, contentDepth]
  exact complete

theorem kept_natural (value : Nat) : Kept (.natural value) :=
  rfl

theorem kept_option {α : Type} {encode : α → Json} (each : ∀ value, Kept (encode value))
    (value : Option α) : Kept (.ofOption encode value) := by
  cases value with
  | none => rfl
  | some value => exact each value

theorem kept_literal (value : Literal) : Kept value.toJson := by
  cases value <;> rfl

/-- The fields of node data may all stand inside it. -/
theorem kept_fieldsToJson (data : NodeData) : ∀ member ∈ data.fieldsToJson, Kept member.2 := by
  have index : ∀ index : NodeIndex, Kept index.toJson := fun index => kept_natural index.toNat
  have name : ∀ id : StrId, Kept id.toJson := fun id => kept_natural id.toNat
  cases data <;>
    simp [fieldsToJson, index, name, kept_nodes, kept_names, kept_option index, kept_option name,
      kept_literal]

/-- Fields that may stand inside node data are taken in behind its tag. -/
theorem takeMembers_fields {members : List (String × Json)} (kept : ∀ member ∈ members, Kept member.2)
    (untagged : ∀ member ∈ members, member.1 ≠ "tag") (tag : Option String) :
    takeMembers (Json.draftsOfMembers members) tag = .ok (tag, Json.draftsOfMembers members) := by
  induction members with
  | nil => rfl
  | cons member members inductionHypothesis =>
      obtain ⟨name, json⟩ := member
      obtain ⟨first, kept⟩ := List.forall_mem_cons.1 kept
      obtain ⟨other, untagged⟩ := List.forall_mem_cons.1 untagged
      rw [Json.draftsOfMembers, takeMembers, if_neg other, takeIn_of_kept first,
        inductionHypothesis kept untagged]
      rfl

/-- Node data is spelt by its tag and its fields. -/
theorem spells_of_shape {data : NodeData} {shape : Shape NodeData}
    (shapeEq : shape? data.tag = some shape) {values : Fields.Values shape.types}
    (writes : shape.fields.Writes values data.fieldsToJson) (built : shape.build values = data)
    (distinct : ("tag" :: shape.fields.names).Nodup) : Spells data.toJson decode data where
  exact := ⟨trivial, writes.exact⟩
  decode_eq := by
    rw [List.nodup_cons] at distinct
    have untagged : ∀ member ∈ data.fieldsToJson, member.1 ≠ "tag" := fun member listed same =>
      distinct.1 (same ▸ writes.mem_names listed)
    have taken : takeMembers (Json.draftsOfMembers (("tag", .text data.tag) :: data.fieldsToJson))
        none = .ok (some data.tag, Json.draftsOfMembers data.fieldsToJson) := by
      rw [Json.draftsOfMembers, takeMembers, if_pos rfl]
      exact takeMembers_fields data.kept_fieldsToJson untagged (some data.tag)
    have read : ofMembers data.tag (Json.draftsOfMembers data.fieldsToJson) = .ok data := by
      rw [ofMembers, shapeEq]
      dsimp only
      rw [writes.readMembers distinct.2, Except.map, built]
    rw [toJson, Json.toDraft, decode, taken]
    exact read

open Fields.Writes in
/-- Node data without a double is read as it is written. -/
theorem spells {data : NodeData} (noFloat : ∀ double, data ≠ .literal (.float double)) :
    Spells data.toJson decode data := by
  cases data with
  | root statements =>
      exact spells_of_shape rfl (field (spells_nodes statements) nil) rfl (by decide)
  | block statements =>
      exact spells_of_shape rfl (field (spells_nodes statements) nil) rfl (by decide)
  | functionDecl name params body =>
      exact spells_of_shape rfl (field name.spells (field (spells_names params)
        (field body.spells nil))) rfl (by decide)
  | assignment target value =>
      exact spells_of_shape rfl (field target.spells (field value.spells nil)) rfl (by decide)
  | objectInstantiation className args =>
      exact spells_of_shape rfl (field className.spells (field (spells_nodes args) nil)) rfl
        (by decide)
  | arrayInit elements =>
      exact spells_of_shape rfl (field (spells_nodes elements) nil) rfl (by decide)
  | returnStmt value =>
      exact spells_of_shape rfl (field (spells_node? value) nil) rfl (by decide)
  | functionCall name args =>
      exact spells_of_shape rfl (field name.spells (field (spells_nodes args) nil)) rfl (by decide)
  | methodCall object method args =>
      exact spells_of_shape rfl (field object.spells (field method.spells
        (field (spells_nodes args) nil))) rfl (by decide)
  | propertyAccess object property =>
      exact spells_of_shape rfl (field object.spells (field property.spells nil)) rfl (by decide)
  | arrayAccess array index =>
      exact spells_of_shape rfl (field array.spells (field (spells_node? index) nil)) rfl
        (by decide)
  | closure params captures body =>
      exact spells_of_shape rfl (field (spells_names params) (field (spells_names captures)
        (field body.spells nil))) rfl (by decide)
  | var name => exact spells_of_shape rfl (field name.spells nil) rfl (by decide)
  | ifStmt condition thenBranch elseBranch =>
      exact spells_of_shape rfl (field condition.spells (field thenBranch.spells
        (field (spells_node? elseBranch) nil))) rfl (by decide)
  | whileStmt condition body =>
      exact spells_of_shape rfl (field condition.spells (field body.spells nil)) rfl (by decide)
  | forStmt init condition update body =>
      exact spells_of_shape rfl (field (spells_nodes init) (field (spells_node? condition)
        (field (spells_nodes update) (field body.spells nil)))) rfl (by decide)
  | foreachStmt iterable key value body =>
      exact spells_of_shape rfl (field iterable.spells (field (spells_name? key)
        (field value.spells (field body.spells nil)))) rfl (by decide)
  | throwStmt value => exact spells_of_shape rfl (field value.spells nil) rfl (by decide)
  | literal value =>
      have plain : ∀ double, value ≠ .float double := fun double same =>
        noFloat double (congrArg NodeData.literal same)
      exact spells_of_shape rfl (field (spells_literal plain) nil) rfl (by decide)
  | global names => exact spells_of_shape rfl (field (spells_names names) nil) rfl (by decide)
  | other => exact ⟨⟨trivial, trivial⟩, rfl⟩

end NodeData

/-! ## Pools -/

/-- A pool of names with an index from the names to their ids. -/
structure IndexedPool where
  names : List String
  index : String → Option StrId

namespace IndexedPool

/-- Lists a name at the end; if it was listed before, it keeps its id. -/
def list (pool : IndexedPool) (name : String) : IndexedPool where
  names := pool.names ++ [name]
  index other :=
    if other = name then (pool.index name).or (some (StrId.ofNat pool.names.length))
    else pool.index other

/-- The pool of some names, with its index built from the first name on. -/
def ofNames (names : List String) : IndexedPool :=
  names.foldl list ⟨[], fun _ => none⟩

/-- The id of a name, which is listed if the index does not know it. -/
def intern (pool : IndexedPool) (name : String) : StrId × IndexedPool :=
  match pool.index name with
  | some id => (id, pool)
  | none => (StrId.ofNat pool.names.length, pool.list name)

/-- The pools that there are: they are built from names, and get further names. -/
inductive Built : IndexedPool → Prop where
  | listed (names : List String) : Built (ofNames names)
  | interned {pool : IndexedPool} (name : String) : Built pool → Built (pool.intern name).2

theorem ofNames_concat (names : List String) (name : String) :
    ofNames (names ++ [name]) = (ofNames names).list name := by
  rw [ofNames, List.foldl_append]
  rfl

theorem names_ofNames (names : List String) : (ofNames names).names = names := by
  induction names using List.reverseRecOn with
  | nil => rfl
  | append_singleton names name inductionHypothesis =>
      rw [ofNames_concat, list, inductionHypothesis]

/-- An index may as well be built anew. -/
theorem Built.eq_ofNames {pool : IndexedPool} (built : pool.Built) : pool = ofNames pool.names := by
  induction built with
  | listed names => rw [names_ofNames]
  | @interned pool name _ inductionHypothesis =>
      rw [IndexedPool.intern]
      split
      next => exact inductionHypothesis
      next =>
        show pool.list name = ofNames (pool.names ++ [name])
        rw [ofNames_concat, ← inductionHypothesis]

theorem find?_concat (names : List String) (last name : String) :
    (StringPool.ofList (names ++ [last])).find? name =
      ((StringPool.ofList names).find? name).or
        (if last = name then some (StrId.ofNat names.length) else none) := by
  rw [StringPool.find?_eq, StringPool.find?_eq, StringPool.toList_ofList, StringPool.toList_ofList,
    List.idxOf_append]
  by_cases known : name ∈ names
  · simp [known]
  · by_cases same : last = name
    · simp [known, same]
    · simp [known, same, Ne.symm same]

/-- The index leads to where a name is first listed. -/
theorem index_ofNames (names : List String) (name : String) :
    (ofNames names).index name = (StringPool.ofList names).find? name := by
  induction names using List.reverseRecOn with
  | nil => rfl
  | append_singleton names last inductionHypothesis =>
      rw [ofNames_concat, list, find?_concat, ← inductionHypothesis]
      by_cases same : name = last
      · simp [same, names_ofNames]
      · simp [same, Ne.symm same]

end IndexedPool

theorem StringPool.spells (pool : StringPool) : Spells pool.toJson StringPool.decode pool := by
  have texts := @spells_list _ .text (Draft.decodeText "a string") pool.toList
    fun text _ => spells_text _ text
  refine ⟨texts.exact, ?_⟩
  rw [StringPool.decode, StringPool.toJson, texts.decode_eq]
  exact congrArg Except.ok pool.ofList_toList

/-! ## Trees -/

open Fields.Writes in
theorem Position.spells (position : Position) :
    Spells position.toJson Position.shape.decode position :=
  Position.shape.spells (field (spells_uint32 position.line)
    (field (spells_uint32 position.column) nil)) (by decide)

open Fields.Writes in
/-- A node without a position is written without a span. -/
theorem TreeNode.spells {node : TreeNode} (noFloat : ∀ double, node.data ≠ .literal (.float double)) :
    Spells node.toJson TreeNode.shape.decode node := by
  obtain ⟨data, span⟩ := node
  have spells := NodeData.spells noFloat
  cases span with
  | none => exact TreeNode.shape.spells (field spells (missing rfl nil)) (by decide)
  | some position =>
      have present := @spells_option _ Position.toJson Position.shape.decode (some position)
        (fun inner _ => inner.spells) nofun
      exact TreeNode.shape.spells (field spells (field present nil)) (by decide)

namespace Tree

/-- No literal of the tree is a double. -/
def NoFloat (tree : Tree) : Prop :=
  ∀ node ∈ tree.nodes, ∀ double, node.data ≠ .literal (.float double)

open Fields.Writes in
theorem spells {tree : Tree} (noFloat : tree.NoFloat) : Spells tree.toJson Tree.shape.decode tree := by
  have nodes := @spells_list _ TreeNode.toJson TreeNode.shape.decode tree.nodes.toList
    fun node listed => TreeNode.spells (noFloat node (Array.mem_toList_iff.1 listed))
  exact Tree.shape.spells (field tree.root.spells (field tree.strings.spells (field nodes nil)))
    (by decide)

/-- A tree without doubles is read as it is written, and its pool has the index that it had. -/
theorem ofText_toText {tree : Tree} (noFloat : tree.NoFloat) :
    ofText tree.toText = .ok tree ∧ ∀ pool : IndexedPool, pool.Built →
      pool.names = tree.strings.toList → IndexedPool.ofNames tree.strings.toList = pool ∧
        ∀ name, pool.index name = tree.strings.find? name := by
  have spells := Tree.spells noFloat
  constructor
  · rw [ofText, Shape.ofText, toText, Draft.read_print spells.exact]
    dsimp only
    rw [spells.decode_eq]
    rfl
  · intro pool built names
    have same := built.eq_ofNames
    rw [names] at same
    refine ⟨same.symm, fun name => ?_⟩
    rw [same, IndexedPool.index_ofNames, StringPool.ofList_toList]

/-- A tree with a name that is listed twice, control characters, extreme integers and indices that
dangle. -/
def assorted : Tree where
  root := ⟨4294967295⟩
  strings := .ofList ["say \"x\\y\"", "\x00\t\n\x1f", "Ünï😀", "say \"x\\y\""]
  nodes := #[⟨.literal (.int Int64.minValue), some ⟨0, 4294967295⟩⟩, ⟨.literal .null, none⟩,
    ⟨.literal (.string ⟨77⟩), none⟩, ⟨.functionDecl ⟨0⟩ [] ⟨2⟩, none⟩,
    ⟨.forStmt [] none [⟨7⟩, ⟨0⟩] ⟨9⟩, none⟩, ⟨.foreachStmt ⟨0⟩ (some ⟨3⟩) ⟨9⟩ ⟨2⟩, some ⟨3, 1⟩⟩,
    ⟨.returnStmt none, none⟩, ⟨.other, none⟩]

theorem ofText_toText_assorted :
    assorted.NoFloat ∧ ofText assorted.toText = .ok assorted ∧
      ∀ name, (IndexedPool.ofNames assorted.strings.toList).index name =
        assorted.strings.find? name := by
  have noFloat : assorted.NoFloat := by simp [NoFloat, assorted]
  obtain ⟨read, pools⟩ := ofText_toText noFloat
  exact ⟨noFloat, read, (pools _ (.listed assorted.strings.toList)
    (IndexedPool.names_ofNames _)).2⟩

end Tree

end EscapePlan
