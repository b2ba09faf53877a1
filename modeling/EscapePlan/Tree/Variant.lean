import EscapePlan.Tree.Basic
import EscapePlan.Json.Shape
import EscapePlan.Json.Value

/-!
# Node data in JSON texts

Node data is an object whose member `tag` says which construct it is, or an array
that begins with the tag; the other members or items are the fields of the
construct.  `NodeData.toJson` writes the object, tag first, and `NodeData.decode`
reads either notation.

The whole value is taken in before its fields are looked at, since the tag may come
last.  An unknown tag denotes `NodeData.other`, whatever fields come with it.
-/

namespace EscapePlan

namespace NodeIndex

/-- An index as a JSON integer. -/
def toJson (index : NodeIndex) : Json :=
  .natural index.toNat

/-- Reads an index. -/
def decode : Decoder NodeIndex :=
  fun draft => draft.decodeUInt32.map NodeIndex.mk

end NodeIndex

namespace StrId

/-- The id of a name as a JSON integer. -/
def toJson (id : StrId) : Json :=
  .natural id.toNat

/-- Reads the id of a name. -/
def decode : Decoder StrId :=
  fun draft => draft.decodeUInt32.map StrId.mk

end StrId

namespace Literal

/-- The kinds of literals. -/
def kinds : List String :=
  ["null", "bool", "int", "float", "string"]

/-- A literal as a JSON value: the name of its kind, alone or with its content. -/
def toJson : Literal → Json
  | .null => .text "null"
  | .bool value => .object [("bool", .bool value)]
  | .int value => .object [("int", .integer value.toInt)]
  | .float value => .object [("float", .float value)]
  | .string value => .object [("string", value.toJson)]

/-- Reads the content of a literal that has none to speak of. -/
def decodeUnit : Decoder Unit
  | .null => .ok ()
  | .object [] true => .ok ()
  | draft => .error (draft.mismatch "unit")

/-- Reads a literal that is given by the name of its kind alone. -/
def ofKind (kind : String) : Except Fault Literal :=
  if kind = "null" then .ok .null
  else if kinds.contains kind then .error (.invalidType .unitVariant "newtype variant")
  else .error (.unknownVariant kind kinds)

/-- Reads a literal that is given by the name of its kind and its content. -/
def ofMember (kind : String) (content : Draft) : Except Fault Literal :=
  if kind = "null" then (decodeUnit content).map fun () => .null
  else if kind = "bool" then content.decodeBool.map .bool
  else if kind = "int" then content.decodeInt64.map .int
  else if kind = "float" then content.decodeFloat.map .float
  else if kind = "string" then (StrId.decode content).map .string
  else .error (.unknownVariant kind kinds)

/-- Reads a literal. -/
def decode : Decoder Literal
  | .text (some kind) => ofKind kind
  | .object [(some kind, content)] _ => ofMember kind content
  | .object _ _ => .error (.invalidValue .map "map with a single key")
  | draft => .error (draft.mismatch "string or map")

end Literal

namespace NodeData

/-- A field that holds a node. -/
def nodeField (name : String) : Field NodeIndex :=
  ⟨name, NodeIndex.decode, none⟩

/-- A field that holds a node or nothing. -/
def nodeField? (name : String) : Field (Option NodeIndex) :=
  ⟨name, Draft.decodeOption NodeIndex.decode, some none⟩

/-- A field that holds nodes and must be present. -/
def requiredNodesField (name : String) : Field (List NodeIndex) :=
  ⟨name, Draft.decodeList NodeIndex.decode, none⟩

/-- A field that holds nodes, none when it is missing. -/
def nodesField (name : String) : Field (List NodeIndex) :=
  ⟨name, Draft.decodeList NodeIndex.decode, some []⟩

/-- A field that holds a name. -/
def nameField (name : String) : Field StrId :=
  ⟨name, StrId.decode, none⟩

/-- A field that holds a name or nothing. -/
def nameField? (name : String) : Field (Option StrId) :=
  ⟨name, Draft.decodeOption StrId.decode, some none⟩

/-- A field that holds names and must be present. -/
def requiredNamesField (name : String) : Field (List StrId) :=
  ⟨name, Draft.decodeList StrId.decode, none⟩

/-- A field that holds names, none when it is missing. -/
def namesField (name : String) : Field (List StrId) :=
  ⟨name, Draft.decodeList StrId.decode, some []⟩

/-- A field that holds a literal. -/
def literalField (name : String) : Field Literal :=
  ⟨name, Literal.decode, none⟩

/-- What messages call a construct. -/
def variantTitle (name : String) : String :=
  "struct variant NodeData::" ++ name

/-- The shape of the construct that a tag names, unless the tag is unknown. -/
def shape? (tag : String) : Option (Shape NodeData) :=
  match tag with
  | "root" => some
      { title := variantTitle "Root"
        fields := .cons (requiredNodesField "statements") .nil
        build := fun (statements, ()) => .root statements }
  | "block" => some
      { title := variantTitle "Block"
        fields := .cons (requiredNodesField "statements") .nil
        build := fun (statements, ()) => .block statements }
  | "function_decl" => some
      { title := variantTitle "FunctionDecl"
        fields := .cons (nameField "name") <| .cons (namesField "params") <|
          .cons (nodeField "body") .nil
        build := fun (name, params, body, ()) => .functionDecl name params body }
  | "assignment" => some
      { title := variantTitle "Assignment"
        fields := .cons (nodeField "target") <| .cons (nodeField "value") .nil
        build := fun (target, value, ()) => .assignment target value }
  | "object_instantiation" => some
      { title := variantTitle "ObjectInstantiation"
        fields := .cons (nameField "class_name") <| .cons (nodesField "args") .nil
        build := fun (className, args, ()) => .objectInstantiation className args }
  | "array_init" => some
      { title := variantTitle "ArrayInit"
        fields := .cons (nodesField "elements") .nil
        build := fun (elements, ()) => .arrayInit elements }
  | "return_stmt" => some
      { title := variantTitle "ReturnStmt"
        fields := .cons (nodeField? "value") .nil
        build := fun (value, ()) => .returnStmt value }
  | "function_call" => some
      { title := variantTitle "FunctionCall"
        fields := .cons (nameField "name") <| .cons (nodesField "args") .nil
        build := fun (name, args, ()) => .functionCall name args }
  | "method_call" => some
      { title := variantTitle "MethodCall"
        fields := .cons (nodeField "object") <| .cons (nameField "method") <|
          .cons (nodesField "args") .nil
        build := fun (object, method, args, ()) => .methodCall object method args }
  | "property_access" => some
      { title := variantTitle "PropertyAccess"
        fields := .cons (nodeField "object") <| .cons (nameField "property") .nil
        build := fun (object, property, ()) => .propertyAccess object property }
  | "array_access" => some
      { title := variantTitle "ArrayAccess"
        fields := .cons (nodeField "array") <| .cons (nodeField? "index") .nil
        build := fun (array, index, ()) => .arrayAccess array index }
  | "closure" => some
      { title := variantTitle "Closure"
        fields := .cons (namesField "params") <| .cons (namesField "captures") <|
          .cons (nodeField "body") .nil
        build := fun (params, captures, body, ()) => .closure params captures body }
  | "variable" => some
      { title := variantTitle "Variable"
        fields := .cons (nameField "name") .nil
        build := fun (name, ()) => .var name }
  | "if_stmt" => some
      { title := variantTitle "IfStmt"
        fields := .cons (nodeField "condition") <| .cons (nodeField "then_branch") <|
          .cons (nodeField? "else_branch") .nil
        build := fun (condition, thenBranch, elseBranch, ()) =>
          .ifStmt condition thenBranch elseBranch }
  | "while_stmt" => some
      { title := variantTitle "WhileStmt"
        fields := .cons (nodeField "condition") <| .cons (nodeField "body") .nil
        build := fun (condition, body, ()) => .whileStmt condition body }
  | "for_stmt" => some
      { title := variantTitle "ForStmt"
        fields := .cons (nodesField "init") <| .cons (nodeField? "condition") <|
          .cons (nodesField "update") <| .cons (nodeField "body") .nil
        build := fun (init, condition, update, body, ()) =>
          .forStmt init condition update body }
  | "foreach_stmt" => some
      { title := variantTitle "ForeachStmt"
        fields := .cons (nodeField "iterable") <| .cons (nameField? "key") <|
          .cons (nameField "value") <| .cons (nodeField "body") .nil
        build := fun (iterable, key, value, body, ()) =>
          .foreachStmt iterable key value body }
  | "throw_stmt" => some
      { title := variantTitle "ThrowStmt"
        fields := .cons (nodeField "value") .nil
        build := fun (value, ()) => .throwStmt value }
  | "literal" => some
      { title := variantTitle "Literal"
        fields := .cons (literalField "value") .nil
        build := fun (value, ()) => .literal value }
  | "global" => some
      { title := variantTitle "Global"
        fields := .cons (requiredNamesField "names") .nil
        build := fun (names, ()) => .global names }
  | _ => none

/-- Nodes as a JSON array. -/
def nodesToJson (nodes : List NodeIndex) : Json :=
  .array (nodes.map NodeIndex.toJson)

/-- Names as a JSON array. -/
def namesToJson (names : List StrId) : Json :=
  .array (names.map StrId.toJson)

/-- The fields of a construct as they are written. -/
def fieldsToJson : NodeData → List (String × Json)
  | .root statements => [("statements", nodesToJson statements)]
  | .block statements => [("statements", nodesToJson statements)]
  | .functionDecl name params body =>
      [("name", name.toJson), ("params", namesToJson params), ("body", body.toJson)]
  | .assignment target value => [("target", target.toJson), ("value", value.toJson)]
  | .objectInstantiation className args =>
      [("class_name", className.toJson), ("args", nodesToJson args)]
  | .arrayInit elements => [("elements", nodesToJson elements)]
  | .returnStmt value => [("value", .ofOption NodeIndex.toJson value)]
  | .functionCall name args => [("name", name.toJson), ("args", nodesToJson args)]
  | .methodCall object method args =>
      [("object", object.toJson), ("method", method.toJson), ("args", nodesToJson args)]
  | .propertyAccess object property =>
      [("object", object.toJson), ("property", property.toJson)]
  | .arrayAccess array index =>
      [("array", array.toJson), ("index", .ofOption NodeIndex.toJson index)]
  | .closure params captures body =>
      [("params", namesToJson params), ("captures", namesToJson captures),
        ("body", body.toJson)]
  | .var name => [("name", name.toJson)]
  | .ifStmt condition thenBranch elseBranch =>
      [("condition", condition.toJson), ("then_branch", thenBranch.toJson),
        ("else_branch", .ofOption NodeIndex.toJson elseBranch)]
  | .whileStmt condition body => [("condition", condition.toJson), ("body", body.toJson)]
  | .forStmt init condition update body =>
      [("init", nodesToJson init), ("condition", .ofOption NodeIndex.toJson condition),
        ("update", nodesToJson update), ("body", body.toJson)]
  | .foreachStmt iterable key value body =>
      [("iterable", iterable.toJson), ("key", .ofOption StrId.toJson key),
        ("value", value.toJson), ("body", body.toJson)]
  | .throwStmt value => [("value", value.toJson)]
  | .literal value => [("value", value.toJson)]
  | .global names => [("names", namesToJson names)]
  | .other => []

/-- Node data as a JSON object. -/
def toJson (data : NodeData) : Json :=
  .object (("tag", .text data.tag) :: data.fieldsToJson)

/-- What messages call node data. -/
def title : String :=
  "internally tagged enum NodeData"

/-- Reads a tag. -/
def decodeTag : Decoder String :=
  Draft.decodeText "variant identifier"

/-- How deep the containers of a value inside node data may nest. -/
def contentDepth : Nat :=
  123

/-- Whether a value inside node data can be taken in. -/
def takeIn (draft : Draft) : Except Fault Unit :=
  if draft.isComplete contentDepth then .ok () else .error .malformed

/-- Takes in the members of an object: the tag, if one comes, and the fields. -/
def takeMembers : List (Option String × Draft) → Option String →
    Except Fault (Option String × List (Option String × Draft))
  | [], tag => .ok (tag, [])
  | (none, _) :: _, _ => .error .malformed
  | (some name, draft) :: members, tag =>
      if name = "tag" then
        if tag.isSome then .error (.duplicateField "tag")
        else do takeMembers members (some (← decodeTag draft))
      else do
        takeIn draft
        let (tag, fields) ← takeMembers members tag
        return (tag, (some name, draft) :: fields)

/-- Reads the fields of a construct from members that have been taken in. -/
def ofMembers (tag : String) (members : List (Option String × Draft)) : Except Fault NodeData :=
  match shape? tag with
  | none => .ok .other
  | some shape => (shape.fields.readMembers members true).map shape.build

/-- The fault of surplus items. -/
def surplus (given wanted : Nat) : Fault :=
  .invalidLength given (elementCount wanted ++ " in sequence")

/-- Reads the fields of a construct from items that have been taken in. -/
def ofItems (tag : String) (items : List Draft) : Except Fault NodeData :=
  match shape? tag with
  | none => if items.isEmpty then .ok .other else .error (surplus items.length 0)
  | some shape => do
      let (values, rest) ← Fields.readItems shape.expectedLength true 0 shape.fields items
      if rest.isEmpty then return shape.build values
      else throw (surplus items.length shape.fields.count)

/-- Reads node data. -/
def decode : Decoder NodeData
  | .object members closed => do
      let (tag, fields) ← takeMembers members none
      if closed then
        match tag with
        | none => throw (.missingField "tag")
        | some tag => ofMembers tag fields
      else throw .malformed
  | .array [] closed => if closed then .error (.missingField "tag") else .error .malformed
  | .array (first :: items) closed => do
      let tag ← decodeTag first
      items.forM takeIn
      if closed then ofItems tag items else throw .malformed
  | draft => .error (draft.mismatch title)

end NodeData

end EscapePlan
