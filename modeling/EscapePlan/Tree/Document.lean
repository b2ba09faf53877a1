import EscapePlan.Tree.Variant
import EscapePlan.Json.Printer

/-!
# Syntax trees as JSON texts

A tree is an object of its root, its names and its nodes; a node is an object of its
data and, if it has a position, its span.  `Tree.toText` writes that form and
`Tree.ofText` reads it.  Reading accepts more than what is written: members in any
order, unknown members, missing members with a fallback, and arrays in place of
objects.
-/

namespace EscapePlan

namespace Position

/-- A position as a JSON object. -/
def toJson (position : Position) : Json :=
  .object [("line", .natural position.line.toNat), ("column", .natural position.column.toNat)]

/-- The shape of a position. -/
def shape : Shape Position where
  title := "struct Position"
  fields := .cons ⟨"line", Draft.decodeUInt32, none⟩ <|
    .cons ⟨"column", Draft.decodeUInt32, none⟩ .nil
  build := fun (line, column, ()) => ⟨line, column⟩

end Position

namespace TreeNode

/-- A node as a JSON object. -/
def toJson (node : TreeNode) : Json :=
  .object (("data", node.data.toJson) ::
    node.span.toList.map fun position => ("span", position.toJson))

/-- The shape of a node. -/
def shape : Shape TreeNode where
  title := "struct AstNode"
  fields := .cons ⟨"data", NodeData.decode, none⟩ <|
    .cons ⟨"span", Draft.decodeOption Position.shape.decode, some none⟩ .nil
  build := fun (data, span, ()) => ⟨data, span⟩

end TreeNode

namespace StringPool

/-- A pool as a JSON array. -/
def toJson (pool : StringPool) : Json :=
  .array (pool.toList.map .text)

/-- Reads a pool. -/
def decode : Decoder StringPool :=
  fun draft => (draft.decodeList (Draft.decodeText "a string")).map ofList

end StringPool

namespace Tree

/-- A tree as a JSON object. -/
def toJson (tree : Tree) : Json :=
  .object [("root", tree.root.toJson), ("strings", tree.strings.toJson),
    ("nodes", .array (tree.nodes.toList.map TreeNode.toJson))]

/-- The shape of a tree. -/
def shape : Shape Tree where
  title := "struct Ast"
  fields := .cons ⟨"root", NodeIndex.decode, none⟩ <|
    .cons ⟨"strings", StringPool.decode, some .empty⟩ <|
    .cons ⟨"nodes", Draft.decodeList TreeNode.shape.decode, none⟩ .nil
  build := fun (root, strings, nodes, ()) => ⟨root, strings, nodes.toArray⟩

/-- The JSON text of a tree. -/
def toText (tree : Tree) : String :=
  tree.toJson.print

end Tree

/-- Reads a record from a text, which may hold nothing else. -/
def Shape.ofText {α : Type} (shape : Shape α) (text : String) : Except Fault α := do
  let (draft, whole) := Draft.read text
  let value ← shape.decode draft
  if whole then return value else throw .malformed

/-- Reads a tree from a JSON text. -/
def Tree.ofText (text : String) : Except Fault Tree :=
  Tree.shape.ofText text

end EscapePlan
