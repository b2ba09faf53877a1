import EscapePlan.Tree.Pool

/-!
# Syntax trees

A syntax tree is an arena of nodes that refer to each other by index, the index of
the root, and the pool of names.  Nothing is required of the indices: they may
dangle, be shared or form cycles.
-/

namespace EscapePlan

/-- The index of a node in the arena of a tree. -/
structure NodeIndex where
  val : UInt32
  deriving DecidableEq, Repr, Inhabited

namespace NodeIndex

/-- The index as a position in the arena. -/
def toNat (index : NodeIndex) : Nat :=
  index.val.toNat

/-- The index of an arena position. -/
def ofNat (position : Nat) : NodeIndex :=
  ⟨UInt32.ofNat position⟩

/-- How an index is displayed. -/
def text (index : NodeIndex) : String :=
  "@" ++ toString index.toNat

end NodeIndex

/-- A position in the source text, counted from one. -/
structure Position where
  line : UInt32
  column : UInt32
  deriving DecidableEq, Repr, Inhabited

/-- How a position is displayed. -/
def Position.text (position : Position) : String :=
  toString position.line.toNat ++ ":" ++ toString position.column.toNat

/-- The value of a literal. -/
inductive Literal where
  | null
  | bool (value : Bool)
  | int (value : Int64)
  | float (value : Float)
  | string (value : StrId)
  deriving BEq, Repr, Inhabited

/-- What a node of a syntax tree stands for. -/
inductive NodeData where
  | root (statements : List NodeIndex)
  | block (statements : List NodeIndex)
  | functionDecl (name : StrId) (params : List StrId) (body : NodeIndex)
  | assignment (target value : NodeIndex)
  | objectInstantiation (className : StrId) (args : List NodeIndex)
  | arrayInit (elements : List NodeIndex)
  | returnStmt (value : Option NodeIndex)
  | functionCall (name : StrId) (args : List NodeIndex)
  | methodCall (object : NodeIndex) (method : StrId) (args : List NodeIndex)
  | propertyAccess (object : NodeIndex) (property : StrId)
  /-- An element access; without an index it appends. -/
  | arrayAccess (array : NodeIndex) (index : Option NodeIndex)
  | closure (params captures : List StrId) (body : NodeIndex)
  | var (name : StrId)
  | ifStmt (condition thenBranch : NodeIndex) (elseBranch : Option NodeIndex)
  | whileStmt (condition body : NodeIndex)
  | forStmt (init : List NodeIndex) (condition : Option NodeIndex) (update : List NodeIndex)
      (body : NodeIndex)
  | foreachStmt (iterable : NodeIndex) (key : Option StrId) (value : StrId) (body : NodeIndex)
  | throwStmt (value : NodeIndex)
  | literal (value : Literal)
  /-- Declares names to be global inside a function body. -/
  | global (names : List StrId)
  /-- Anything the analysis has no rule for. -/
  | other
  deriving BEq, Repr, Inhabited

/-- The name of a node's kind in serialized trees. -/
def NodeData.tag : NodeData → String
  | .root .. => "root"
  | .block .. => "block"
  | .functionDecl .. => "function_decl"
  | .assignment .. => "assignment"
  | .objectInstantiation .. => "object_instantiation"
  | .arrayInit .. => "array_init"
  | .returnStmt .. => "return_stmt"
  | .functionCall .. => "function_call"
  | .methodCall .. => "method_call"
  | .propertyAccess .. => "property_access"
  | .arrayAccess .. => "array_access"
  | .closure .. => "closure"
  | .var .. => "variable"
  | .ifStmt .. => "if_stmt"
  | .whileStmt .. => "while_stmt"
  | .forStmt .. => "for_stmt"
  | .foreachStmt .. => "foreach_stmt"
  | .throwStmt .. => "throw_stmt"
  | .literal .. => "literal"
  | .global .. => "global"
  | .other => "other"

/-- A node of a syntax tree: what it stands for, and where it stands. -/
structure TreeNode where
  data : NodeData
  span : Option Position
  deriving BEq, Repr, Inhabited

/-- A syntax tree. -/
structure Tree where
  root : NodeIndex
  strings : StringPool
  nodes : Array TreeNode
  deriving BEq, Repr, Inhabited

namespace Tree

/-- The node at an index, unless the index dangles. -/
def get? (tree : Tree) (index : NodeIndex) : Option TreeNode :=
  tree.nodes[index.toNat]?

/-- What the node at an index stands for, unless the index dangles. -/
def data? (tree : Tree) (index : NodeIndex) : Option NodeData :=
  (tree.get? index).map (·.data)

/-- The text of a name; a question mark stands for an unknown name. -/
def name (tree : Tree) (id : StrId) : String :=
  (tree.strings.resolve? id).getD "?"

/-- The number of nodes. -/
def size (tree : Tree) : Nat :=
  tree.nodes.size

end Tree

end EscapePlan
