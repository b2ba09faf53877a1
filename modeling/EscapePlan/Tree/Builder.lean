import EscapePlan.Tree.Basic

/-!
# Building syntax trees

A builder holds the nodes and names of a tree under construction and the line that
new nodes are stamped with.  Every construction appends its nodes to the arena and
answers the index of the last one, so the children of a node come before it.
-/

namespace EscapePlan

/-- A tree under construction. -/
structure TreeBuilder where
  nodes : Array TreeNode
  strings : StringPool
  /-- The line of new nodes; zero leaves them without a position. -/
  line : UInt32
  deriving Inhabited

/-- A construction step. -/
abbrev Build := StateM TreeBuilder

namespace TreeBuilder

/-- The builder that holds nothing yet. -/
def empty : TreeBuilder :=
  ⟨#[], StringPool.empty, 0⟩

/-- Stamps the following nodes with a line, in its first column. -/
def atLine (line : UInt32) : Build Unit :=
  modify fun builder => { builder with line }

/-- The position of new nodes. -/
def span (builder : TreeBuilder) : Option Position :=
  if builder.line = 0 then none else some ⟨builder.line, 1⟩

/-- Appends a node. -/
def push (data : NodeData) : Build NodeIndex :=
  modifyGet fun builder =>
    (NodeIndex.ofNat builder.nodes.size,
      { builder with nodes := builder.nodes.push ⟨data, builder.span⟩ })

/-- The id of a name. -/
def intern (name : String) : Build StrId :=
  modifyGet fun builder =>
    let (id, strings) := builder.strings.intern name
    (id, { builder with strings })

/-- A read of a variable. -/
def var (name : String) : Build NodeIndex := do
  push (.var (← intern name))

/-- A literal other than a string. -/
def literal (value : Literal) : Build NodeIndex :=
  push (.literal value)

/-- A string literal. -/
def string (value : String) : Build NodeIndex := do
  push (.literal (.string (← intern value)))

/-- An instantiation of a class. -/
def newObject (className : String) (args : List NodeIndex) : Build NodeIndex := do
  push (.objectInstantiation (← intern className) args)

/-- An array literal. -/
def array (elements : List NodeIndex) : Build NodeIndex :=
  push (.arrayInit elements)

/-- An assignment. -/
def assign (target value : NodeIndex) : Build NodeIndex :=
  push (.assignment target value)

/-- An assignment to a variable. -/
def assignVariable (name : String) (value : NodeIndex) : Build NodeIndex := do
  assign (← var name) value

/-- An access to a property. -/
def property (object : NodeIndex) (name : String) : Build NodeIndex := do
  push (.propertyAccess object (← intern name))

/-- An access to a property of a variable. -/
def variableProperty (variableName propertyName : String) : Build NodeIndex := do
  property (← var variableName) propertyName

/-- An access to an element. -/
def element (array : NodeIndex) (index : Option NodeIndex) : Build NodeIndex :=
  push (.arrayAccess array index)

/-- A call of a function. -/
def call (name : String) (args : List NodeIndex) : Build NodeIndex := do
  push (.functionCall (← intern name) args)

/-- A call of a method. -/
def methodCall (object : NodeIndex) (name : String) (args : List NodeIndex) :
    Build NodeIndex := do
  push (.methodCall object (← intern name) args)

/-- A return statement. -/
def returnStmt (value : Option NodeIndex) : Build NodeIndex :=
  push (.returnStmt value)

/-- A throw statement. -/
def throwStmt (value : NodeIndex) : Build NodeIndex :=
  push (.throwStmt value)

/-- A block of statements. -/
def block (statements : List NodeIndex) : Build NodeIndex :=
  push (.block statements)

/-- A function declaration, after the block that is its body. -/
def function (name : String) (params : List String) (body : List NodeIndex) :
    Build NodeIndex := do
  let name ← intern name
  let params ← params.mapM intern
  push (.functionDecl name params (← block body))

/-- A closure, after the block that is its body. -/
def closure (params captures : List String) (body : List NodeIndex) : Build NodeIndex := do
  let params ← params.mapM intern
  let captures ← captures.mapM intern
  push (.closure params captures (← block body))

/-- A conditional, after the blocks that are its branches. -/
def ifStmt (condition : NodeIndex) (thenBody : List NodeIndex)
    (elseBody : Option (List NodeIndex)) : Build NodeIndex := do
  let thenBranch ← block thenBody
  match elseBody with
  | none => push (.ifStmt condition thenBranch none)
  | some statements => push (.ifStmt condition thenBranch (some (← block statements)))

/-- A conditional loop, after the block that is its body. -/
def whileStmt (condition : NodeIndex) (body : List NodeIndex) : Build NodeIndex := do
  push (.whileStmt condition (← block body))

/-- A counting loop, after the block that is its body. -/
def forStmt (init : List NodeIndex) (condition : Option NodeIndex) (update : List NodeIndex)
    (body : List NodeIndex) : Build NodeIndex := do
  push (.forStmt init condition update (← block body))

/-- A loop over the elements of an array, after the block that is its body. -/
def foreachStmt (iterable : NodeIndex) (key : Option String) (value : String)
    (body : List NodeIndex) : Build NodeIndex := do
  let key ← match key with
    | none => pure none
    | some key => some <$> intern key
  let value ← intern value
  push (.foreachStmt iterable key value (← block body))

/-- A declaration of global names. -/
def global (names : List String) : Build NodeIndex := do
  push (.global (← names.mapM intern))

/-- A node of no particular kind. -/
def other : Build NodeIndex :=
  push .other

/-- Wraps statements into the root and ends the construction. -/
def finish (statements : List NodeIndex) (builder : TreeBuilder) : Tree :=
  let (root, builder) := (push (.root statements)).run builder
  ⟨root, builder.strings, builder.nodes⟩

end TreeBuilder

end EscapePlan
