import EscapePlan.Analysis.Walk

/-!
# Visiting a syntax tree

A visit walks the tree below a node and answers the value that the node produces, if it
produces one.  Nodes are taken in the order of evaluation; what a node does is said in
terms of the visits of its children.

A tree may contain itself, so a walk counts how deep it is and goes down no further than
a limit: `Walker.visitNested`.  What lies deeper is skipped, and the function scope it
belongs to counts as truncated.  `Walker.visit` says the same without the count, by the
levels that are left.
-/

namespace EscapePlan

/-- The deepest nesting that a walk follows. -/
def depthLimit : Nat := 512

namespace Walker

/-- How a child is visited. -/
abbrev Visit := NodeIndex → Walker (Option NodeId)

/-- Visits a function or closure body in a scope and a region of its own, where the
parameters and the captured names are bound.  A captured name may denote what the
value it is captured from denotes. -/
def visitBody (visit : Visit) (params : List StrId) (captures : List (StrId × NodeId × NodeId))
    (body : NodeIndex) (position : Option Position) : Walker Unit := do
  let outer ← get
  modify fun walk => { walk with scopeCount := walk.scopeCount + 1, scope := walk.scopeCount + 1 }
  modifyScopes Scopes.push
  moveTo (← newRegion)
  for param in params do
    let node ← addNode .parameter none position .unknown
    let _ ← defineVariable param node
  for (name, capture, captured) in captures do
    let key ← defineVariable name capture
    addFlow key captured
  let _ ← visit body
  modifyScopes Scopes.pop
  modify fun walk =>
    { walk with scope := outer.scope, block := outer.block, functions := walk.functions + 1 }

/-- Visits a closure: captured names escape into it, and it is an allocation. -/
def visitClosure (config : Config) (visit : Visit) (index : NodeIndex) (params captures : List StrId)
    (body : NodeIndex) (position : Option Position) : Walker NodeId := do
  let bound ← captures.mapM fun name => do
    let captured ← readVariable name index position
    let capture ← addNode .closureCapture (some index) position .unknown
    addSink captured capture .defUse .capturedByClosure position
    return (name, capture, captured)
  let closure ← addAllocation config index position .closure none captures.length
  for (_, capture, _) in bound do
    addEdge capture closure .dataDep
  visitBody visit params bound body position
  return closure

/-- Visits a conditional. -/
def visitIf (visit : Visit) (condition thenBranch : NodeIndex) (elseBranch : Option NodeIndex) :
    Walker Unit := do
  let _ ← visit condition
  let pivot ← currentBlock
  let _ ← branchFrom pivot
  let _ ← visit thenBranch
  let thenEnd ← currentBlock
  let elseEnd ← match elseBranch with
    | none => pure pivot
    | some elseBranch => do
        let _ ← branchFrom pivot
        let _ ← visit elseBranch
        currentBlock
  let join ← newBlock
  connect thenEnd join
  connect elseEnd join
  moveTo join

/-- Visits a loop that has statements before it, a condition, and statements after
each round of its body. -/
def visitLoop (visit : Visit) (init : List NodeIndex) (condition : Option NodeIndex)
    (update : List NodeIndex) (body : NodeIndex) : Walker Unit := do
  for statement in init do
    let _ ← visit statement
  let header ← branchFrom (← currentBlock)
  if let some condition := condition then
    let _ ← visit condition
  let decision ← currentBlock
  let _ ← branchFrom decision
  let _ ← visit body
  for statement in update do
    let _ ← visit statement
  connect (← currentBlock) header
  let _ ← branchFrom decision

/-- Visits a loop over the elements of a value. -/
def visitForeach (visit : Visit) (index iterable : NodeIndex) (key : Option StrId) (value : StrId)
    (body : NodeIndex) (position : Option Position) : Walker Unit := do
  let source ← visit iterable
  let header ← branchFrom (← currentBlock)
  let _ ← branchFrom header
  let element ← addNode .arrayLoad (some index) position .unknown
  if let some source := source then
    addAccess source element none .unknown
  if let some key := key then
    let node ← addNode .localVar (some index) position .unknown
    let _ ← defineVariable key node
  let node ← addNode .localVar (some index) position .unknown
  addEdge element node .defUse
  let _ ← defineVariable value node
  let _ ← visit body
  connect (← currentBlock) header
  let _ ← branchFrom header

/-- Assigns a value to a variable.  A name that is bound to a global variable lets the
value escape; any other name gets a new definition. -/
def assignVariable (name : StrId) (target : NodeIndex) (value : Option NodeId) (type : ValueType)
    (position : Option Position) : Walker NodeId := do
  let walk ← get
  match (walk.graph.scopes.find? name).filter (walk.kind? · = some .globalVar) with
  | some existing =>
      if let some value := value then
        addSink value existing .defUse .assignedToGlobal position
      return existing
  | none =>
      let node ← addNode .localVar (some target) position type
      let key ← defineVariable name node
      if let some value := value then
        addFlow key value
        addUse value node
      return node

/-- Stores a value to a property. -/
def storeProperty (tree : Tree) (visit : Visit) (target object : NodeIndex) (property : StrId)
    (value : Option NodeId) (type : ValueType) (position : Option Position) : Walker NodeId := do
  let base ← visit object
  let store ← addNode .fieldStore (some target) position type
  if let some base := base then
    addAccess base store (some (tree.name property)) type
  if let some value := value then
    addSink value store .fieldOf .storedToHeap position
  return store

/-- Stores a value to an element. -/
def storeElement (visit : Visit) (target array : NodeIndex) (index : Option NodeIndex)
    (value : Option NodeId) (type : ValueType) (position : Option Position) : Walker NodeId := do
  let base ← visit array
  if let some index := index then
    let _ ← visit index
  let store ← addNode .arrayStore (some target) position type
  if let some base := base then
    addAccess base store none type
  if let some value := value then
    addSink value store .elementOf .storedToArray position
  return store

/-- Stores a value to something that is no place the analysis knows: it goes to the
heap. -/
def storeElsewhere (visit : Visit) (target : NodeIndex) (isDangling : Bool) (value : Option NodeId)
    (type : ValueType) (position : Option Position) : Walker Unit := do
  unless isDangling do
    let _ ← visit target
  let sink ← addNode .globalVar (some target) position type
  if let some value := value then
    addSink value sink .defUse .storedToHeap position

/-- Visits an assignment: the value first, then the place it goes to. -/
def visitAssignment (tree : Tree) (visit : Visit) (target value : NodeIndex)
    (position : Option Position) : Walker (Option NodeId) := do
  let value ← visit value
  let walk ← get
  let type := ((value.bind walk.graph.values.node?).map (·.type)).getD .unknown
  match tree.data? target with
  | some (.var name) => some <$> assignVariable name target value type position
  | some (.propertyAccess object property) =>
      some <$> storeProperty tree visit target object property value type position
  | some (.arrayAccess array index) =>
      some <$> storeElement visit target array index value type position
  | other => do
      storeElsewhere visit target other.isNone value type position
      return none

/-- Visits an argument and hands its value to code that is not known. -/
def visitArgument (visit : Visit) (position : Option Position) (arg : NodeIndex) :
    Walker Unit := do
  if let some value ← visit arg then
    passToUnknown value (some arg) position

/-- The type of the value of a literal. -/
def literalType : Literal → ValueType
  | .null => .null
  | .bool _ => .bool
  | .int _ => .int
  | .float _ => .float
  | .string _ => .string

/-- Visits a node, given how its children are visited. -/
def visitNode (config : Config) (tree : Tree) (visit : Visit) (index : NodeIndex)
    (node : TreeNode) : Walker (Option NodeId) := do
  let position := node.span
  match node.data with
  | .root statements | .block statements =>
      for statement in statements do
        let _ ← visit statement
      return none
  | .functionDecl _ params body =>
      visitBody visit params [] body position
      return none
  | .assignment target value => visitAssignment tree visit target value position
  | .objectInstantiation className args =>
      let args ← args.mapM visit
      let node ← addAllocation config index position .object (some (tree.name className)) args.length
      for arg in args do
        if let some arg := arg then
          passToUnknown arg (some index) position
      return some node
  | .arrayInit elements =>
      let elements ← elements.mapM visit
      let node ← addAllocation config index position .array none elements.length
      for element in elements do
        if let some element := element then
          addSink element node .elementOf .storedToArray position
      return some node
  | .returnStmt value =>
      let value ← match value with
        | none => pure none
        | some value => visit value
      let exit ← addNode .returnValue (some index) position .unknown
      if let some value := value then
        addSink value exit .defUse .returned position
      leaveControl
      return none
  | .functionCall _ args =>
      for arg in args do
        visitArgument visit position arg
      some <$> addNode .callResult (some index) position .unknown
  | .methodCall object _ args =>
      visitArgument visit position object
      for arg in args do
        visitArgument visit position arg
      some <$> addNode .callResult (some index) position .unknown
  | .propertyAccess object property =>
      let base ← visit object
      let load ← addNode .fieldLoad (some index) position .unknown
      if let some base := base then
        addAccess base load (some (tree.name property)) .unknown
      return some load
  | .arrayAccess array element =>
      let base ← visit array
      if let some element := element then
        let _ ← visit element
      let load ← addNode .arrayLoad (some index) position .unknown
      if let some base := base then
        addAccess base load none .unknown
      return some load
  | .closure params captures body =>
      some <$> visitClosure config visit index params captures body position
  | .var name => some <$> readVariable name index position
  | .ifStmt condition thenBranch elseBranch =>
      visitIf visit condition thenBranch elseBranch
      return none
  | .whileStmt condition body =>
      visitLoop visit [] (some condition) [] body
      return none
  | .forStmt init condition update body =>
      visitLoop visit init condition update body
      return none
  | .foreachStmt iterable key value body =>
      visitForeach visit index iterable key value body position
      return none
  | .throwStmt value =>
      let thrown ← visit value
      let exit ← addNode .returnValue (some index) position .unknown
      if let some thrown := thrown then
        addSink thrown exit .defUse .thrownAsException position
      leaveControl
      return none
  | .literal value => some <$> addNode .constant (some index) position (literalType value)
  | .global names =>
      for name in names do
        let node ← addNode .globalVar (some index) position .unknown
        modifyScopes (·.bind name node)
      return none
  | .other =>
      skip
      return none

/-- One visit, given how the visits below it are made.  A tree node that is not there is
skipped, and so is one that lies as deep as the limit; its scope counts as truncated. -/
def visitWithin (config : Config) (tree : Tree) (limit : Nat) (visit : Visit) : Visit :=
  fun index => do
    match tree.get? index with
    | none =>
        skip
        return none
    | some node =>
        if limit ≤ (← get).depth then
          skip
          truncate
          return none
        else
          goDown
          let value ← visitNode config tree visit index node
          goUp
          return value

/-- Visits made inside each other, as many as there are calls; the visits inside the last one
are the exhausted one. -/
def visitNested (config : Config) (tree : Tree) (limit : Nat) (exhausted : Visit) : Nat → Visit
  | 0, index => exhausted index
  | calls + 1, index =>
      visitWithin config tree limit (visitNested config tree limit exhausted calls) index

/-- Visits the tree below a node, down to so many levels. -/
def visit (config : Config) (tree : Tree) : Nat → Visit
  | 0, index => do
      skip
      if (tree.get? index).isSome then truncate
      return none
  | levels + 1, index =>
      match tree.get? index with
      | none => do
          skip
          return none
      | some node => visitNode config tree (visit config tree levels) index node

end Walker

end EscapePlan
