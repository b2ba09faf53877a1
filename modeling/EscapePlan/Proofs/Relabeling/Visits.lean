import EscapePlan.Proofs.Analysis.Nesting
import EscapePlan.Proofs.Relabeling.Walks

/-!
# Visits under other ids

A tree relabels another one if it has the same nodes with other ids for their names, and every id
whose text matters stands for the same text.  Visits of its nodes follow those of the other one.
It need not relabel all nodes: the rest of both trees is of no account for what lies below the nodes
that it does.
-/

namespace EscapePlan

/-! ## Trees under other ids -/

/-- The ids whose texts a walk looks at. -/
def NodeData.texts : NodeData → List StrId
  | .objectInstantiation className _ => [className]
  | .propertyAccess _ property => [property]
  | _ => []

/-- Some nodes of a tree, among them all that these refer to, are the same in another tree under
other ids that stand for the same texts. -/
structure Tree.Relabels (names : Equiv.Perm StrId) (known : NodeIndex → Prop) (one two : Tree) :
    Prop where
  get?_eq : ∀ index, known index → two.get? index = (one.get? index).map (TreeNode.rename names)
  closed : ∀ index node, known index → one.get? index = some node →
    ∀ child ∈ node.data.children, known child
  text_eq : ∀ index node, known index → one.get? index = some node →
    ∀ id ∈ node.data.texts, two.name (names id) = one.name id

namespace Walker

variable {α β : Type} {names : Equiv.Perm StrId} {config : Config}

/-! ## Values that may be there -/

theorem follows_sinkOf (value : Option NodeId) (target : NodeId) (kind : EdgeKind)
    (reason : EscapeReason) (position : Option Position) {corresponds : α → β} {next : Walker α}
    {nextTwin : Walker β} (rest : Follows names corresponds next nextTwin) :
    Follows names corresponds
      (do
        if let some value := value then
          addSink value target kind reason position
        next)
      (do
        if let some value := value then
          addSink value target kind reason position
        nextTwin) := by
  cases value with
  | none => exact rest
  | some value => exact (follows_addSink value target kind reason position).bind fun _ => rest

theorem follows_accessOf (base : Option NodeId) (node : NodeId) (field : Option String)
    (type : ValueType) {corresponds : α → β} {next : Walker α} {nextTwin : Walker β}
    (rest : Follows names corresponds next nextTwin) :
    Follows names corresponds
      (do
        if let some base := base then
          addAccess base node field type
        next)
      (do
        if let some base := base then
          addAccess base node field type
        nextTwin) := by
  cases base with
  | none => exact rest
  | some base => exact (follows_addAccess base node field type).bind fun _ => rest

theorem follows_assignVariable (name : StrId) (target : NodeIndex) (value : Option NodeId)
    (type : ValueType) (position : Option Position) :
    Follows names id (assignVariable name target value type position)
      (assignVariable (names name) target value type position) := by
  refine .get fun walk => ?_
  have found : (walk.relabel names).graph.scopes.find? (names name) =
      walk.graph.scopes.find? name := walk.graph.scopes.find?_rename_perm names name
  have kinds : (walk.relabel names).kind? = walk.kind? := rfl
  rw [found, kinds]
  cases (walk.graph.scopes.find? name).filter (walk.kind? · = some .globalVar) with
  | some existing =>
      exact follows_sinkOf value existing .defUse .assignedToGlobal position (.pure rfl)
  | none =>
      refine (follows_addNode .localVar (some target) position type).bind fun node =>
        (follows_defineVariable name node).bind fun key => ?_
      cases value with
      | none => exact .pure rfl
      | some value =>
          exact (follows_addFlow key value).bind fun _ => (follows_addUse value node).bind fun _ =>
            .pure rfl

/-! ## Statements -/

section

variable {visit twin : Visit}

/-- A node is visited if it is there, and its value is of no account. -/
theorem follows_visitSome {index : Option NodeIndex}
    (child : ∀ child ∈ index, Follows names id (visit child) (twin child)) {corresponds : α → β}
    {next : Walker α} {nextTwin : Walker β} (rest : Follows names corresponds next nextTwin) :
    Follows names corresponds
      (do
        if let some index := index then
          let _ ← visit index
        next)
      (do
        if let some index := index then
          let _ ← twin index
        nextTwin) := by
  cases index with
  | none => exact rest
  | some index => exact (child index rfl).bind fun _ => rest

theorem follows_statements {statements : List NodeIndex}
    (children : ∀ child ∈ statements, Follows names id (visit child) (twin child)) :
    Follows names id
      (forIn statements PUnit.unit fun statement _ => do
        let _ ← visit statement
        return .yield PUnit.unit)
      (forIn statements PUnit.unit fun statement _ => do
        let _ ← twin statement
        return .yield PUnit.unit) :=
  .forIn_same fun child member => (children child member).bind fun _ => .pure rfl

theorem follows_visitIf {condition thenBranch : NodeIndex} {elseBranch : Option NodeIndex}
    (children : ∀ child ∈ condition :: thenBranch :: elseBranch.toList,
      Follows names id (visit child) (twin child)) :
    Follows names id (visitIf visit condition thenBranch elseBranch)
      (visitIf twin condition thenBranch elseBranch) := by
  refine (children condition (by simp)).bind fun _ => follows_currentBlock.bind fun pivot =>
    (follows_branchFrom pivot).bind fun _ => (children thenBranch (by simp)).bind fun _ =>
      follows_currentBlock.bind fun thenEnd => ?_
  have join (elseEnd : BlockId) : Follows names id
      (do
        let join ← newBlock
        connect thenEnd join
        connect elseEnd join
        moveTo join)
      (do
        let join ← newBlock
        connect thenEnd join
        connect elseEnd join
        moveTo join) :=
    follows_newBlock.bind fun join => (follows_connect thenEnd join).bind fun _ =>
      (follows_connect elseEnd join).bind fun _ => follows_moveTo join
  cases elseBranch with
  | none => exact join pivot
  | some elseBranch =>
      exact (follows_branchFrom pivot).bind fun _ => (children elseBranch (by simp)).bind fun _ =>
        follows_currentBlock.bind join

theorem follows_visitLoop {init update : List NodeIndex} {condition : Option NodeIndex}
    {body : NodeIndex}
    (children : ∀ child ∈ init ++ condition.toList ++ body :: update,
      Follows names id (visit child) (twin child)) :
    Follows names id (visitLoop visit init condition update body)
      (visitLoop twin init condition update body) := by
  refine (follows_statements fun child member => children child (by simp [member])).bind fun _ =>
    follows_currentBlock.bind fun before => (follows_branchFrom before).bind fun header =>
      follows_visitSome (fun child member => children child (by simp_all)) ?_
  refine follows_currentBlock.bind fun decision => (follows_branchFrom decision).bind fun _ =>
    (children body (by simp)).bind fun _ =>
      (follows_statements fun child member => children child (by simp [member])).bind fun _ => ?_
  exact follows_currentBlock.bind fun last => (follows_connect last header).bind fun _ =>
    (follows_branchFrom decision).bind fun _ => .pure rfl

theorem follows_visitForeach (index : NodeIndex) {iterable body : NodeIndex} (key : Option StrId)
    (value : StrId) (position : Option Position)
    (children : ∀ child ∈ [iterable, body], Follows names id (visit child) (twin child)) :
    Follows names id (visitForeach visit index iterable key value body position)
      (visitForeach twin index iterable (key.map names) (names value) body position) := by
  refine (children iterable (by simp)).bind fun source => follows_currentBlock.bind fun before =>
    (follows_branchFrom before).bind fun header => (follows_branchFrom header).bind fun _ =>
      (follows_addNode .arrayLoad (some index) position .unknown).bind fun element =>
        follows_accessOf source element none .unknown ?_
  have round : Follows names id
      (do
        let node ← addNode .localVar (some index) position .unknown
        addEdge element node .defUse
        let _ ← defineVariable value node
        let _ ← visit body
        connect (← currentBlock) header
        let _ ← branchFrom header)
      (do
        let node ← addNode .localVar (some index) position .unknown
        addEdge element node .defUse
        let _ ← defineVariable (names value) node
        let _ ← twin body
        connect (← currentBlock) header
        let _ ← branchFrom header) :=
    (follows_addNode .localVar (some index) position .unknown).bind fun node =>
      (follows_addEdge element node .defUse).bind fun _ =>
        (follows_defineVariable value node).bind fun _ => (children body (by simp)).bind fun _ =>
          follows_currentBlock.bind fun last => (follows_connect last header).bind fun _ =>
            (follows_branchFrom header).bind fun _ => .pure rfl
  cases key with
  | none => exact round
  | some key =>
      exact (follows_addNode .localVar (some index) position .unknown).bind fun node =>
        (follows_defineVariable key node).bind fun _ => round

theorem follows_visitArgument {argument : NodeIndex}
    (child : Follows names id (visit argument) (twin argument)) (position : Option Position) :
    Follows names id (visitArgument visit position argument)
      (visitArgument twin position argument) := by
  refine child.bind fun value => ?_
  cases value with
  | none => exact .pure rfl
  | some value => exact follows_passToUnknown value (some argument) position

theorem follows_visitArguments {arguments : List NodeIndex} (position : Option Position)
    (children : ∀ child ∈ arguments, Follows names id (visit child) (twin child)) :
    Follows names id
      (forIn arguments PUnit.unit fun argument _ => do
        visitArgument visit position argument
        return .yield PUnit.unit)
      (forIn arguments PUnit.unit fun argument _ => do
        visitArgument twin position argument
        return .yield PUnit.unit) :=
  .forIn_same fun child member =>
    (follows_visitArgument (children child member) position).bind fun _ => .pure rfl

theorem follows_operands {operands : List NodeIndex}
    (children : ∀ child ∈ operands, Follows names id (visit child) (twin child)) :
    Follows names id (operands.mapM visit) (operands.mapM twin) := by
  have follows := @Follows.mapM _ _ _ _ names id operands id visit twin children
  rwa [List.map_id, List.map_id_fun] at follows

/-! ## Bodies -/

theorem follows_visitBody (params : List StrId) (captures : List (StrId × NodeId × NodeId))
    {body : NodeIndex} (child : Follows names id (visit body) (twin body))
    (position : Option Position) :
    Follows names id (visitBody visit params captures body position)
      (visitBody twin (params.map names) (captures.map (renameCapture names)) body position) := by
  refine .get fun outer => ?_
  have enter : Follows names id
      (modify fun walk : Walk =>
        { walk with scopeCount := walk.scopeCount + 1, scope := walk.scopeCount + 1 } : Walker Unit)
      (modify fun walk : Walk =>
        { walk with scopeCount := walk.scopeCount + 1, scope := walk.scopeCount + 1 }) :=
    .update fun _ => rfl
  refine enter.bind fun _ =>
    (follows_modifyScopes fun scopes => scopes.push_rename names).bind fun _ =>
      follows_newRegion.bind fun entry => (follows_moveTo entry).bind fun _ => ?_
  refine (Follows.forIn fun param _ => ?_).bind fun _ => (Follows.forIn fun capture _ => ?_).bind ?_
  · exact (follows_addNode .parameter none position .unknown).bind fun node =>
      (follows_defineVariable param node).bind fun _ => .pure rfl
  · exact (follows_defineVariable capture.1 capture.2.1).bind fun key =>
      (follows_addFlow key capture.2.2).bind fun _ => .pure rfl
  · exact fun _ => child.bind fun _ =>
      (follows_modifyScopes fun scopes => scopes.pop_rename names).bind fun _ =>
        .update fun _ => rfl

theorem follows_visitClosure (index : NodeIndex) (params captures : List StrId) {body : NodeIndex}
    (child : Follows names id (visit body) (twin body)) (position : Option Position) :
    Follows names id (visitClosure config visit index params captures body position)
      (visitClosure config twin index (params.map names) (captures.map names) body position) := by
  refine (Follows.mapM fun name _ => ?_ :
    Follows names (List.map (renameCapture names)) _ _).bind fun bound => ?_
  · exact (follows_readVariable name index position).bind fun captured =>
      (follows_addNode .closureCapture (some index) position .unknown).bind fun capture =>
        (follows_addSink captured capture .defUse .capturedByClosure position).bind fun _ =>
          .pure rfl
  · rw [List.length_map]
    refine (follows_addAllocation config index position .closure none captures.length).bind
      fun closure => (Follows.forIn fun capture _ => ?_).bind fun _ =>
        (follows_visitBody params bound child position).bind fun _ => .pure rfl
    exact (follows_addEdge capture.2.1 closure .dataDep).bind fun _ => .pure rfl

end

/-! ## Exits and stores -/

theorem follows_exit (value : Option NodeId) (index : NodeIndex) (reason : EscapeReason)
    (position : Option Position) :
    Follows names (id : Option NodeId → Option NodeId)
      (do
        let exit ← addNode .returnValue (some index) position .unknown
        if let some value := value then
          addSink value exit .defUse reason position
        leaveControl
        return none)
      (do
        let exit ← addNode .returnValue (some index) position .unknown
        if let some value := value then
          addSink value exit .defUse reason position
        leaveControl
        return none) :=
  (follows_addNode .returnValue (some index) position .unknown).bind fun exit =>
    follows_sinkOf value exit .defUse reason position
      (follows_leaveControl.bind fun _ => .pure rfl)

theorem follows_storeProperty {tree treeTwin : Tree} {visit twin : Visit} {object : NodeIndex}
    {property : StrId} (child : Follows names id (visit object) (twin object))
    (text : treeTwin.name (names property) = tree.name property) (target : NodeIndex)
    (value : Option NodeId) (type : ValueType) (position : Option Position) :
    Follows names id (storeProperty tree visit target object property value type position)
      (storeProperty treeTwin twin target object (names property) value type position) := by
  refine child.bind fun base =>
    (follows_addNode .fieldStore (some target) position type).bind fun store => ?_
  rw [text]
  exact follows_accessOf base store _ type
    (follows_sinkOf value store .fieldOf .storedToHeap position (.pure rfl))

theorem follows_storeElement {visit twin : Visit} {array : NodeIndex} {index : Option NodeIndex}
    (children : ∀ child ∈ array :: index.toList, Follows names id (visit child) (twin child))
    (target : NodeIndex) (value : Option NodeId) (type : ValueType) (position : Option Position) :
    Follows names id (storeElement visit target array index value type position)
      (storeElement twin target array index value type position) := by
  refine (children array List.mem_cons_self).bind fun base =>
    follows_visitSome (fun child member => children child (by simp_all)) ?_
  exact (follows_addNode .arrayStore (some target) position type).bind fun store =>
    follows_accessOf base store none type
      (follows_sinkOf value store .elementOf .storedToArray position (.pure rfl))

/-! ## Assignments -/

section

variable {known : NodeIndex → Prop} {tree treeTwin : Tree} {visit twin : Visit}
  (relabels : Tree.Relabels names known tree treeTwin)
  (visits : ∀ index, known index → Follows names id (visit index) (twin index))
include relabels visits

omit relabels in
theorem follows_storeElsewhere {target : NodeIndex} (knownTarget : known target)
    (isDangling : Bool) (value : Option NodeId) (type : ValueType) (position : Option Position) :
    Follows names id (storeElsewhere visit target isDangling value type position)
      (storeElsewhere twin target isDangling value type position) := by
  have store : Follows names id
      (do
        let sink ← addNode .globalVar (some target) position type
        if let some value := value then
          addSink value sink .defUse .storedToHeap position : Walker Unit)
      (do
        let sink ← addNode .globalVar (some target) position type
        if let some value := value then
          addSink value sink .defUse .storedToHeap position) := by
    refine (follows_addNode .globalVar (some target) position type).bind fun sink => ?_
    cases value with
    | none => exact .pure rfl
    | some value => exact follows_addSink value sink .defUse .storedToHeap position
  cases isDangling with
  | true => exact store
  | false => exact (visits target knownTarget).bind fun _ => store

theorem follows_visitAssignment {target value : NodeIndex} (knownTarget : known target)
    (knownValue : known value) (position : Option Position) :
    Follows names id (visitAssignment tree visit target value position)
      (visitAssignment treeTwin twin target value position) := by
  refine (visits value knownValue).bind fun stored => .get fun walk => ?_
  dsimp only [id]
  have dataEq : treeTwin.data? target = (tree.data? target).map (NodeData.rename names) := by
    rw [Tree.data?, Tree.data?, relabels.get?_eq target knownTarget, Option.map_map, Option.map_map]
    rfl
  rw [walk.values_relabel, dataEq]
  generalize ((stored.bind walk.graph.values.node?).map (·.type)).getD .unknown = type
  cases found : tree.get? target with
  | none =>
      rw [Tree.data?, found]
      exact (follows_storeElsewhere visits knownTarget true stored type position).bind
        fun _ => .pure rfl
  | some node =>
      have closed := relabels.closed target node knownTarget found
      have text := relabels.text_eq target node knownTarget found
      obtain ⟨data, span⟩ := node
      rw [Tree.data?, found]
      dsimp only at closed text
      cases data with
      | var name =>
          exact (follows_assignVariable name target stored type position).map fun _ => rfl
      | propertyAccess object property =>
          exact (follows_storeProperty (visits object (closed object (by simp [NodeData.children])))
            (text property (by simp [NodeData.texts])) target stored type position).map fun _ => rfl
      | arrayAccess array index =>
          exact (follows_storeElement (fun child member => visits child (closed child member))
            target stored type position).map fun _ => rfl
      | _ =>
          exact (follows_storeElsewhere visits knownTarget false stored type position).bind
            fun _ => .pure rfl

/-! ## Nodes -/

theorem follows_visitNode {index : NodeIndex} (knownIndex : known index) {node : TreeNode}
    (found : tree.get? index = some node) :
    Follows names id (visitNode config tree visit index node)
      (visitNode config treeTwin twin index (node.rename names)) := by
  have closed := relabels.closed index node knownIndex found
  have text := relabels.text_eq index node knownIndex found
  obtain ⟨data, position⟩ := node
  have children : ∀ child ∈ data.children, Follows names id (visit child) (twin child) :=
    fun child member => visits child (closed child member)
  have result (kind : NodeKind) (type : ValueType) : Follows names id
      (some <$> addNode kind (some index) position type)
      (some <$> addNode kind (some index) position type) :=
    (follows_addNode kind (some index) position type).map fun _ => rfl
  cases data with
  | root statements => exact (follows_statements children).bind fun _ => .pure rfl
  | block statements => exact (follows_statements children).bind fun _ => .pure rfl
  | functionDecl name params body =>
      exact (follows_visitBody params [] (children body (by simp [NodeData.children]))
        position).bind fun _ => .pure rfl
  | assignment target value =>
      exact follows_visitAssignment relabels visits (closed target (by simp [NodeData.children]))
        (closed value (by simp [NodeData.children])) position
  | objectInstantiation className args =>
      refine (follows_operands children).bind fun values => ?_
      rw [id, text className (by simp [NodeData.texts])]
      refine (follows_addAllocation config index position .object _ values.length).bind fun node =>
        (Follows.forIn_same fun value _ => ?_).bind fun _ => .pure rfl
      cases value with
      | none => exact .pure rfl
      | some value =>
          exact (follows_passToUnknown value (some index) position).bind fun _ => .pure rfl
  | arrayInit elements =>
      refine (follows_operands children).bind fun values =>
        (follows_addAllocation config index position .array none values.length).bind fun node =>
          (Follows.forIn_same fun value _ => ?_).bind fun _ => .pure rfl
      cases value with
      | none => exact .pure rfl
      | some value =>
          exact (follows_addSink value node .elementOf .storedToArray position).bind
            fun _ => .pure rfl
  | returnStmt value =>
      cases value with
      | none => exact follows_exit none index .returned position
      | some value =>
          exact (children value (by simp [NodeData.children])).bind fun returned =>
            follows_exit returned index .returned position
  | functionCall name args =>
      exact (follows_visitArguments position children).bind fun _ => result .callResult .unknown
  | methodCall object method args =>
      refine (follows_visitArgument (children object (by simp [NodeData.children]))
        position).bind fun _ => (follows_visitArguments position fun child member =>
          children child (by simp [NodeData.children, member])).bind fun _ =>
            result .callResult .unknown
  | propertyAccess object property =>
      refine (children object (by simp [NodeData.children])).bind fun base =>
        (follows_addNode .fieldLoad (some index) position .unknown).bind fun load => ?_
      rw [text property (by simp [NodeData.texts])]
      exact follows_accessOf base load _ .unknown (.pure rfl)
  | arrayAccess array element =>
      refine (children array (by simp [NodeData.children])).bind fun base =>
        follows_visitSome (fun child member => children child ?_) ?_
      · simp_all [NodeData.children]
      · exact (follows_addNode .arrayLoad (some index) position .unknown).bind fun load =>
          follows_accessOf base load none .unknown (.pure rfl)
  | closure params captures body =>
      exact (follows_visitClosure index params captures (children body (by simp [NodeData.children]))
        position).map fun _ => rfl
  | var name => exact (follows_readVariable name index position).map fun _ => rfl
  | ifStmt condition thenBranch elseBranch =>
      exact (follows_visitIf children).bind fun _ => .pure rfl
  | whileStmt condition body =>
      exact (follows_visitLoop fun child member => children child
        (by simpa [NodeData.children] using member)).bind fun _ => .pure rfl
  | forStmt init condition update body =>
      exact (follows_visitLoop children).bind fun _ => .pure rfl
  | foreachStmt iterable key value body =>
      exact (follows_visitForeach index key value position children).bind fun _ => .pure rfl
  | throwStmt value =>
      exact (children value (by simp [NodeData.children])).bind fun thrown =>
        follows_exit thrown index .thrownAsException position
  | literal value =>
      have type : literalType (value.rename names) = literalType value := by cases value <;> rfl
      show Follows names id _ (some <$> addNode .constant (some index) position
        (literalType (value.rename names)))
      rw [type]
      exact result .constant (literalType value)
  | global declared =>
      refine (Follows.forIn fun name _ => ?_).bind fun _ => .pure rfl
      exact (follows_addNode .globalVar (some index) position .unknown).bind fun node =>
        (follows_bind name node).bind fun _ => .pure rfl
  | other => exact follows_skip.bind fun _ => .pure rfl

end

/-- Visits of the nodes that are relabeled follow those under the old ids. -/
theorem follows_visit {known : NodeIndex → Prop} {tree treeTwin : Tree}
    (relabels : Tree.Relabels names known tree treeTwin) (config : Config) (levels : Nat)
    (index : NodeIndex) (knownIndex : known index) :
    Follows names id (visit config tree levels index) (visit config treeTwin levels index) := by
  induction levels generalizing index with
  | zero =>
      rw [visit, visit, relabels.get?_eq index knownIndex, Option.isSome_map]
      refine follows_skip.bind fun _ => ?_
      split
      next => exact follows_truncate.bind fun _ => .pure rfl
      next => exact .pure rfl
  | succ levels inductionHypothesis =>
      rw [visit, visit, relabels.get?_eq index knownIndex]
      cases found : tree.get? index with
      | none => exact follows_skip.bind fun _ => .pure rfl
      | some node => exact follows_visitNode relabels inductionHypothesis knownIndex found

end Walker

/-! ## Trees -/

/-- The same tree with other ids for its names; an id stands for the same text as before, or for none
as before. -/
structure Tree.Renames (names : Equiv.Perm StrId) (one two : Tree) : Prop where
  root_eq : two.root = one.root
  nodes_eq : two.nodes = one.nodes.map (TreeNode.rename names)
  resolve_eq : ∀ id, two.strings.resolve? (names id) = one.strings.resolve? id

theorem Tree.Renames.relabels {names : Equiv.Perm StrId} {one two : Tree}
    (renames : Renames names one two) : Relabels names (fun _ => True) one two where
  get?_eq index _ := by
    rw [get?, renames.nodes_eq]
    exact Array.getElem?_map
  closed _ _ _ _ _ _ := trivial
  text_eq _ _ _ _ id _ := congrArg (·.getD "?") (renames.resolve_eq id)

theorem NodeData.rename_refl (data : NodeData) : data.rename (Equiv.refl StrId) = data := by
  cases data with
  | literal value => cases value <;> rfl
  | _ => simp [rename]

theorem Tree.renames_refl (tree : Tree) : Renames (.refl StrId) tree tree where
  root_eq := rfl
  nodes_eq := by
    have same : TreeNode.rename (Equiv.refl StrId) = id := by
      funext node
      rw [TreeNode.rename, NodeData.rename_refl]
      rfl
    rw [same, Array.map_id]
  resolve_eq _ := rfl

theorem Walk.initial_relabel (names : Equiv.Perm StrId) : initial.relabel names = initial := by
  simp only [relabel, initial, Array.map_empty]
  have flow : ControlFlow.empty.newRegion.2.relabel (StrId.varIds names) =
      ControlFlow.empty.newRegion.2 := by
    rw [ControlFlow.relabel, ControlFlow.newRegion, ControlFlow.newBlock]
    simp [ControlFlow.empty, Block.relabel, Block.empty]
  rw [flow]
  rfl

/-- A walk over a tree that is relabeled is the walk over it under other ids. -/
theorem Walk.ofTree_relabel {names : Equiv.Perm StrId} {known : NodeIndex → Prop} {one two : Tree}
    (relabels : Tree.Relabels names known one two) (root : two.root = one.root)
    (knownRoot : known one.root) (config : Config) (limit : Nat) :
    ofTree config two limit = (ofTree config one limit).relabel names := by
  have follows := Walker.follows_visit relabels config limit one.root knownRoot initial
  rw [initial_relabel] at follows
  rw [ofTree_eq, ofTree_eq, root]
  exact congrArg Prod.snd follows

/-- A walk has put nothing into control flow that is left out under other ids. -/
theorem Walk.relabel_flow_ofTree (config : Config) (tree : Tree) (limit : Nat) :
    (ofTree config tree limit).graph.flow.relabel (.refl VarId) =
      (ofTree config tree limit).graph.flow := by
  have same := ofTree_relabel tree.renames_refl.relabels rfl trivial config limit
  have flows : (ofTree config tree limit).graph.flow =
      (ofTree config tree limit).graph.flow.relabel (StrId.varIds (.refl StrId)) :=
    congrArg (fun walk : Walk => walk.graph.flow) same
  have vars : StrId.varIds (.refl StrId) = .refl VarId :=
    Equiv.Perm.extendDomain_refl StrId.equivNat
  rw [vars] at flows
  exact flows.symm

end EscapePlan
