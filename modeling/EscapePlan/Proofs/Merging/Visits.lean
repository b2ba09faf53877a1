import EscapePlan.Proofs.Analysis.Depth
import EscapePlan.Proofs.Merging.Walks

/-!
# Visits under merged names

The names of a function body are those that are bound where it begins and those that are used in it,
apart from the bodies inside.  If a change of names merges no two names of one body, and leaves
every name its text, then a walk over the changed tree echoes the walk over the tree.
-/

namespace EscapePlan

/-! ## Trees under changed names -/

namespace NodeData

/-- The variables that a node uses in the function body that it stands in. -/
def ownNames : NodeData → List StrId
  | .closure _ captures _ => captures
  | .var name => [name]
  | .foreachStmt _ key value _ => key.toList ++ [value]
  | .global declared => declared
  | _ => []

/-- The children that stand in the same function body as a node. -/
def ownChildren : NodeData → List NodeIndex
  | .functionDecl .. | .closure .. => []
  | data => data.children

/-- The function body that a node begins, and the names that are bound where it begins. -/
def body? : NodeData → Option (List StrId × NodeIndex)
  | .functionDecl _ params body => some (params, body)
  | .closure params captures body => some (params ++ captures, body)
  | _ => none

end NodeData

namespace Tree

/-- A tree under changed names. -/
def rename (change : StrId → StrId) (tree : Tree) : Tree :=
  { tree with nodes := tree.nodes.map (TreeNode.rename change) }

/-- A node stands in the function body that begins at another one. -/
inductive Within (tree : Tree) (top : NodeIndex) : NodeIndex → Prop where
  | top : Within tree top top
  | child {index child : NodeIndex} {data : NodeData} :
      Within tree top index → tree.data? index = some data → child ∈ data.ownChildren →
      Within tree top child

/-- The names of a function body. -/
def bodyNames (tree : Tree) (bound : List StrId) (top : NodeIndex) : Set StrId :=
  {name | name ∈ bound ∨
    ∃ index data, tree.Within top index ∧ tree.data? index = some data ∧ name ∈ data.ownNames}

/-- A change of names merges no two names of one function body, and every name keeps its text. -/
structure Discerns (tree : Tree) (change : StrId → StrId) : Prop where
  outermost : Set.InjOn change (tree.bodyNames [] tree.root)
  nested : ∀ index data bound top, tree.data? index = some data → data.body? = some (bound, top) →
    Set.InjOn change (tree.bodyNames bound top)
  text_eq : ∀ id, tree.name (change id) = tree.name id

theorem get?_rename (tree : Tree) (change : StrId → StrId) (index : NodeIndex) :
    (tree.rename change).get? index = (tree.get? index).map (TreeNode.rename change) :=
  Array.getElem?_map

theorem data?_rename (tree : Tree) (change : StrId → StrId) (index : NodeIndex) :
    (tree.rename change).data? index = (tree.data? index).map (NodeData.rename change) := by
  rw [data?, data?, get?_rename, Option.map_map, Option.map_map]
  rfl

end Tree

namespace Walker

open Walk (Body)

variable {α β : Type} {change : StrId → StrId} {config : Config} {body : Body}
  {bodies outer : List Body}

/-! ## Values that may be there -/

theorem echoes_sinkOf (value : Option NodeId) (target : NodeId) (kind : EdgeKind)
    (reason : EscapeReason) (position : Option Position) {corresponds : α → β → Prop}
    {next : Walker α} {nextTwin : Walker β}
    (rest : Echoes change bodies corresponds next nextTwin) :
    Echoes change bodies corresponds
      (do
        if let some value := value then
          addSink value target kind reason position
        next)
      (do
        if let some value := value then
          addSink value target kind reason position
        nextTwin) := by
  cases value with
  | none => exact rest
  | some value => exact (echoes_addSink value target kind reason position).andThen fun _ => rest

theorem echoes_accessOf (base : Option NodeId) (node : NodeId) (field : Option String)
    (type : ValueType) {corresponds : α → β → Prop} {next : Walker α} {nextTwin : Walker β}
    (rest : Echoes change bodies corresponds next nextTwin) :
    Echoes change bodies corresponds
      (do
        if let some base := base then
          addAccess base node field type
        next)
      (do
        if let some base := base then
          addAccess base node field type
        nextTwin) := by
  cases base with
  | none => exact rest
  | some base => exact (echoes_addAccess base node field type).andThen fun _ => rest

theorem echoes_assignVariable {name : StrId} (named : name ∈ body.names) (target : NodeIndex)
    (value : Option NodeId) (type : ValueType) (position : Option Position) :
    Echoes change (body :: outer) Eq (assignVariable name target value type position)
      (assignVariable (change name) target value type position) := by
  refine .get fun one two echoes => ?_
  rw [echoes.find?_eq named, echoes.kind?_eq]
  cases (one.graph.scopes.find? name).filter (one.kind? · = some .globalVar) with
  | some existing =>
      exact echoes_sinkOf value existing .defUse .assignedToGlobal position (.pure rfl)
  | none =>
      refine (echoes_addNode .localVar (some target) position type).andThen fun node =>
        (echoes_defineVariable named node).bind fun key other keys => ?_
      cases value with
      | none => exact .pure rfl
      | some value =>
          exact (echoes_addFlow named keys value).andThen fun _ =>
            (echoes_addUse value node).andThen fun _ => .pure rfl

/-! ## Statements -/

/-- Visits of a node keep a walk an echo of another one, and answer the same. -/
abbrev VisitEchoes (change : StrId → StrId) (bodies : List Body) (visit twin : Visit)
    (index : NodeIndex) : Prop :=
  Echoes change bodies Eq (visit index) (twin index)

section

variable {visit twin : Visit}

/-- A node is visited if it is there, and its value is of no account. -/
theorem echoes_visitSome {index : Option NodeIndex}
    (child : ∀ child ∈ index, VisitEchoes change bodies visit twin child)
    {corresponds : α → β → Prop} {next : Walker α} {nextTwin : Walker β}
    (rest : Echoes change bodies corresponds next nextTwin) :
    Echoes change bodies corresponds
      (do
        if let some index := index then
          let _ ← visit index
        next)
      (do
        if let some index := index then
          let _ ← twin index
        nextTwin) := by
  cases index with
  | none => exact rest
  | some index => exact (child index rfl).andThen fun _ => rest

theorem echoes_statements {statements : List NodeIndex}
    (children : ∀ child ∈ statements, VisitEchoes change bodies visit twin child) :
    Echoes change bodies Eq
      (forIn statements PUnit.unit fun statement _ => do
        let _ ← visit statement
        return .yield PUnit.unit)
      (forIn statements PUnit.unit fun statement _ => do
        let _ ← twin statement
        return .yield PUnit.unit) :=
  .forIn_same fun child member => (children child member).andThen fun _ => .pure ⟨rfl, rfl⟩

theorem echoes_operands {operands : List NodeIndex}
    (children : ∀ child ∈ operands, VisitEchoes change bodies visit twin child) :
    Echoes change bodies Eq (operands.mapM visit) (operands.mapM twin) := by
  have echoes := @Echoes.mapM _ _ _ _ change bodies Eq operands id visit twin children
  rwa [List.map_id, List.forall₂_eq_eq_eq] at echoes

theorem echoes_visitIf {condition thenBranch : NodeIndex} {elseBranch : Option NodeIndex}
    (children : ∀ child ∈ condition :: thenBranch :: elseBranch.toList,
      VisitEchoes change bodies visit twin child) :
    Echoes change bodies Eq (visitIf visit condition thenBranch elseBranch)
      (visitIf twin condition thenBranch elseBranch) := by
  refine (children condition (by simp)).andThen fun _ =>
    quiet_currentBlock.echoesBind quiet_currentBlock fun pivot pivotTwin =>
      (quiet_branchFrom _).echoesBind (quiet_branchFrom _) fun _ _ =>
        (children thenBranch (by simp)).andThen fun _ =>
          quiet_currentBlock.echoesBind quiet_currentBlock fun thenEnd thenEndTwin => ?_
  have join (elseEnd elseEndTwin : BlockId) : Echoes change bodies Eq
      (do
        let join ← newBlock
        connect thenEnd join
        connect elseEnd join
        moveTo join)
      (do
        let join ← newBlock
        connect thenEndTwin join
        connect elseEndTwin join
        moveTo join) :=
    quiet_newBlock.echoesBind quiet_newBlock fun _ _ =>
      (quiet_connect _ _).echoesBind (quiet_connect _ _) fun _ _ =>
        (quiet_connect _ _).echoesBind (quiet_connect _ _) fun _ _ =>
          fun _ _ echoes => ⟨rfl, echoes.congr rfl rfl⟩
  cases elseBranch with
  | none => exact join pivot pivotTwin
  | some elseBranch =>
      exact (quiet_branchFrom _).echoesBind (quiet_branchFrom _) fun _ _ =>
        (children elseBranch (by simp)).andThen fun _ =>
          quiet_currentBlock.echoesBind quiet_currentBlock join

theorem echoes_visitLoop {init update : List NodeIndex} {condition : Option NodeIndex}
    {inner : NodeIndex}
    (children : ∀ child ∈ init ++ condition.toList ++ inner :: update,
      VisitEchoes change bodies visit twin child) :
    Echoes change bodies Eq (visitLoop visit init condition update inner)
      (visitLoop twin init condition update inner) := by
  refine (echoes_statements fun child member => children child (by simp [member])).andThen fun _ =>
    quiet_currentBlock.echoesBind quiet_currentBlock fun _ _ =>
      (quiet_branchFrom _).echoesBind (quiet_branchFrom _) fun _ _ =>
        echoes_visitSome (fun child member => children child (by simp_all)) ?_
  refine quiet_currentBlock.echoesBind quiet_currentBlock fun _ _ =>
    (quiet_branchFrom _).echoesBind (quiet_branchFrom _) fun _ _ =>
      (children inner (by simp)).andThen fun _ =>
        (echoes_statements fun child member => children child (by simp [member])).andThen
          fun _ => ?_
  exact quiet_currentBlock.echoesBind quiet_currentBlock fun _ _ =>
    (quiet_connect _ _).echoesBind (quiet_connect _ _) fun _ _ =>
      (quiet_branchFrom _).echoesBind (quiet_branchFrom _) fun _ _ => .pure rfl

theorem echoes_visitForeach (index : NodeIndex) {iterable inner : NodeIndex} {key : Option StrId}
    {value : StrId} (position : Option Position)
    (children : ∀ child ∈ [iterable, inner], VisitEchoes change (body :: outer) visit twin child)
    (named : ∀ name ∈ key.toList ++ [value], name ∈ body.names) :
    Echoes change (body :: outer) Eq (visitForeach visit index iterable key value inner position)
      (visitForeach twin index iterable (key.map change) (change value) inner position) := by
  refine (children iterable (by simp)).andThen fun source =>
    quiet_currentBlock.echoesBind quiet_currentBlock fun _ _ =>
      (quiet_branchFrom _).echoesBind (quiet_branchFrom _) fun header headerTwin =>
        (quiet_branchFrom _).echoesBind (quiet_branchFrom _) fun _ _ =>
          (echoes_addNode .arrayLoad (some index) position .unknown).andThen fun element =>
            echoes_accessOf source element none .unknown ?_
  have round : Echoes change (body :: outer) Eq
      (do
        let node ← addNode .localVar (some index) position .unknown
        addEdge element node .defUse
        let _ ← defineVariable value node
        let _ ← visit inner
        connect (← currentBlock) header
        let _ ← branchFrom header)
      (do
        let node ← addNode .localVar (some index) position .unknown
        addEdge element node .defUse
        let _ ← defineVariable (change value) node
        let _ ← twin inner
        connect (← currentBlock) headerTwin
        let _ ← branchFrom headerTwin) :=
    (echoes_addNode .localVar (some index) position .unknown).andThen fun node =>
      (echoes_addEdge element node .defUse).andThen fun _ =>
        (echoes_defineVariable (named value (by simp)) node).bind fun _ _ _ =>
          (children inner (by simp)).andThen fun _ =>
            quiet_currentBlock.echoesBind quiet_currentBlock fun _ _ =>
              (quiet_connect _ _).echoesBind (quiet_connect _ _) fun _ _ =>
                (quiet_branchFrom _).echoesBind (quiet_branchFrom _) fun _ _ => .pure rfl
  cases key with
  | none => exact round
  | some key =>
      exact (echoes_addNode .localVar (some index) position .unknown).andThen fun node =>
        (echoes_defineVariable (named key (by simp)) node).bind fun _ _ _ => round

theorem echoes_visitArgument {argument : NodeIndex}
    (child : VisitEchoes change bodies visit twin argument) (position : Option Position) :
    Echoes change bodies Eq (visitArgument visit position argument)
      (visitArgument twin position argument) := by
  refine child.andThen fun value => ?_
  cases value with
  | none => exact .pure rfl
  | some value => exact echoes_passToUnknown value (some argument) position

theorem echoes_visitArguments {arguments : List NodeIndex} (position : Option Position)
    (children : ∀ child ∈ arguments, VisitEchoes change bodies visit twin child) :
    Echoes change bodies Eq
      (forIn arguments PUnit.unit fun argument _ => do
        visitArgument visit position argument
        return .yield PUnit.unit)
      (forIn arguments PUnit.unit fun argument _ => do
        visitArgument twin position argument
        return .yield PUnit.unit) :=
  .forIn_same fun child member => (echoes_visitArgument (children child member) position).andThen
    fun _ => .pure ⟨rfl, rfl⟩

/-! ## Bodies -/

theorem echoes_walkBody {params : List StrId} {captures : List (StrId × NodeId × NodeId)}
    {inner : NodeIndex} (child : VisitEchoes change (body :: outer) visit twin inner)
    (position : Option Position) (namedParams : ∀ name ∈ params, name ∈ body.names)
    (namedCaptures : ∀ capture ∈ captures, capture.1 ∈ body.names) :
    Echoes change (body :: outer) Eq (walkBody visit params captures inner position)
      (walkBody twin (params.map change) (captures.map (renameCapture change)) inner position) := by
  refine quiet_newRegion.echoesBind quiet_newRegion fun _ _ =>
    (quiet_moveTo _).echoesBind (quiet_moveTo _) fun _ _ => ?_
  refine (Echoes.forIn fun param member => ?_).andThen fun _ =>
    (Echoes.forIn fun capture member => ?_).andThen fun _ => child
  · exact (echoes_addNode .parameter none position .unknown).andThen fun node =>
      (echoes_defineVariable (namedParams param member) node).bind fun _ _ _ => .pure ⟨rfl, rfl⟩
  · have named := namedCaptures capture member
    exact (echoes_defineVariable named capture.2.1).bind fun _ _ keys =>
      (echoes_addFlow named keys capture.2.2).andThen fun _ => .pure ⟨rfl, rfl⟩

theorem echoes_visitBody {params : List StrId} {captures : List (StrId × NodeId × NodeId)}
    {inner : NodeIndex} {names : Set StrId} (injective : Set.InjOn change names)
    (child : ∀ scope, VisitEchoes change (⟨scope, names⟩ :: body :: outer) visit twin inner)
    (position : Option Position) (namedParams : ∀ name ∈ params, name ∈ names)
    (namedCaptures : ∀ capture ∈ captures, capture.1 ∈ names) :
    Echoes change (body :: outer) Eq (visitBody visit params captures inner position)
      (visitBody twin (params.map change) (captures.map (renameCapture change)) inner
        position) := by
  intro one two echoes
  have entered : Walk.Echoes change (⟨one.scopeCount + 1, names⟩ :: body :: outer) (enterBody one)
      (enterBody two) :=
    { echoes with
      toDistinct := echoes.toDistinct.enterBody injective
      scopes_eq := congrArg Scopes.push echoes.scopes_eq
      same_scope := congrArg (· + 1) echoes.scopeCount_eq
      scopeCount_eq := congrArg (· + 1) echoes.scopeCount_eq }
  obtain ⟨-, inside⟩ := echoes_walkBody (child _) position namedParams namedCaptures _ _ entered
  rw [visitBody_eq, visitBody_eq]
  exact ⟨rfl, { inside with
    toDistinct := echoes.toDistinct.leaveBody inside.toDistinct
    scopes_eq := (congrArg Scopes.pop inside.scopes_eq).trans (Scopes.pop_rename change _)
    same_scope := echoes.same_scope }⟩

theorem echoes_visitClosure (index : NodeIndex) {params captures : List StrId} {inner : NodeIndex}
    {names : Set StrId} (injective : Set.InjOn change names)
    (child : ∀ scope, VisitEchoes change (⟨scope, names⟩ :: body :: outer) visit twin inner)
    (position : Option Position) (namedOutside : ∀ name ∈ captures, name ∈ body.names)
    (namedParams : ∀ name ∈ params, name ∈ names)
    (namedInside : ∀ name ∈ captures, name ∈ names) :
    Echoes change (body :: outer) Eq
      (visitClosure config visit index params captures inner position)
      (visitClosure config twin index (params.map change) (captures.map change) inner
        position) := by
  refine (Echoes.mapM fun name member => ?_ : Echoes change (body :: outer)
    (List.Forall₂ fun capture other => capture.1 ∈ names ∧ renameCapture change capture = other)
      _ _).bind fun bound others all => ?_
  · refine (echoes_readVariable (namedOutside name member) index position).andThen fun captured =>
      (echoes_addNode .closureCapture (some index) position .unknown).andThen fun capture =>
        (echoes_addSink captured capture .defUse .capturedByClosure position).andThen fun _ =>
          .pure ⟨namedInside name member, rfl⟩
  · rw [List.forall₂_and_left, ← List.forall₂_map_left_iff, List.forall₂_eq_eq_eq] at all
    obtain ⟨named, rfl⟩ := all
    rw [List.length_map]
    refine (echoes_addAllocation config index position .closure none captures.length).andThen
      fun closure => (Echoes.forIn fun capture _ => ?_).andThen fun _ =>
        (echoes_visitBody injective child position namedParams named).andThen fun _ => .pure rfl
    exact (echoes_addEdge capture.2.1 closure .dataDep).andThen fun _ => .pure ⟨rfl, rfl⟩

/-! ## Exits and stores -/

omit visit twin in
theorem echoes_exit (value : Option NodeId) (index : NodeIndex) (reason : EscapeReason)
    (position : Option Position) :
    Echoes change bodies Eq
      (do
        let exit ← addNode .returnValue (some index) position .unknown
        if let some value := value then
          addSink value exit .defUse reason position
        leaveControl
        return none : Walker (Option NodeId))
      (do
        let exit ← addNode .returnValue (some index) position .unknown
        if let some value := value then
          addSink value exit .defUse reason position
        leaveControl
        return none) :=
  (echoes_addNode .returnValue (some index) position .unknown).andThen fun exit =>
    echoes_sinkOf value exit .defUse reason position
      (quiet_leaveControl.echoesBind quiet_leaveControl fun _ _ => .pure rfl)

theorem echoes_storeProperty {tree treeTwin : Tree} {object : NodeIndex} {property other : StrId}
    (child : VisitEchoes change bodies visit twin object)
    (text : treeTwin.name other = tree.name property) (target : NodeIndex)
    (value : Option NodeId) (type : ValueType) (position : Option Position) :
    Echoes change bodies Eq (storeProperty tree visit target object property value type position)
      (storeProperty treeTwin twin target object other value type position) := by
  refine child.andThen fun base =>
    (echoes_addNode .fieldStore (some target) position type).andThen fun store => ?_
  rw [text]
  exact echoes_accessOf base store _ type
    (echoes_sinkOf value store .fieldOf .storedToHeap position (.pure rfl))

theorem echoes_storeElement {array : NodeIndex} {element : Option NodeIndex}
    (children : ∀ child ∈ array :: element.toList, VisitEchoes change bodies visit twin child)
    (target : NodeIndex) (value : Option NodeId) (type : ValueType) (position : Option Position) :
    Echoes change bodies Eq (storeElement visit target array element value type position)
      (storeElement twin target array element value type position) := by
  refine (children array List.mem_cons_self).andThen fun base =>
    echoes_visitSome (fun child member => children child (by simp_all)) ?_
  exact (echoes_addNode .arrayStore (some target) position type).andThen fun store =>
    echoes_accessOf base store none type
      (echoes_sinkOf value store .elementOf .storedToArray position (.pure rfl))

theorem echoes_storeElsewhere {target : NodeIndex}
    (child : VisitEchoes change bodies visit twin target) (isDangling : Bool)
    (value : Option NodeId) (type : ValueType) (position : Option Position) :
    Echoes change bodies Eq (storeElsewhere visit target isDangling value type position)
      (storeElsewhere twin target isDangling value type position) := by
  have store : Echoes change bodies Eq
      (do
        let sink ← addNode .globalVar (some target) position type
        if let some value := value then
          addSink value sink .defUse .storedToHeap position : Walker Unit)
      (do
        let sink ← addNode .globalVar (some target) position type
        if let some value := value then
          addSink value sink .defUse .storedToHeap position) := by
    refine (echoes_addNode .globalVar (some target) position type).andThen fun sink => ?_
    cases value with
    | none => exact .pure rfl
    | some value => exact echoes_addSink value sink .defUse .storedToHeap position
  cases isDangling with
  | true => exact store
  | false => exact child.andThen fun _ => store

end

/-! ## Nodes -/

section

variable {tree : Tree} {bound : List StrId} {top : NodeIndex} {visit twin : Visit}
  (discerns : tree.Discerns change)
  (enough : ∀ name ∈ tree.bodyNames bound top, name ∈ body.names)
  (visits : ∀ index, tree.Within top index → VisitEchoes change (body :: outer) visit twin index)
include enough visits

include discerns in
theorem echoes_visitAssignment {target value : NodeIndex} (withinTarget : tree.Within top target)
    (withinValue : tree.Within top value) (position : Option Position) :
    Echoes change (body :: outer) Eq (visitAssignment tree visit target value position)
      (visitAssignment (tree.rename change) twin target value position) := by
  refine (visits value withinValue).andThen fun stored => .get fun one two echoes => ?_
  rw [echoes.values_eq, Tree.data?_rename]
  generalize ((stored.bind one.graph.values.node?).map (·.type)).getD .unknown = type
  cases dataEq : tree.data? target with
  | none =>
      exact (echoes_storeElsewhere (visits target withinTarget) true stored type position).andThen
        fun _ => .pure rfl
  | some data =>
      have children : ∀ child ∈ data.ownChildren,
          VisitEchoes change (body :: outer) visit twin child :=
        fun child member => visits child (withinTarget.child dataEq member)
      cases data with
      | var name =>
          have own : name ∈ (NodeData.var name).ownNames := List.mem_singleton_self name
          have named := enough name (.inr ⟨target, _, withinTarget, dataEq, own⟩)
          exact (echoes_assignVariable named target stored type position).map
            fun _ _ => congrArg some
      | propertyAccess object property =>
          exact (echoes_storeProperty (children object (List.mem_singleton_self _))
            (discerns.text_eq property) target stored type position).map fun _ _ => congrArg some
      | arrayAccess array element =>
          exact (echoes_storeElement children target stored type position).map
            fun _ _ => congrArg some
      | _ =>
          exact (echoes_storeElsewhere (visits target withinTarget) false stored type
            position).andThen fun _ => .pure rfl

include discerns in
theorem echoes_visitNode
    (inner : ∀ bound index scope, VisitEchoes change
      (⟨scope, tree.bodyNames bound index⟩ :: body :: outer) visit twin index)
    {index : NodeIndex} (within_ : tree.Within top index) {node : TreeNode}
    (found : tree.get? index = some node) :
    Echoes change (body :: outer) Eq (visitNode config tree visit index node)
      (visitNode config (tree.rename change) twin index
        (node.rename change)) := by
  have dataEq : tree.data? index = some node.data := congrArg (Option.map TreeNode.data) found
  obtain ⟨data, position⟩ := node
  dsimp only at dataEq
  have children : ∀ child ∈ data.ownChildren, VisitEchoes change (body :: outer) visit twin child :=
    fun child member => visits child (within_.child dataEq member)
  have named : ∀ name ∈ data.ownNames, name ∈ body.names :=
    fun name member => enough name (.inr ⟨index, data, within_, dataEq, member⟩)
  have text : ∀ id, (tree.rename change).name (change id) = tree.name id := discerns.text_eq
  have result (kind : NodeKind) (type : ValueType) : Echoes change (body :: outer) Eq
      (some <$> addNode kind (some index) position type)
      (some <$> addNode kind (some index) position type) :=
    (echoes_addNode kind (some index) position type).map fun _ _ => congrArg some
  cases data with
  | root statements => exact (echoes_statements children).andThen fun _ => .pure rfl
  | block statements => exact (echoes_statements children).andThen fun _ => .pure rfl
  | functionDecl name params body =>
      have injective := discerns.nested index _ params body dataEq rfl
      exact (echoes_visitBody injective (inner params body) position (fun _ => .inl)
        fun _ member => absurd member List.not_mem_nil).andThen fun _ => .pure rfl
  | assignment target value =>
      have standing : ∀ child ∈ [target, value], tree.Within top child :=
        fun child member => within_.child dataEq member
      exact echoes_visitAssignment discerns enough visits (standing target (by simp))
        (standing value (by simp)) position
  | objectInstantiation className args =>
      refine (echoes_operands children).andThen fun values => ?_
      rw [text]
      refine (echoes_addAllocation config index position .object _ values.length).andThen
        fun node => (Echoes.forIn_same fun value _ => ?_).andThen fun _ => .pure rfl
      cases value with
      | none => exact .pure ⟨rfl, rfl⟩
      | some value =>
          exact (echoes_passToUnknown value (some index) position).andThen fun _ => .pure ⟨rfl, rfl⟩
  | arrayInit elements =>
      refine (echoes_operands children).andThen fun values =>
        (echoes_addAllocation config index position .array none values.length).andThen fun node =>
          (Echoes.forIn_same fun value _ => ?_).andThen fun _ => .pure rfl
      cases value with
      | none => exact .pure ⟨rfl, rfl⟩
      | some value =>
          exact (echoes_addSink value node .elementOf .storedToArray position).andThen
            fun _ => .pure ⟨rfl, rfl⟩
  | returnStmt value =>
      cases value with
      | none => exact echoes_exit none index .returned position
      | some value =>
          exact (children value (List.mem_singleton_self _)).andThen fun returned =>
            echoes_exit returned index .returned position
  | functionCall name args =>
      exact (echoes_visitArguments position children).andThen fun _ => result .callResult .unknown
  | methodCall object method args =>
      obtain ⟨first, rest⟩ := List.forall_mem_cons.1 children
      exact (echoes_visitArgument first position).andThen fun _ =>
        (echoes_visitArguments position rest).andThen fun _ => result .callResult .unknown
  | propertyAccess object property =>
      refine (children object (List.mem_singleton_self _)).andThen fun base =>
        (echoes_addNode .fieldLoad (some index) position .unknown).andThen fun load => ?_
      rw [text]
      exact echoes_accessOf base load _ .unknown (.pure rfl)
  | arrayAccess array element =>
      obtain ⟨first, rest⟩ := List.forall_mem_cons.1 children
      refine first.andThen fun base =>
        echoes_visitSome (fun child member => rest child (Option.mem_toList.2 member)) ?_
      exact (echoes_addNode .arrayLoad (some index) position .unknown).andThen fun load =>
        echoes_accessOf base load none .unknown (.pure rfl)
  | closure params captures body =>
      have injective := discerns.nested index _ (params ++ captures) body dataEq rfl
      exact (echoes_visitClosure index injective (inner (params ++ captures) body) position named
        (fun _ member => .inl (List.mem_append_left _ member))
        fun _ member => .inl (List.mem_append_right _ member)).map fun _ _ => congrArg some
  | var name =>
      exact (echoes_readVariable (named name (List.mem_singleton_self _)) index position).map
        fun _ _ => congrArg some
  | ifStmt condition thenBranch elseBranch =>
      exact (echoes_visitIf children).andThen fun _ => .pure rfl
  | whileStmt condition body =>
      exact (echoes_visitLoop fun child member => children child
        (by simpa [NodeData.ownChildren, NodeData.children] using member)).andThen
          fun _ => .pure rfl
  | forStmt init condition update body =>
      exact (echoes_visitLoop children).andThen fun _ => .pure rfl
  | foreachStmt iterable key value body =>
      exact (echoes_visitForeach index position children named).andThen fun _ => .pure rfl
  | throwStmt value =>
      exact (children value (List.mem_singleton_self _)).andThen fun thrown =>
        echoes_exit thrown index .thrownAsException position
  | literal value =>
      have type : literalType (value.rename change) = literalType value := by cases value <;> rfl
      show Echoes change (body :: outer) Eq _ (some <$> addNode .constant (some index) position
        (literalType (value.rename change)))
      rw [type]
      exact result .constant (literalType value)
  | global declared =>
      refine (Echoes.forIn fun name member => ?_).andThen fun _ => .pure rfl
      exact (echoes_addNode .globalVar (some index) position .unknown).andThen fun node =>
        (echoes_bind (named name member) node).andThen fun _ => .pure ⟨rfl, rfl⟩
  | other => exact quiet_skip.echoesBind quiet_skip fun _ _ => .pure rfl

end

/-- Visits of a tree under changed names echo visits of the tree. -/
theorem echoes_visit {tree : Tree} (discerns : tree.Discerns change) (config : Config)
    (levels : Nat) {top index : NodeIndex} (within_ : tree.Within top index) (bound : List StrId)
    (scope : Nat) (outer : List Body) :
    VisitEchoes change (⟨scope, tree.bodyNames bound top⟩ :: outer) (visit config tree levels)
      (visit config (tree.rename change) levels) index := by
  induction levels generalizing top index bound scope outer with
  | zero =>
      rw [VisitEchoes, visit, visit, Tree.get?_rename, Option.isSome_map]
      refine quiet_skip.echoesBind quiet_skip fun _ _ => ?_
      split
      next => exact echoes_truncate.andThen fun _ => .pure rfl
      next => exact .pure rfl
  | succ levels inductionHypothesis =>
      rw [VisitEchoes, visit, visit, Tree.get?_rename]
      cases found : tree.get? index with
      | none => exact quiet_skip.echoesBind quiet_skip fun _ _ => .pure rfl
      | some node =>
          exact echoes_visitNode discerns (fun _ => id)
            (fun _ within_ => inductionHypothesis within_ bound scope outer)
            (fun bound _ scope => inductionHypothesis .top bound scope _) within_ found

end Walker

/-- A walk over a tree under changed names echoes the walk over the tree. -/
theorem Walk.echoes_ofTree {tree : Tree} {change : StrId → StrId} (discerns : tree.Discerns change)
    (config : Config) (limit : Nat) :
    Echoes change [⟨0, tree.bodyNames [] tree.root⟩] (ofTree config tree limit)
      (ofTree config (tree.rename change) limit) := by
  have known {key : VarKey} : ¬ initial.HasNoted key := by
    rintro (⟨_, member, -⟩ | ⟨_, member, -⟩) <;> exact absurd member (Array.not_mem_empty _)
  have start : Echoes change [⟨0, tree.bodyNames [] tree.root⟩] initial initial := {
    scope_eq := rfl
    scope_le := by simp
    nested := List.pairwise_singleton _ _
    injective := List.forall_mem_singleton.2 discerns.outermost
    bound := .cons (fun _ member => absurd member List.not_mem_nil) .nil
    known_le := fun _ noted => (known noted).elim
    known_named := fun _ noted => (known noted).elim
    apart := fun _ _ noted => (known noted).elim
    values_eq := rfl
    scopes_eq := rfl
    records_eq := rfl
    same_scope := rfl
    scopeCount_eq := rfl
    mentions_eq := Array.map_empty.symm
    flows_eq := Array.map_empty.symm
    sinks_eq := rfl
    accesses_eq := rfl
    sites_eq := rfl
    truncated_eq := rfl }
  rw [ofTree_eq, ofTree_eq]
  exact (Walker.echoes_visit discerns config limit .top [] 0 [] initial initial start).2

end EscapePlan
