import EscapePlan.Proofs.Analysis.Nesting

/-!
# What the records are records of

Only three kinds of tree nodes make something, and nothing but making it adds a record.  So each
record of a walk is the first one of a tree node that makes something, and the value that it is kept
for comes from that tree node.
-/

namespace EscapePlan

/-- What a tree node makes: an object of some type and perhaps of some class, with so many counted
parts. -/
structure Making where
  objectType : ObjectType
  className : Option StrId
  parts : Nat
  deriving DecidableEq, Repr, Inhabited

/-- What a tree node makes, if it makes anything. -/
def NodeData.making? : NodeData → Option Making
  | .objectInstantiation className args => some ⟨.object, some className, args.length⟩
  | .arrayInit elements => some ⟨.array, none, elements.length⟩
  | .closure _ captures _ => some ⟨.closure, none, captures.length⟩
  | _ => none

/-- The first record of what a tree node makes. -/
def Making.record (making : Making) (config : Config) (tree : Tree) (node : TreeNode)
    (id : NodeId) : EscapeRecord :=
  Walker.siteRecord config id making.objectType (making.className.map tree.name) node.span
    making.parts

namespace Walk

/-- A record is the first one of what a tree node makes, and the value that it is kept for comes
from that tree node. -/
structure StemsFrom (config : Config) (tree : Tree) (walk : Walk) (id : NodeId)
    (record : EscapeRecord) (index : NodeIndex) (making : Making) : Prop where
  origin : ∃ value, walk.graph.values.node? id = some value ∧ value.origin = some index
  makes : ∃ node, tree.get? index = some node ∧ node.data.making? = some making ∧
    record = making.record config tree node id

/-- Every record stems from a tree node. -/
def Rooted (config : Config) (tree : Tree) (walk : Walk) : Prop :=
  ∀ id record, walk.records.find? id = some record →
    ∃ index making, walk.StemsFrom config tree id record index making

/-- Nothing has been made, and no value has been lost. -/
structure Unmade (before after : Walk) : Prop where
  records_eq : after.records = before.records
  values : ∀ id value, before.graph.values.node? id = some value →
    after.graph.values.node? id = some value

variable {config : Config} {tree : Tree} {before after : Walk}

theorem StemsFrom.last {id : NodeId} {record : EscapeRecord} {index : NodeIndex} {making : Making}
    (stems : before.StemsFrom config tree id record index making)
    (values : ∀ id value, before.graph.values.node? id = some value →
      after.graph.values.node? id = some value) :
    after.StemsFrom config tree id record index making :=
  { stems with
    origin := by
      obtain ⟨value, found, origin⟩ := stems.origin
      exact ⟨value, values id value found, origin⟩ }

theorem Rooted.last (rooted : before.Rooted config tree) (unmade : Unmade before after) :
    after.Rooted config tree := by
  intro id record found
  rw [unmade.records_eq] at found
  obtain ⟨index, making, stems⟩ := rooted id record found
  exact ⟨index, making, stems.last unmade.values⟩

end Walk

namespace Walker

open Walk

variable {α β γ : Type} {config : Config} {tree : Tree}

/-- After an action every record stems from a tree node if every record did before. -/
def Roots (config : Config) (tree : Tree) (action : Walker α) : Prop :=
  ∀ walk : Walk, walk.Rooted config tree → (action walk).2.Rooted config tree

/-! ## Actions one after the other -/

theorem Roots.pure (value : α) : Roots config tree (pure value) :=
  fun _ rooted => rooted

theorem Roots.bind {action : Walker α} {next : α → Walker β} (first : Roots config tree action)
    (rest : ∀ value, Roots config tree (next value)) : Roots config tree (action >>= next) :=
  fun walk rooted => rest _ _ (first walk rooted)

theorem Roots.get {next : Walk → Walker β} (rest : ∀ walk, Roots config tree (next walk)) :
    Roots config tree (get >>= next) :=
  fun walk rooted => rest walk walk rooted

theorem Roots.map {action : Walker α} (change : α → β) (roots : Roots config tree action) :
    Roots config tree (change <$> action) :=
  roots

theorem roots_forIn {items : List γ} {body : γ → PUnit → Walker (ForInStep PUnit)}
    (each : ∀ item, Roots config tree (body item .unit)) :
    Roots config tree (forIn items PUnit.unit body) := by
  induction items with
  | nil => exact .pure _
  | cons item rest inductionHypothesis =>
      rw [List.forIn_cons]
      refine (each item).bind fun step => ?_
      cases step with
      | done => exact .pure _
      | yield => exact inductionHypothesis

theorem roots_mapM {items : List γ} {action : γ → Walker α}
    (each : ∀ item, Roots config tree (action item)) : Roots config tree (items.mapM action) := by
  induction items with
  | nil => exact .pure _
  | cons item rest inductionHypothesis =>
      rw [List.mapM_cons]
      exact (each item).bind fun _ => inductionHypothesis.bind fun _ => .pure _

/-! ## Steps that make nothing -/

theorem roots_of_unmade {action : Walker α} (unmade : ∀ walk, Unmade walk (action walk).2) :
    Roots config tree action :=
  fun walk rooted => rooted.last (unmade walk)

theorem roots_addNode (kind : NodeKind) (origin : Option NodeIndex) (position : Option Position)
    (type : ValueType) : Roots config tree (addNode kind origin position type) :=
  roots_of_unmade fun _ => ⟨rfl, fun _ _ found => ValueGraph.node?_of_addNode found⟩

theorem roots_addEdge (source target : NodeId) (kind : EdgeKind) :
    Roots config tree (addEdge source target kind) := by
  refine roots_of_unmade fun walk => ⟨rfl, fun id value found => ?_⟩
  show (walk.graph.values.addEdge ⟨source, target, kind⟩).nodes[id]? = some value
  rw [ValueGraph.nodes_addEdge]
  exact found

theorem roots_modifyFlow (change : ControlFlow → ControlFlow) :
    Roots config tree (modifyFlow change) :=
  roots_of_unmade fun _ => ⟨rfl, fun _ _ found => found⟩

theorem roots_modifyScopes (change : Scopes → Scopes) : Roots config tree (modifyScopes change) :=
  roots_of_unmade fun _ => ⟨rfl, fun _ _ found => found⟩

theorem roots_moveTo (block : BlockId) : Roots config tree (moveTo block) :=
  roots_of_unmade fun _ => ⟨rfl, fun _ _ found => found⟩

theorem roots_newBlock : Roots config tree newBlock :=
  roots_of_unmade fun _ => ⟨rfl, fun _ _ found => found⟩

theorem roots_newRegion : Roots config tree newRegion :=
  roots_of_unmade fun _ => ⟨rfl, fun _ _ found => found⟩

theorem roots_skip : Roots config tree skip :=
  roots_of_unmade fun _ => ⟨rfl, fun _ _ found => found⟩

theorem roots_truncate : Roots config tree truncate :=
  roots_of_unmade fun _ => ⟨rfl, fun _ _ found => found⟩

theorem roots_addFlow (key : VarKey) (value : NodeId) : Roots config tree (addFlow key value) :=
  roots_of_unmade fun _ => ⟨rfl, fun _ _ found => found⟩

theorem roots_defineVariable (name : StrId) (node : NodeId) :
    Roots config tree (defineVariable name node) :=
  roots_of_unmade fun _ => ⟨rfl, fun _ _ found => found⟩

theorem roots_connect (source target : BlockId) : Roots config tree (connect source target) :=
  roots_modifyFlow _

theorem roots_currentBlock : Roots config tree currentBlock :=
  .get fun _ => .pure _

theorem roots_branchFrom (source : BlockId) : Roots config tree (branchFrom source) :=
  roots_newBlock.bind fun _ => (roots_connect _ _).bind fun _ => (roots_moveTo _).bind fun _ =>
    .pure _

theorem roots_leaveControl : Roots config tree leaveControl :=
  roots_newBlock.bind fun _ => roots_moveTo _

theorem roots_readVariable (name : StrId) (origin : NodeIndex) (position : Option Position) :
    Roots config tree (readVariable name origin position) := by
  refine .get fun walk => ?_
  split
  next => exact .pure _
  next =>
    refine (roots_addNode _ _ _ _).bind fun node => Roots.bind ?_ fun _ => .pure node
    exact roots_of_unmade fun _ => ⟨rfl, fun _ _ found => found⟩

theorem roots_addUse (value target : NodeId) : Roots config tree (addUse value target) := by
  refine .get fun walk => ?_
  split
  next => exact roots_addEdge value target .defUse
  next => exact .pure _

theorem roots_addSink (value target : NodeId) (kind : EdgeKind) (reason : EscapeReason)
    (position : Option Position) : Roots config tree (addSink value target kind reason position) :=
  (roots_addUse value target).bind fun _ =>
    roots_of_unmade fun _ => ⟨rfl, fun _ _ found => found⟩

theorem roots_addAccess (base node : NodeId) (field : Option String) (type : ValueType) :
    Roots config tree (addAccess base node field type) :=
  (roots_addUse base node).bind fun _ => roots_of_unmade fun _ => ⟨rfl, fun _ _ found => found⟩

theorem roots_passToUnknown (value : NodeId) (origin : Option NodeIndex)
    (position : Option Position) : Roots config tree (passToUnknown value origin position) :=
  (roots_addNode _ _ _ _).bind fun _ => roots_addSink _ _ _ _ _

theorem roots_accessOf (base : Option NodeId) (node : NodeId) (field : Option String)
    (type : ValueType) {next : Walker β} (rest : Roots config tree next) :
    Roots config tree (do
      if let some base := base then
        addAccess base node field type
      next) := by
  cases base with
  | none => exact rest
  | some base => exact (roots_addAccess base node field type).bind fun _ => rest

theorem roots_sinkOf (value : Option NodeId) (target : NodeId) (kind : EdgeKind)
    (reason : EscapeReason) (position : Option Position) {next : Walker β}
    (rest : Roots config tree next) :
    Roots config tree (do
      if let some value := value then
        addSink value target kind reason position
      next) := by
  cases value with
  | none => exact rest
  | some value => exact (roots_addSink value target kind reason position).bind fun _ => rest

theorem roots_assignVariable (name : StrId) (target : NodeIndex) (value : Option NodeId)
    (type : ValueType) (position : Option Position) :
    Roots config tree (assignVariable name target value type position) := by
  refine .get fun walk => ?_
  split
  next existing _ => exact roots_sinkOf value existing _ _ _ (.pure existing)
  next =>
    refine (roots_addNode _ _ _ _).bind fun node => (roots_defineVariable _ _).bind fun key => ?_
    cases value with
    | none => exact .pure _
    | some value =>
        exact (roots_addFlow key value).bind fun _ => (roots_addUse value node).bind fun _ =>
          .pure _

/-- The end of a statement that control does not come back from. -/
theorem roots_exit (value : Option NodeId) (index : NodeIndex) (reason : EscapeReason)
    (position : Option Position) :
    Roots config tree (do
      let exit ← addNode .returnValue (some index) position .unknown
      if let some value := value then
        addSink value exit .defUse reason position
      leaveControl
      return (none : Option NodeId)) :=
  (roots_addNode _ _ _ _).bind fun exit =>
    roots_sinkOf value exit .defUse reason position (roots_leaveControl.bind fun _ => .pure none)

/-! ## Allocations -/

/-- What a tree node makes gets a record that stems from it. -/
theorem roots_addAllocation {index : NodeIndex} {node : TreeNode} {making : Making} {count : Nat}
    (found : tree.get? index = some node) (makes : node.data.making? = some making)
    (counted : count = making.parts) :
    Roots config tree (addAllocation config index node.span making.objectType
      (making.className.map tree.name) count) := by
  subst counted
  intro walk rooted id record foundRecord
  have values : ∀ id value, walk.graph.values.node? id = some value →
      (addNode .allocation (some index) node.span (allocatedType making.objectType)
        walk).2.graph.values.node? id = some value :=
    fun _ _ found => ValueGraph.node?_of_addNode found
  rw [addAllocation_eq, noteSite, Table.find?_insert, node_siteRecord] at foundRecord
  split at foundRecord
  next same =>
    cases foundRecord
    subst same
    refine ⟨index, making, ⟨?_, node, found, makes, rfl⟩⟩
    rw [addAllocation_eq]
    exact ⟨_, (walk.graph.values.node?_addNode .allocation (some index) _ _ _).trans (if_pos rfl),
      rfl⟩
  next =>
    obtain ⟨origin, other, stems⟩ := rooted id record foundRecord
    refine ⟨origin, other, stems.last ?_⟩
    rw [addAllocation_eq]
    exact values

/-! ## Visits -/

variable {visit : Visit} (roots : ∀ index, Roots config tree (visit index))
include roots

theorem roots_statements (statements : List NodeIndex) :
    Roots config tree (forIn statements PUnit.unit fun statement _ => do
      let _ ← visit statement
      return .yield PUnit.unit) :=
  roots_forIn fun statement => (roots statement).bind fun _ => .pure _

theorem roots_visitBody (params : List StrId) (captures : List (StrId × NodeId × NodeId))
    (body : NodeIndex) (position : Option Position) :
    Roots config tree (visitBody visit params captures body position) := by
  have inside : Roots config tree (walkBody visit params captures body position) := by
    refine roots_newRegion.bind fun _ => (roots_moveTo _).bind fun _ => ?_
    refine (roots_forIn fun param => ?_).bind fun _ => ?_
    · exact (roots_addNode _ _ _ _).bind fun _ => (roots_defineVariable _ _).bind fun _ => .pure _
    refine (roots_forIn fun capture => ?_).bind fun _ => roots body
    exact (roots_defineVariable _ _).bind fun _ => (roots_addFlow _ _).bind fun _ => .pure _
  intro walk rooted
  have entered : (enterBody walk).Rooted config tree := rooted.last ⟨rfl, fun _ _ found => found⟩
  rw [visitBody_eq]
  exact (inside _ entered).last ⟨rfl, fun _ _ found => found⟩

theorem roots_visitClosure {index : NodeIndex} {node : TreeNode} {params captures : List StrId}
    {body : NodeIndex} (found : tree.get? index = some node)
    (makes : node.data.making? = some ⟨.closure, none, captures.length⟩) :
    Roots config tree (visitClosure config visit index params captures body node.span) := by
  rw [visitClosure_eq]
  refine (roots_mapM fun name => ?_).bind fun bound => ?_
  · exact (roots_readVariable _ _ _).bind fun _ => (roots_addNode _ _ _ _).bind fun _ =>
      (roots_addSink _ _ _ _ _).bind fun _ => .pure _
  refine Roots.bind ?_ fun closure => ?_
  · refine (roots_addAllocation found makes rfl).bind fun closure => ?_
    exact (roots_forIn fun _ => (roots_addEdge _ _ _).bind fun _ => .pure _).bind fun _ => .pure _
  exact (roots_visitBody roots _ _ _ _).bind fun _ => .pure _

theorem roots_visitIf (condition thenBranch : NodeIndex) (elseBranch : Option NodeIndex) :
    Roots config tree (visitIf visit condition thenBranch elseBranch) := by
  have join (thenEnd elseEnd : BlockId) : Roots config tree (do
      let join ← newBlock
      connect thenEnd join
      connect elseEnd join
      moveTo join) :=
    roots_newBlock.bind fun _ => (roots_connect _ _).bind fun _ => (roots_connect _ _).bind fun _ =>
      roots_moveTo _
  refine (roots condition).bind fun _ => roots_currentBlock.bind fun pivot => ?_
  refine (roots_branchFrom _).bind fun _ => (roots thenBranch).bind fun _ => ?_
  refine roots_currentBlock.bind fun thenEnd => ?_
  cases elseBranch with
  | none => exact join thenEnd pivot
  | some elseBranch =>
      refine (roots_branchFrom _).bind fun _ => (roots elseBranch).bind fun _ => ?_
      exact roots_currentBlock.bind fun elseEnd => join thenEnd elseEnd

theorem roots_visitLoop (init : List NodeIndex) (condition : Option NodeIndex)
    (update : List NodeIndex) (body : NodeIndex) :
    Roots config tree (visitLoop visit init condition update body) := by
  refine (roots_statements roots init).bind fun _ => roots_currentBlock.bind fun _ => ?_
  refine (roots_branchFrom _).bind fun header => ?_
  have round : Roots config tree (do
      let decision ← currentBlock
      let _ ← branchFrom decision
      let _ ← visit body
      for statement in update do
        let _ ← visit statement
      connect (← currentBlock) header
      let _ ← branchFrom decision) := by
    refine roots_currentBlock.bind fun decision => (roots_branchFrom _).bind fun _ => ?_
    refine (roots body).bind fun _ => (roots_statements roots update).bind fun _ => ?_
    refine roots_currentBlock.bind fun _ => (roots_connect _ _).bind fun _ => ?_
    exact (roots_branchFrom _).bind fun _ => .pure _
  cases condition with
  | none => exact round
  | some condition => exact (roots condition).bind fun _ => round

theorem roots_visitForeach (index iterable : NodeIndex) (key : Option StrId) (value : StrId)
    (body : NodeIndex) (position : Option Position) :
    Roots config tree (visitForeach visit index iterable key value body position) := by
  refine (roots iterable).bind fun source => roots_currentBlock.bind fun _ => ?_
  refine (roots_branchFrom _).bind fun header => (roots_branchFrom _).bind fun _ => ?_
  refine (roots_addNode _ _ _ _).bind fun element => ?_
  have round : Roots config tree
      (visitElement visit index none value body position element header) := by
    refine (roots_addNode _ _ _ _).bind fun node => (roots_addEdge _ _ _).bind fun _ => ?_
    refine (roots_defineVariable value node).bind fun _ => (roots body).bind fun _ => ?_
    refine roots_currentBlock.bind fun _ => (roots_connect _ _).bind fun _ => ?_
    exact (roots_branchFrom _).bind fun _ => .pure _
  refine roots_accessOf source element none .unknown ?_
  cases key with
  | none => exact round
  | some key =>
      exact (roots_addNode _ _ _ _).bind fun node => (roots_defineVariable key node).bind fun _ =>
        round

theorem roots_storeProperty (target object : NodeIndex) (property : StrId)
    (value : Option NodeId) (type : ValueType) (position : Option Position) :
    Roots config tree (storeProperty tree visit target object property value type position) := by
  refine (roots object).bind fun base => (roots_addNode _ _ _ _).bind fun store => ?_
  exact roots_accessOf base store _ type (roots_sinkOf value store _ _ _ (.pure store))

theorem roots_storeElement (target array : NodeIndex) (element : Option NodeIndex)
    (value : Option NodeId) (type : ValueType) (position : Option Position) :
    Roots config tree (storeElement visit target array element value type position) := by
  refine (roots array).bind fun base => ?_
  have store : Roots config tree (do
      let store ← addNode .arrayStore (some target) position type
      if let some base := base then
        addAccess base store none type
      if let some value := value then
        addSink value store .elementOf .storedToArray position
      return store) :=
    (roots_addNode _ _ _ _).bind fun store =>
      roots_accessOf base store none type (roots_sinkOf value store _ _ _ (.pure store))
  cases element with
  | none => exact store
  | some element => exact (roots element).bind fun _ => store

theorem roots_storeElsewhere (target : NodeIndex) (isDangling : Bool) (value : Option NodeId)
    (type : ValueType) (position : Option Position) :
    Roots config tree (storeElsewhere visit target isDangling value type position) := by
  have store : Roots config tree (do
      let sink ← addNode .globalVar (some target) position type
      if let some value := value then
        addSink value sink .defUse .storedToHeap position) :=
    (roots_addNode _ _ _ _).bind fun sink =>
      roots_sinkOf value sink _ _ _ (.pure PUnit.unit)
  cases isDangling with
  | true => exact store
  | false => exact (roots target).bind fun _ => store

theorem roots_visitAssignment (target value : NodeIndex) (position : Option Position) :
    Roots config tree (visitAssignment tree visit target value position) := by
  refine (roots value).bind fun result => .get fun walk => ?_
  generalize ((result.bind walk.graph.values.node?).map (·.type)).getD .unknown = type
  cases tree.data? target with
  | none =>
      exact (roots_storeElsewhere roots target true result type position).bind fun _ => .pure _
  | some data =>
      cases data with
      | var name => exact (roots_assignVariable name target result type position).map some
      | propertyAccess object property =>
          exact (roots_storeProperty roots target object property result type position).map some
      | arrayAccess array element =>
          exact (roots_storeElement roots target array element result type position).map some
      | _ =>
          exact (roots_storeElsewhere roots target false result type position).bind fun _ => .pure _

theorem roots_visitArgument (position : Option Position) (arg : NodeIndex) :
    Roots config tree (visitArgument visit position arg) := by
  refine (roots arg).bind fun value => ?_
  cases value with
  | none => exact .pure _
  | some value => exact roots_passToUnknown value (some arg) position

/-- There are as many values of operands as there are operands. -/
theorem roots_operands {operands : List NodeIndex} {next : List (Option NodeId) → Walker β}
    (rest : ∀ values, values.length = operands.length → Roots config tree (next values)) :
    Roots config tree (operands.mapM visit >>= next) := by
  induction operands generalizing next with
  | nil => exact rest [] rfl
  | cons operand operands inductionHypothesis =>
      rw [List.mapM_cons, bind_assoc]
      refine (roots operand).bind fun value => ?_
      simp only [bind_assoc, pure_bind]
      exact inductionHypothesis fun values same => rest _ (congrArg (· + 1) same)

/-- What a visit of a tree node makes stems from it, and from the nodes below it. -/
theorem roots_visitNode {index : NodeIndex} {node : TreeNode}
    (found : tree.get? index = some node) :
    Roots config tree (visitNode config tree visit index node) := by
  obtain ⟨data, position⟩ := node
  have result : Roots config tree
      (some <$> addNode .callResult (some index) position .unknown) :=
    (roots_addNode _ _ _ _).map some
  have arguments (args : List NodeIndex) : Roots config tree
      (forIn args PUnit.unit fun arg _ => do
        visitArgument visit position arg
        return .yield PUnit.unit) :=
    roots_forIn fun arg => (roots_visitArgument roots position arg).bind fun _ => .pure _
  cases data with
  | root statements => exact (roots_statements roots statements).bind fun _ => .pure none
  | block statements => exact (roots_statements roots statements).bind fun _ => .pure none
  | functionDecl name params body =>
      exact (roots_visitBody roots params [] body position).bind fun _ => .pure none
  | assignment target value => exact roots_visitAssignment roots target value position
  | objectInstantiation className args =>
      refine roots_operands roots fun values same => ?_
      refine (roots_addAllocation found rfl same).bind fun object => ?_
      refine (roots_forIn fun value => ?_).bind fun _ => .pure _
      cases value with
      | none => exact .pure _
      | some value =>
          exact (roots_passToUnknown value (some index) position).bind fun _ => .pure _
  | arrayInit elements =>
      refine roots_operands roots fun values same => ?_
      refine (roots_addAllocation found rfl same).bind fun array => ?_
      refine (roots_forIn fun value => ?_).bind fun _ => .pure _
      exact roots_sinkOf value array .elementOf .storedToArray position (.pure _)
  | returnStmt value =>
      cases value with
      | none => exact roots_exit none index .returned position
      | some value =>
          exact (roots value).bind fun value => roots_exit value index .returned position
  | functionCall callee args => exact (arguments args).bind fun _ => result
  | methodCall object method args =>
      exact (roots_visitArgument roots position object).bind fun _ =>
        (arguments args).bind fun _ => result
  | propertyAccess object property =>
      refine (roots object).bind fun base => (roots_addNode _ _ _ _).bind fun load => ?_
      exact roots_accessOf base load _ .unknown (.pure _)
  | arrayAccess array element =>
      refine (roots array).bind fun base => ?_
      have load : Roots config tree (do
          let load ← addNode .arrayLoad (some index) position .unknown
          if let some base := base then
            addAccess base load none .unknown
          return some load) :=
        (roots_addNode _ _ _ _).bind fun load =>
          roots_accessOf base load none .unknown (.pure _)
      cases element with
      | none => exact load
      | some element => exact (roots element).bind fun _ => load
  | closure params captures body => exact (roots_visitClosure roots found rfl).map some
  | var name => exact (roots_readVariable name index position).map some
  | ifStmt condition thenBranch elseBranch =>
      exact (roots_visitIf roots condition thenBranch elseBranch).bind fun _ => .pure none
  | whileStmt condition body =>
      exact (roots_visitLoop roots [] (some condition) [] body).bind fun _ => .pure none
  | forStmt init condition update body =>
      exact (roots_visitLoop roots init condition update body).bind fun _ => .pure none
  | foreachStmt iterable key value body =>
      exact (roots_visitForeach roots index iterable key value body position).bind fun _ =>
        .pure none
  | throwStmt value =>
      exact (roots value).bind fun value => roots_exit value index .thrownAsException position
  | literal value => exact (roots_addNode _ _ _ _).map some
  | global names =>
      refine (roots_forIn fun name => ?_).bind fun _ => .pure none
      exact (roots_addNode _ _ _ _).bind fun _ => (roots_modifyScopes _).bind fun _ => .pure _
  | other => exact roots_skip.bind fun _ => .pure none

omit roots in
/-- Whatever is made below a tree node stems from a tree node. -/
theorem roots_visit (config : Config) (tree : Tree) (levels : Nat) (index : NodeIndex) :
    Roots config tree (Walker.visit config tree levels index) := by
  induction levels generalizing index with
  | zero =>
      refine roots_skip.bind fun _ => ?_
      split
      next => exact roots_truncate.bind fun _ => .pure none
      next => exact .pure none
  | succ levels inductionHypothesis =>
      rw [Walker.visit]
      cases found : tree.get? index with
      | none => exact roots_skip.bind fun _ => .pure none
      | some node => exact roots_visitNode inductionHypothesis found

end Walker

namespace Walk

/-- Every record of a walk over a tree stems from a tree node. -/
theorem ofTree_rooted (config : Config) (tree : Tree) (levels : Nat) :
    (ofTree config tree levels).Rooted config tree := by
  rw [ofTree_eq]
  refine Walker.roots_visit config tree _ tree.root initial fun id record found => ?_
  have none : initial.records.find? id = none := Table.find?_empty id
  rw [none] at found
  cases found

end Walk

end EscapePlan
