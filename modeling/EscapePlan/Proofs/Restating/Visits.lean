import EscapePlan.Proofs.Analysis.Depth
import EscapePlan.Proofs.Analysis.Nesting
import EscapePlan.Proofs.Restating.Walks

/-!
# Visits that skip more

If the visits that are made below a node skip some tree nodes more than others, so does the visit of
the node, and it does the same apart from that.  How many more is told by the nodes that are evaluated:
a node counts as often as it occurs among them.
-/

namespace EscapePlan

/-- The node that a step evaluates. -/
def Step.evaluated? : Step → Option NodeIndex
  | .visit child | .enter child => some child
  | .allocate | .declare _ | .overwrite _ => none

/-- What is evaluated of the nodes below a node, in order. -/
def NodeData.evaluated (tree : Tree) (data : NodeData) : List NodeIndex :=
  (data.plan tree).filterMap Step.evaluated?

theorem Step.filterMap_visit (children : List NodeIndex) :
    (children.map Step.visit).filterMap evaluated? = children := by
  rw [List.filterMap_map]
  exact List.filterMap_some

/-- All that a node refers to is evaluated once, unless a place is assigned to. -/
theorem NodeData.evaluated_eq_children (tree : Tree) {data : NodeData}
    (other : ∀ target value, data ≠ .assignment target value) :
    data.evaluated tree = data.children := by
  have visits (children : List NodeIndex) :
      (children.map Step.visit).filterMap Step.evaluated? = children := Step.filterMap_visit children
  cases data with
  | assignment target value => exact absurd rfl (other target value)
  | _ =>
      simp [evaluated, plan, children, List.filterMap_append, List.filterMap_cons,
        Step.evaluated?, -List.filterMap_map, visits]

/-- A root or a block with other statements. -/
def NodeData.restate (statements : List NodeIndex) : NodeData → NodeData
  | .root _ => .root statements
  | .block _ => .block statements
  | data => data

theorem NodeData.restate_restate (first second : List NodeIndex) (data : NodeData) :
    (data.restate first).restate second = data.restate second := by
  cases data <;> rfl

/-- Two trees have the same at an index, or two roots or two blocks with any statements. -/
def Tree.SamePlace (one two : Tree) (index : NodeIndex) : Prop :=
  ∃ statements, (two.data? index).map (NodeData.restate statements) =
    (one.data? index).map (NodeData.restate statements)

/-- What assigning to a place evaluates, by what stands there. -/
def NodeData.planOfTarget (target : NodeIndex) : Option NodeData → List Step
  | none | some (.var _) => []
  | some (.propertyAccess object _) => [.visit object]
  | some (.arrayAccess array index) => .visit array :: index.toList.map .visit
  | some _ => [.visit target]

/-- What assigning to a place evaluates is the same for any statements. -/
theorem Tree.SamePlace.targetPlan_eq {one two : Tree} {target : NodeIndex}
    (same : one.SamePlace two target) : two.targetPlan target = one.targetPlan target := by
  obtain ⟨statements, places⟩ := same
  have restated (tree : Tree) : tree.targetPlan target =
      NodeData.planOfTarget target ((tree.data? target).map (NodeData.restate statements)) := by
    rw [targetPlan]
    cases tree.data? target with
    | none => rfl
    | some data => cases data <;> rfl
  rw [restated, restated, places]

theorem NodeData.evaluated_eq_of_samePlace {one two : Tree} {data : NodeData}
    (places : ∀ child ∈ data.children, one.SamePlace two child) :
    data.evaluated two = data.evaluated one := by
  by_cases assigns : ∃ target value, data = .assignment target value
  · obtain ⟨target, value, rfl⟩ := assigns
    show value :: (two.targetPlan target).filterMap _ = value :: (one.targetPlan target).filterMap _
    rw [(places target List.mem_cons_self).targetPlan_eq]
  · have others : ∀ target value, data ≠ .assignment target value :=
      fun target value equal => assigns ⟨target, value, equal⟩
    rw [evaluated_eq_children two others, evaluated_eq_children one others]

namespace Walker

variable {α β : Type} {more : Nat} {count : NodeIndex → Nat} {visit twin : Visit}

/-! ## Values that may be there -/

theorem skipsMore_sinkOf (value : Option NodeId) (target : NodeId) (kind : EdgeKind)
    (reason : EscapeReason) (position : Option Position) {next nextTwin : Walker α}
    (rest : SkipsMore more next nextTwin) :
    SkipsMore more
      (do
        if let some value := value then
          addSink value target kind reason position
        next)
      (do
        if let some value := value then
          addSink value target kind reason position
        nextTwin) := by
  cases value with
  | none => exact rest
  | some value =>
      exact (takesNoNotice_addSink value target kind reason position).after fun _ => rest

theorem skipsMore_accessOf (base : Option NodeId) (node : NodeId) (field : Option String)
    (type : ValueType) {next nextTwin : Walker α} (rest : SkipsMore more next nextTwin) :
    SkipsMore more
      (do
        if let some base := base then
          addAccess base node field type
        next)
      (do
        if let some base := base then
          addAccess base node field type
        nextTwin) := by
  cases base with
  | none => exact rest
  | some base => exact (takesNoNotice_addAccess base node field type).after fun _ => rest

theorem takesNoNotice_assignVariable (name : StrId) (target : NodeIndex) (value : Option NodeId)
    (type : ValueType) (position : Option Position) :
    TakesNoNotice (assignVariable name target value type position) := by
  refine .get (fun _ _ => rfl) fun walk => ?_
  split
  next existing _ =>
    exact skipsMore_sinkOf value existing .defUse .assignedToGlobal position (.pure existing)
  next =>
    refine (takesNoNotice_addNode .localVar (some target) position type).after fun node =>
      (takesNoNotice_defineVariable name node).after fun key => ?_
    cases value with
    | none => exact .pure node
    | some value =>
        exact (takesNoNotice_addFlow key value).after fun _ =>
          (takesNoNotice_addUse value node).after fun _ => .pure node

/-! ## Statements -/

/-- A node is visited if it is there, and its value is of no account. -/
theorem skipsMore_visitSome {index : Option NodeIndex}
    (children : ∀ child ∈ index.toList, SkipsMore (count child) (visit child) (twin child))
    {next nextTwin : Walker α} (rest : SkipsMore more next nextTwin) :
    SkipsMore ((index.toList.map count).sum + more)
      (do
        if let some index := index then
          let _ ← visit index
        next)
      (do
        if let some index := index then
          let _ ← twin index
        nextTwin) := by
  cases index with
  | none => exact rest.cast (Nat.zero_add more).symm
  | some index => exact ((children index List.mem_cons_self).bind fun _ => rest).cast (by simp)

theorem skipsMore_visitIf {condition thenBranch : NodeIndex} {elseBranch : Option NodeIndex}
    (children : ∀ child ∈ condition :: thenBranch :: elseBranch.toList,
      SkipsMore (count child) (visit child) (twin child)) :
    SkipsMore ((condition :: thenBranch :: elseBranch.toList).map count).sum
      (visitIf visit condition thenBranch elseBranch)
      (visitIf twin condition thenBranch elseBranch) := by
  rw [List.map_cons, List.map_cons, List.sum_cons, List.sum_cons]
  refine (children condition (by simp)).bind fun _ => takesNoNotice_currentBlock.after fun pivot =>
    (takesNoNotice_branchFrom pivot).after fun _ => (children thenBranch (by simp)).bind fun _ =>
      takesNoNotice_currentBlock.after fun thenEnd => ?_
  have join (elseEnd : BlockId) : TakesNoNotice
      (do
        let join ← newBlock
        connect thenEnd join
        connect elseEnd join
        moveTo join) :=
    fun _ _ => rfl
  cases elseBranch with
  | none => exact join pivot
  | some elseBranch =>
      exact (takesNoNotice_branchFrom pivot).after fun _ =>
        (children elseBranch (by simp)).bind fun _ => takesNoNotice_currentBlock.after join

theorem skipsMore_visitLoop {init update : List NodeIndex} {condition : Option NodeIndex}
    {body : NodeIndex}
    (children : ∀ child ∈ init ++ condition.toList ++ body :: update,
      SkipsMore (count child) (visit child) (twin child)) :
    SkipsMore ((init ++ condition.toList ++ body :: update).map count).sum
      (visitLoop visit init condition update body) (visitLoop twin init condition update body) := by
  have roundEnd (header decision : BlockId) : TakesNoNotice
      (do
        connect (← currentBlock) header
        let _ ← branchFrom decision) :=
    fun _ _ => rfl
  refine .cast ((SkipsMore.forIn fun child member => children child (by simp [member])).bind fun _ =>
    takesNoNotice_currentBlock.after fun before =>
      (takesNoNotice_branchFrom before).after fun header =>
        skipsMore_visitSome (fun child member => children child (by simp_all)) <|
          takesNoNotice_currentBlock.after fun decision =>
            (takesNoNotice_branchFrom decision).after fun _ =>
              (children body (by simp)).bind fun _ =>
                (SkipsMore.forIn fun child member => children child (by simp [member])).bind fun _ =>
                  roundEnd header decision) ?_
  simp

theorem skipsMore_visitForeach (index : NodeIndex) {iterable body : NodeIndex} (key : Option StrId)
    (value : StrId) (position : Option Position)
    (children : ∀ child ∈ [iterable, body], SkipsMore (count child) (visit child) (twin child)) :
    SkipsMore (count iterable + count body)
      (visitForeach visit index iterable key value body position)
      (visitForeach twin index iterable key value body position) := by
  have round (header : BlockId) (element : NodeId) : SkipsMore (count body)
      (do
        let node ← addNode .localVar (some index) position .unknown
        addEdge element node .defUse
        let _ ← defineVariable value node
        let _ ← visit body
        connect (← currentBlock) header
        let _ ← branchFrom header)
      (do
        let node ← addNode .localVar (some index) position .unknown
        addEdge element node .defUse
        let _ ← defineVariable value node
        let _ ← twin body
        connect (← currentBlock) header
        let _ ← branchFrom header) :=
    (takesNoNotice_addNode .localVar (some index) position .unknown).after fun node =>
      (takesNoNotice_addEdge element node .defUse).after fun _ =>
        (takesNoNotice_defineVariable value node).after fun _ =>
          (children body (by simp)).before fun _ _ _ => rfl
  refine ((children iterable (by simp)).bind fun source =>
    takesNoNotice_currentBlock.after fun before =>
      (takesNoNotice_branchFrom before).after fun header =>
        (takesNoNotice_branchFrom header).after fun _ =>
          (takesNoNotice_addNode .arrayLoad (some index) position .unknown).after fun element =>
            skipsMore_accessOf source element none .unknown ?_)
  cases key with
  | none => exact round header element
  | some key =>
      exact (takesNoNotice_addNode .localVar (some index) position .unknown).after fun node =>
        (takesNoNotice_defineVariable key node).after fun _ => round header element

/-! ## Arguments -/

theorem skipsMore_visitArgument {argument : NodeIndex}
    (child : SkipsMore more (visit argument) (twin argument)) (position : Option Position) :
    SkipsMore more (visitArgument visit position argument)
      (visitArgument twin position argument) := by
  refine child.before fun value => ?_
  cases value with
  | none => exact .pure _
  | some value => exact takesNoNotice_passToUnknown value (some argument) position

theorem skipsMore_visitArguments {arguments : List NodeIndex} (position : Option Position)
    (children : ∀ child ∈ arguments, SkipsMore (count child) (visit child) (twin child)) :
    SkipsMore (arguments.map count).sum
      (forIn arguments PUnit.unit fun argument _ => do
        visitArgument visit position argument
        return .yield PUnit.unit)
      (forIn arguments PUnit.unit fun argument _ => do
        visitArgument twin position argument
        return .yield PUnit.unit) :=
  .forIn fun child member => skipsMore_visitArgument (children child member) position

/-! ## Bodies -/

theorem skipsMore_visitBody (params : List StrId) (captures : List (StrId × NodeId × NodeId))
    {body : NodeIndex} (child : SkipsMore more (visit body) (twin body))
    (position : Option Position) :
    SkipsMore more (visitBody visit params captures body position)
      (visitBody twin params captures body position) := by
  have fills : SkipsMore more (fillBody visit params captures body position)
      (fillBody twin params captures body position) := by
    refine (TakesNoNotice.forIn fun param => ?_).after fun _ =>
      (TakesNoNotice.forIn fun capture => ?_).after fun _ => child
    · exact (takesNoNotice_addNode .parameter none position .unknown).after fun node =>
        (takesNoNotice_defineVariable param node).after fun _ => .pure _
    · exact (takesNoNotice_defineVariable capture.1 capture.2.1).after fun key =>
        (takesNoNotice_addFlow key capture.2.2).after fun _ => .pure _
  intro walk ahead
  rw [visitBody_eq_fillBody, visitBody_eq_fillBody]
  have filled := fills (enterBody walk).beginRegion ahead
  exact Prod.ext rfl (congrArg (fun later => leaveBody walk (Prod.snd later)) filled)

theorem skipsMore_visitClosure (config : Config) (index : NodeIndex) (params captures : List StrId)
    {body : NodeIndex} (child : SkipsMore more (visit body) (twin body))
    (position : Option Position) :
    SkipsMore more (visitClosure config visit index params captures body position)
      (visitClosure config twin index params captures body position) := by
  rw [visitClosure_eq, visitClosure_eq]
  refine (TakesNoNotice.mapM fun name => ?_).after fun bound => ?_
  · exact (takesNoNotice_readVariable name index position).after fun captured =>
      (takesNoNotice_addNode .closureCapture (some index) position .unknown).after fun capture =>
        (takesNoNotice_addSink captured capture .defUse .capturedByClosure position).after fun _ =>
          .pure _
  · have allocates : TakesNoNotice (allocateClosure config index captures position bound) := by
      refine (takesNoNotice_addAllocation config index position .closure none captures.length).after
        fun closure => (TakesNoNotice.forIn fun capture => ?_).after fun _ => .pure closure
      exact (takesNoNotice_addEdge capture.2.1 closure .dataDep).after fun _ => .pure _
    exact allocates.after fun closure =>
      (skipsMore_visitBody params bound child position).before fun _ => .pure closure

/-! ## Exits and stores -/

theorem takesNoNotice_exit (value : Option NodeId) (index : NodeIndex) (reason : EscapeReason)
    (position : Option Position) :
    TakesNoNotice (do
      let exit ← addNode .returnValue (some index) position .unknown
      if let some value := value then
        addSink value exit .defUse reason position
      leaveControl
      return (none : Option NodeId)) :=
  (takesNoNotice_addNode .returnValue (some index) position .unknown).after fun exit =>
    skipsMore_sinkOf value exit .defUse reason position
      (takesNoNotice_leaveControl.after fun _ => .pure none)

theorem skipsMore_storeProperty {tree treeTwin : Tree} {object : NodeIndex} {property : StrId}
    (child : SkipsMore more (visit object) (twin object))
    (text : treeTwin.name property = tree.name property) (target : NodeIndex)
    (value : Option NodeId) (type : ValueType) (position : Option Position) :
    SkipsMore more (storeProperty tree visit target object property value type position)
      (storeProperty treeTwin twin target object property value type position) := by
  refine child.before fun base =>
    (takesNoNotice_addNode .fieldStore (some target) position type).after fun store => ?_
  rw [text]
  exact skipsMore_accessOf base store _ type
    (skipsMore_sinkOf value store .fieldOf .storedToHeap position (.pure store))

theorem skipsMore_storeElement {array : NodeIndex} {index : Option NodeIndex}
    (children : ∀ child ∈ array :: index.toList, SkipsMore (count child) (visit child) (twin child))
    (target : NodeIndex) (value : Option NodeId) (type : ValueType) (position : Option Position) :
    SkipsMore ((array :: index.toList).map count).sum
      (storeElement visit target array index value type position)
      (storeElement twin target array index value type position) := by
  have store (base : Option NodeId) : TakesNoNotice
      (do
        let store ← addNode .arrayStore (some target) position type
        if let some base := base then
          addAccess base store none type
        if let some value := value then
          addSink value store .elementOf .storedToArray position
        return store) :=
    (takesNoNotice_addNode .arrayStore (some target) position type).after fun store =>
      skipsMore_accessOf base store none type
        (skipsMore_sinkOf value store .elementOf .storedToArray position (.pure store))
  exact (children array List.mem_cons_self).bind fun base =>
    skipsMore_visitSome (fun child member => children child (List.mem_cons_of_mem _ member))
      (store base)

theorem skipsMore_storeElsewhere {target : NodeIndex} {isDangling : Bool}
    (children : ∀ child ∈ if isDangling then [] else [target],
      SkipsMore (count child) (visit child) (twin child))
    (value : Option NodeId) (type : ValueType) (position : Option Position) :
    SkipsMore ((if isDangling then [] else [target]).map count).sum
      (storeElsewhere visit target isDangling value type position)
      (storeElsewhere twin target isDangling value type position) := by
  have store : TakesNoNotice
      (do
        let sink ← addNode .globalVar (some target) position type
        if let some value := value then
          addSink value sink .defUse .storedToHeap position : Walker Unit) :=
    (takesNoNotice_addNode .globalVar (some target) position type).after fun sink =>
      skipsMore_sinkOf value sink .defUse .storedToHeap position (.pure ())
  cases isDangling with
  | true => exact store
  | false => exact (children target List.mem_cons_self).before fun _ => store

/-! ## Assignments -/

/-- Visits the place that is assigned to, given what the tree has there. -/
def visitTarget (tree : Tree) (visit : Visit) (target : NodeIndex) (place : Option NodeData)
    (value : Option NodeId) (type : ValueType) (position : Option Position) :
    Walker (Option NodeId) :=
  match place with
  | some (.var name) => some <$> assignVariable name target value type position
  | some (.propertyAccess object property) =>
      some <$> storeProperty tree visit target object property value type position
  | some (.arrayAccess array index) =>
      some <$> storeElement visit target array index value type position
  | other => do
      storeElsewhere visit target other.isNone value type position
      return none

theorem visitAssignment_eq (tree : Tree) (visit : Visit) (target value : NodeIndex)
    (position : Option Position) :
    visitAssignment tree visit target value position = (do
      let value ← visit value
      let walk ← get
      let type := ((value.bind walk.graph.values.node?).map (·.type)).getD .unknown
      visitTarget tree visit target (tree.data? target) value type position) := by
  rfl

/-- The statements of a block that is assigned to are of no account for what kind of place it is. -/
theorem visitTarget_restate (tree : Tree) (visit : Visit) (target : NodeIndex)
    (place : Option NodeData) (statements : List NodeIndex) (value : Option NodeId)
    (type : ValueType) (position : Option Position) :
    visitTarget tree visit target (place.map (NodeData.restate statements)) value type position =
      visitTarget tree visit target place value type position := by
  cases place with
  | none => rfl
  | some data => cases data <;> rfl

theorem skipsMore_visitTarget {tree treeTwin : Tree} (names : treeTwin.name = tree.name)
    {target : NodeIndex}
    (children : ∀ child ∈ (tree.targetPlan target).filterMap Step.evaluated?,
      SkipsMore (count child) (visit child) (twin child))
    (value : Option NodeId) (type : ValueType) (position : Option Position) :
    SkipsMore (((tree.targetPlan target).filterMap Step.evaluated?).map count).sum
      (visitTarget tree visit target (tree.data? target) value type position)
      (visitTarget treeTwin twin target (tree.data? target) value type position) := by
  rw [Tree.targetPlan] at children ⊢
  generalize tree.data? target = place at children ⊢
  cases place with
  | none =>
      exact (@skipsMore_storeElsewhere count visit twin target true children value type
        position).before fun _ => .pure none
  | some data =>
      cases data with
      | var name => exact (takesNoNotice_assignVariable name target value type position).map some
      | propertyAccess object property =>
          exact (skipsMore_storeProperty (children object List.mem_cons_self)
            (congrFun names property) target value type position).map some
      | arrayAccess array index =>
          have visited :
              (Step.visit array :: index.toList.map Step.visit).filterMap Step.evaluated? =
                array :: index.toList := congrArg (array :: ·) (Step.filterMap_visit index.toList)
          dsimp only at children ⊢
          rw [visited] at children ⊢
          exact (skipsMore_storeElement children target value type position).map some
      | _ =>
          exact (@skipsMore_storeElsewhere count visit twin target false children value type
            position).before fun _ => .pure none

theorem skipsMore_visitAssignment {tree treeTwin : Tree} (names : treeTwin.name = tree.name)
    {target value : NodeIndex} (same : tree.SamePlace treeTwin target)
    (children : ∀ child ∈ (NodeData.assignment target value).evaluated tree,
      SkipsMore (count child) (visit child) (twin child)) (position : Option Position) :
    SkipsMore (((NodeData.assignment target value).evaluated tree).map count).sum
      (visitAssignment tree visit target value position)
      (visitAssignment treeTwin twin target value position) := by
  have evaluated : (NodeData.assignment target value).evaluated tree =
      value :: (tree.targetPlan target).filterMap Step.evaluated? := rfl
  obtain ⟨statements, places⟩ := same
  rw [evaluated] at children ⊢
  rw [visitAssignment_eq, visitAssignment_eq]
  refine (children value List.mem_cons_self).bind fun stored => .get (fun _ _ => rfl) fun walk => ?_
  dsimp only
  rw [← visitTarget_restate treeTwin twin target _ statements, places, visitTarget_restate]
  exact skipsMore_visitTarget names
    (fun child member => children child (List.mem_cons_of_mem value member)) stored _ position

/-! ## Nodes -/

/-- If the visits that are made below a node skip more, so does the visit of the node. -/
theorem skipsMore_visitNode {tree treeTwin : Tree} (names : treeTwin.name = tree.name)
    (config : Config) (index : NodeIndex) {node : TreeNode}
    (places : ∀ child ∈ node.data.children, tree.SamePlace treeTwin child)
    (children : ∀ child ∈ node.data.evaluated tree,
      SkipsMore (count child) (visit child) (twin child)) :
    SkipsMore ((node.data.evaluated tree).map count).sum (visitNode config tree visit index node)
      (visitNode config treeTwin twin index node) := by
  obtain ⟨data, position⟩ := node
  by_cases assigns : ∃ target value, data = .assignment target value
  · obtain ⟨target, value, rfl⟩ := assigns
    exact skipsMore_visitAssignment names (places target List.mem_cons_self) children position
  have others : ∀ target value, data ≠ .assignment target value :=
    fun target value equal => assigns ⟨target, value, equal⟩
  dsimp only at children ⊢
  rw [NodeData.evaluated_eq_children tree others] at children ⊢
  have result (kind : NodeKind) (type : ValueType) :
      TakesNoNotice (some <$> addNode kind (some index) position type) :=
    (takesNoNotice_addNode kind (some index) position type).map some
  have operands (values : List (Option NodeId)) {use : NodeId → Walker Unit}
      (usesNoNotice : ∀ value, TakesNoNotice (use value)) : TakesNoNotice
        (forIn values PUnit.unit fun value _ => do
          if let some value := value then
            use value
          return .yield PUnit.unit) := by
    refine .forIn fun value => ?_
    cases value with
    | none => exact .pure _
    | some value => exact (usesNoNotice value).after fun _ => .pure _
  cases data with
  | root statements => exact (SkipsMore.forIn children).before fun _ => .pure none
  | block statements => exact (SkipsMore.forIn children).before fun _ => .pure none
  | functionDecl name params body =>
      exact (skipsMore_visitBody params [] (children body List.mem_cons_self) position).before
        fun _ => .pure none
  | assignment target value => exact absurd rfl (others target value)
  | objectInstantiation className args =>
      refine (SkipsMore.mapM children).before fun values => ?_
      rw [names]
      exact (takesNoNotice_addAllocation config index position .object _ values.length).after
        fun node => (operands values fun value =>
          takesNoNotice_passToUnknown value (some index) position).after fun _ => .pure (some node)
  | arrayInit elements =>
      exact (SkipsMore.mapM children).before fun values =>
        (takesNoNotice_addAllocation config index position .array none values.length).after
          fun node => (operands values fun value =>
            takesNoNotice_addSink value node .elementOf .storedToArray position).after
              fun _ => .pure (some node)
  | returnStmt value =>
      cases value with
      | none => exact takesNoNotice_exit none index .returned position
      | some value =>
          exact (children value List.mem_cons_self).before fun returned =>
            takesNoNotice_exit returned index .returned position
  | functionCall name args =>
      exact (skipsMore_visitArguments position children).before fun _ => result .callResult .unknown
  | methodCall object method args =>
      have arguments := skipsMore_visitArguments position fun child member =>
        children child (List.mem_cons_of_mem object member)
      exact (skipsMore_visitArgument (children object List.mem_cons_self) position).bind
        fun _ => arguments.before fun _ => result .callResult .unknown
  | propertyAccess object property =>
      refine (children object List.mem_cons_self).before fun base =>
        (takesNoNotice_addNode .fieldLoad (some index) position .unknown).after fun load => ?_
      rw [names]
      exact skipsMore_accessOf base load _ .unknown (.pure (some load))
  | arrayAccess array element =>
      exact (children array List.mem_cons_self).bind fun base =>
        skipsMore_visitSome (fun child member => children child (List.mem_cons_of_mem array member))
          ((takesNoNotice_addNode .arrayLoad (some index) position .unknown).after fun load =>
            skipsMore_accessOf base load none .unknown (.pure (some load)))
  | closure params captures body =>
      exact (skipsMore_visitClosure config index params captures (children body List.mem_cons_self)
        position).map some
  | var name => exact (takesNoNotice_readVariable name index position).map some
  | ifStmt condition thenBranch elseBranch =>
      exact (skipsMore_visitIf children).before fun _ => .pure none
  | whileStmt condition body =>
      have loop := @skipsMore_visitLoop count visit twin [] [] (some condition) body children
      exact loop.before fun _ => .pure none
  | forStmt init condition update body =>
      exact (skipsMore_visitLoop children).before fun _ => .pure none
  | foreachStmt iterable key value body =>
      exact (skipsMore_visitForeach index key value position children).before fun _ => .pure none
  | throwStmt value =>
      exact (children value List.mem_cons_self).before fun thrown =>
        takesNoNotice_exit thrown index .thrownAsException position
  | literal value => exact result .constant (literalType value)
  | global declared =>
      refine SkipsMore.after (TakesNoNotice.forIn fun name => ?_) fun _ => .pure none
      exact (takesNoNotice_addNode .globalVar (some index) position .unknown).after fun node =>
        (takesNoNotice_modifyScopes (·.bind name node)).after fun _ => .pure _
  | other => exact takesNoNotice_skip.after fun _ => .pure none

end Walker

end EscapePlan
