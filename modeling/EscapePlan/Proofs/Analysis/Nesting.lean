import EscapePlan.Proofs.Analysis.Context

/-!
# Visits inside each other

A visit of a node comes back if the visits inside it do.  A walk that counts its depth therefore
does what a visit does that is given the levels that are left, and it does not matter what would
be done once calls are exhausted: the limit is reached first.
-/

namespace EscapePlan

open ControlFlow (Extends)

namespace Walk

/-- A walk in the entry block of a new region. -/
def beginRegion (walk : Walk) : Walk :=
  { walk with
    graph := { walk.graph with flow := walk.graph.flow.newRegion.2 }
    block := walk.graph.flow.newRegion.1 }

end Walk

namespace Walker

open Walk

/-- Visits come back, and the first ones do at some depth what the second ones do at any. -/
def VisitsReturn (depth : Nat) (visit twin : Visit) : Prop :=
  ∀ home blocks joins index, Returns depth home blocks joins (visit index) (twin index)

variable {depth : Nat} {home : BlockId} {blocks joins : List BlockId} {visit twin : Visit}

/-! ## Bodies -/

/-- What is done in the region of a body. -/
def fillBody (visit : Visit) (params : List StrId) (captures : List (StrId × NodeId × NodeId))
    (body : NodeIndex) (position : Option Position) : Walker (Option NodeId) := do
  for param in params do
    let node ← addNode .parameter none position .unknown
    let _ ← defineVariable param node
  for (name, capture, captured) in captures do
    let key ← defineVariable name capture
    addFlow key captured
  visit body

theorem visitBody_eq_fillBody (visit : Visit) (params : List StrId)
    (captures : List (StrId × NodeId × NodeId)) (body : NodeIndex) (position : Option Position)
    (walk : Walk) :
    visitBody visit params captures body position walk =
      ((), leaveBody walk
        (fillBody visit params captures body position (enterBody walk).beginRegion).2) :=
  rfl

theorem returns_fillBody (returns : VisitsReturn depth visit twin) (params : List StrId)
    (captures : List (StrId × NodeId × NodeId)) (body : NodeIndex) (position : Option Position) :
    Returns depth home blocks joins (fillBody visit params captures body position)
      (fillBody twin params captures body position) := by
  have parameters : Idles (forIn params PUnit.unit fun param _ => do
      let node ← addNode .parameter none position .unknown
      let _ ← defineVariable param node
      return .yield PUnit.unit) :=
    idles_forIn fun param => (idles_addNode (by decide) _ _ _).bind fun node =>
      (idles_defineVariable param node).bind fun _ => .pure _
  have bound : Idles (forIn captures PUnit.unit fun capture _ => do
      let key ← defineVariable capture.1 capture.2.1
      addFlow key capture.2.2
      return .yield PUnit.unit) :=
    idles_forIn fun capture => (idles_defineVariable capture.1 capture.2.1).bind fun key =>
      (idles_addFlow key capture.2.2).bind fun _ => .pure _
  exact parameters.returns.bind fun _ => bound.returns.bind fun _ => returns _ _ _ body

/-- Control is in the region of a body once it has begun. -/
theorem dwells_beginRegion {region : BlockId → BlockId} {walk : Walk}
    (dwells : Dwells home blocks joins region walk) :
    Dwells walk.graph.flow.size [] []
      (Function.update region walk.graph.flow.size walk.graph.flow.size)
      (enterBody walk).beginRegion where
  regions := dwells.regions.newRegion.1
  block_lt := by
    intro block member
    rw [List.mem_singleton.1 member]
    exact Nat.lt_of_lt_of_eq (Nat.lt_succ_self _) (ControlFlow.size_newBlock walk.graph.flow).symm
  region_eq := by
    intro block member
    rw [List.mem_singleton.1 member]
    exact Function.update_self ..
  mem_blocks _ member := absurd member List.not_mem_nil
  not_entry _ member := absurd member List.not_mem_nil

theorem returns_visitBody (returns : VisitsReturn depth visit twin) (params : List StrId)
    (captures : List (StrId × NodeId × NodeId)) (body : NodeIndex) (position : Option Position) :
    Returns depth home blocks joins (visitBody visit params captures body position)
      (visitBody twin params captures body position) := by
  have inner : ∀ home, Returns depth home [] [] (fillBody visit params captures body position)
      (fillBody twin params captures body position) :=
    fun home => returns_fillBody returns params captures body position
  constructor
  · intro walk
    rw [visitBody_eq_fillBody, visitBody_eq_fillBody]
    show ((), leaveBody (walk.atDepth depth) (fillBody visit params captures body position
      ((enterBody walk).beginRegion.atDepth depth)).2) = _
    rw [(inner home).at_depth]
    rfl
  · intro walk
    rw [visitBody_eq_fillBody]
    have resumes := (inner home).resumes (enterBody walk).beginRegion
    exact ⟨resumes.depth_eq, rfl, congrArg Scopes.saved (scopes_leaveBody resumes.saved_eq)⟩
  · exact fun walk => (inner home).recorded (enterBody walk).beginRegion
  · intro region walk dwells
    rw [visitBody_eq_fillBody]
    have begun := dwells.regions.newRegion.2
    rcases (inner walk.graph.flow.size).stays _ _ (dwells_beginRegion dwells) with
      ⟨later, extends_, dwellsInner⟩
    have whole : Extends walk.graph.flow region _ later := begun.trans extends_
    have inside := dwells.block_lt walk.block List.mem_cons_self
    refine ⟨later, whole, dwells.last whole dwellsInner.regions ?_ ?_⟩
    · exact Nat.lt_of_lt_of_le inside whole.size_le
    · exact (whole.region_eq walk.block inside).trans (dwells.region_eq _ List.mem_cons_self)

/-- The names are back after a body that were bound before it. -/
theorem scopes_visitBody (returns : VisitsReturn depth visit twin) (params : List StrId)
    (captures : List (StrId × NodeId × NodeId)) (body : NodeIndex) (position : Option Position)
    (walk : Walk) :
    (visitBody twin params captures body position walk).2.graph.scopes = walk.graph.scopes := by
  have inner : Returns depth 0 [] [] _ _ := returns_fillBody returns params captures body position
  rw [visitBody_eq_fillBody]
  exact scopes_leaveBody (inner.resumes (enterBody walk).beginRegion).saved_eq

/-! ## Closures -/

/-- What is done for a captured name outside the closure. -/
def captureName (index : NodeIndex) (position : Option Position) (name : StrId) :
    Walker (StrId × NodeId × NodeId) := do
  let captured ← readVariable name index position
  let capture ← addNode .closureCapture (some index) position .unknown
  addSink captured capture .defUse .capturedByClosure position
  return (name, capture, captured)

theorem idles_captureName (index : NodeIndex) (position : Option Position) (name : StrId) :
    Idles (captureName index position name) :=
  (idles_readVariable name index position).bind fun _ => (idles_addNode (by decide) _ _ _).bind fun _ =>
    (idles_addSink _ _ _ _ _).bind fun _ => .pure _

/-- Allocates a closure that has captured some names. -/
def allocateClosure (config : Config) (index : NodeIndex) (captures : List StrId)
    (position : Option Position) (bound : List (StrId × NodeId × NodeId)) : Walker NodeId := do
  let closure ← addAllocation config index position .closure none captures.length
  for (_, capture, _) in bound do
    addEdge capture closure .dataDep
  return closure

theorem idles_allocateClosure (config : Config) (index : NodeIndex) (captures : List StrId)
    (position : Option Position) (bound : List (StrId × NodeId × NodeId)) :
    Idles (allocateClosure config index captures position bound) := by
  refine (idles_addAllocation _ _ _ _ _ _).bind fun closure => ?_
  exact (idles_forIn fun _ => (idles_addEdge _ _ _).bind fun _ => .pure _).bind fun _ => .pure _

theorem visitClosure_eq (config : Config) (visit : Visit) (index : NodeIndex)
    (params captures : List StrId) (body : NodeIndex) (position : Option Position) :
    visitClosure config visit index params captures body position = (do
      let bound ← captures.mapM (captureName index position)
      let closure ← allocateClosure config index captures position bound
      visitBody visit params bound body position
      return closure) :=
  rfl

theorem returns_visitClosure (returns : VisitsReturn depth visit twin) (config : Config)
    (index : NodeIndex) (params captures : List StrId) (body : NodeIndex)
    (position : Option Position) :
    Returns depth home blocks joins
      (visitClosure config visit index params captures body position)
      (visitClosure config twin index params captures body position) := by
  rw [visitClosure_eq, visitClosure_eq]
  refine (idles_mapM (idles_captureName index position)).returns.bind fun bound => ?_
  refine (idles_allocateClosure config index captures position bound).returns.bind fun closure => ?_
  exact (returns_visitBody returns params bound body position).bind fun _ => .pure _

/-! ## Branches and loops -/

theorem returns_statements (returns : VisitsReturn depth visit twin) (statements : List NodeIndex) :
    Returns depth home blocks joins
      (forIn statements PUnit.unit fun statement _ => do
        let _ ← visit statement
        return .yield PUnit.unit)
      (forIn statements PUnit.unit fun statement _ => do
        let _ ← twin statement
        return .yield PUnit.unit) :=
  returns_forIn fun statement => (returns _ _ _ statement).bind fun _ => .pure _

theorem returns_join {thenEnd elseEnd : BlockId} (thenKnown : thenEnd ∈ blocks)
    (elseKnown : elseEnd ∈ blocks) :
    Returns depth home blocks joins
      (do
        let join ← newBlock
        connect thenEnd join
        connect elseEnd join
        moveTo join)
      (do
        let join ← newBlock
        connect thenEnd join
        connect elseEnd join
        moveTo join) :=
  returns_newBlock fun _ =>
    (returns_connect (List.mem_cons_of_mem _ thenKnown) List.mem_cons_self).bind fun _ =>
      (returns_connect (List.mem_cons_of_mem _ elseKnown) List.mem_cons_self).bind fun _ =>
        returns_moveTo List.mem_cons_self

theorem returns_visitIf (returns : VisitsReturn depth visit twin) (condition thenBranch : NodeIndex)
    (elseBranch : Option NodeIndex) :
    Returns depth home blocks joins (visitIf visit condition thenBranch elseBranch)
      (visitIf twin condition thenBranch elseBranch) := by
  refine (returns _ _ _ condition).bind fun _ => returns_currentBlock fun pivot => ?_
  refine returns_branchFrom List.mem_cons_self fun _ => ?_
  refine (returns _ _ _ thenBranch).bind fun _ => returns_currentBlock fun thenEnd => ?_
  have pivotKnown (block : BlockId) : pivot ∈ thenEnd :: block :: pivot :: blocks := by simp
  cases elseBranch with
  | none => exact returns_join List.mem_cons_self (pivotKnown _)
  | some elseBranch =>
      refine returns_branchFrom (pivotKnown _) fun _ => ?_
      refine (returns _ _ _ elseBranch).bind fun _ => returns_currentBlock fun elseEnd => ?_
      exact returns_join (by simp) List.mem_cons_self

/-- The end of a round of a loop: back to the header, and on to what comes after the loop. -/
theorem returns_roundEnd {header decision : BlockId} (join : header ∈ joins)
    (known : decision ∈ blocks) :
    Returns depth home blocks joins
      (do
        connect (← currentBlock) header
        let _ ← branchFrom decision)
      (do
        connect (← currentBlock) header
        let _ ← branchFrom decision) :=
  returns_currentBlock fun _ => (returns_connect List.mem_cons_self join).bind fun _ =>
    returns_branchFrom (List.mem_cons_of_mem _ known) fun _ => .pure _

theorem returns_visitLoop (returns : VisitsReturn depth visit twin) (init : List NodeIndex)
    (condition : Option NodeIndex) (update : List NodeIndex) (body : NodeIndex) :
    Returns depth home blocks joins (visitLoop visit init condition update body)
      (visitLoop twin init condition update body) := by
  refine (returns_statements returns init).bind fun _ => returns_currentBlock fun _ => ?_
  refine returns_branchFrom List.mem_cons_self fun header => ?_
  have round (blocks : List BlockId) (joins : List BlockId) (join : header ∈ joins) :
      Returns depth home blocks joins
        (do
          let decision ← currentBlock
          let _ ← branchFrom decision
          let _ ← visit body
          for statement in update do
            let _ ← visit statement
          connect (← currentBlock) header
          let _ ← branchFrom decision)
        (do
          let decision ← currentBlock
          let _ ← branchFrom decision
          let _ ← twin body
          for statement in update do
            let _ ← twin statement
          connect (← currentBlock) header
          let _ ← branchFrom decision) := by
    refine returns_currentBlock fun decision => ?_
    refine returns_branchFrom List.mem_cons_self fun _ => (returns _ _ _ body).bind fun _ => ?_
    refine (returns_statements returns update).bind fun _ => ?_
    exact returns_roundEnd (List.mem_cons_of_mem _ join) (by simp)
  cases condition with
  | none => exact round _ _ List.mem_cons_self
  | some condition =>
      exact (returns _ _ _ condition).bind fun _ => round _ _ List.mem_cons_self

/-- What is done for an element in the block that a loop over elements goes on to. -/
def visitElement (visit : Visit) (index : NodeIndex) (key : Option StrId) (value : StrId)
    (body : NodeIndex) (position : Option Position) (element : NodeId) (header : BlockId) :
    Walker Unit := do
  if let some key := key then
    let node ← addNode .localVar (some index) position .unknown
    let _ ← defineVariable key node
  let node ← addNode .localVar (some index) position .unknown
  addEdge element node .defUse
  let _ ← defineVariable value node
  let _ ← visit body
  connect (← currentBlock) header
  let _ ← branchFrom header

theorem returns_visitElement (returns : VisitsReturn depth visit twin) (index : NodeIndex)
    (key : Option StrId) (value : StrId) (body : NodeIndex) (position : Option Position)
    (element : NodeId) {header : BlockId} (join : header ∈ joins) (known : header ∈ blocks) :
    Returns depth home blocks joins
      (visitElement visit index key value body position element header)
      (visitElement twin index key value body position element header) := by
  have round : Returns depth home blocks joins
      (visitElement visit index none value body position element header)
      (visitElement twin index none value body position element header) := by
    refine (idles_addNode (by decide) _ _ _).returns.bind fun node => ?_
    refine (idles_addEdge element node .defUse).returns.bind fun _ => ?_
    refine (idles_defineVariable value node).returns.bind fun _ => ?_
    exact (returns _ _ _ body).bind fun _ => returns_roundEnd join known
  cases key with
  | none => exact round
  | some key =>
      refine (idles_addNode (by decide) _ _ _).returns.bind fun node => ?_
      exact (idles_defineVariable key node).returns.bind fun _ => round

theorem returns_visitForeach (returns : VisitsReturn depth visit twin) (index iterable : NodeIndex)
    (key : Option StrId) (value : StrId) (body : NodeIndex) (position : Option Position) :
    Returns depth home blocks joins (visitForeach visit index iterable key value body position)
      (visitForeach twin index iterable key value body position) := by
  refine (returns _ _ _ iterable).bind fun source => returns_currentBlock fun outer => ?_
  refine returns_branchFrom List.mem_cons_self fun header => ?_
  refine returns_branchFrom List.mem_cons_self fun inner => ?_
  refine (idles_addNode (by decide) _ _ _).returns.bind fun element => ?_
  have rest := @returns_visitElement depth home (inner :: header :: outer :: blocks)
    (inner :: header :: joins) visit twin returns index key value body position element header (by simp) (by simp)
  cases source with
  | none => exact rest
  | some source => exact (idles_addAccess source element none .unknown).returns.bind fun _ => rest

/-! ## Assignments and arguments -/

theorem idles_accessOf (base : Option NodeId) (node : NodeId) (field : Option String)
    (type : ValueType) {next : Walker α} (rest : Idles next) :
    Idles (do
      if let some base := base then
        addAccess base node field type
      next) := by
  cases base with
  | none => exact rest
  | some base => exact (idles_addAccess base node field type).bind fun _ => rest

theorem idles_sinkOf (value : Option NodeId) (target : NodeId) (kind : EdgeKind)
    (reason : EscapeReason) (position : Option Position) {next : Walker α} (rest : Idles next) :
    Idles (do
      if let some value := value then
        addSink value target kind reason position
      next) := by
  cases value with
  | none => exact rest
  | some value => exact (idles_addSink value target kind reason position).bind fun _ => rest

theorem returns_storeProperty (returns : VisitsReturn depth visit twin) (tree : Tree)
    (target object : NodeIndex) (property : StrId) (value : Option NodeId) (type : ValueType)
    (position : Option Position) :
    Returns depth home blocks joins
      (storeProperty tree visit target object property value type position)
      (storeProperty tree twin target object property value type position) := by
  refine (returns _ _ _ object).bind fun base => Idles.returns ?_
  refine (idles_addNode (by decide) _ _ _).bind fun store => ?_
  exact idles_accessOf base store _ type (idles_sinkOf value store _ _ _ (.pure store))

theorem returns_storeElement (returns : VisitsReturn depth visit twin) (target array : NodeIndex)
    (index : Option NodeIndex) (value : Option NodeId) (type : ValueType)
    (position : Option Position) :
    Returns depth home blocks joins (storeElement visit target array index value type position)
      (storeElement twin target array index value type position) := by
  refine (returns _ _ _ array).bind fun base => ?_
  have store : Idles (do
      let store ← addNode .arrayStore (some target) position type
      if let some base := base then
        addAccess base store none type
      if let some value := value then
        addSink value store .elementOf .storedToArray position
      return store) :=
    (idles_addNode (by decide) _ _ _).bind fun store =>
      idles_accessOf base store none type (idles_sinkOf value store _ _ _ (.pure store))
  cases index with
  | none => exact store.returns
  | some index => exact (returns _ _ _ index).bind fun _ => store.returns

theorem returns_storeElsewhere (returns : VisitsReturn depth visit twin) (target : NodeIndex)
    (isDangling : Bool) (value : Option NodeId) (type : ValueType) (position : Option Position) :
    Returns depth home blocks joins (storeElsewhere visit target isDangling value type position)
      (storeElsewhere twin target isDangling value type position) := by
  have store : Idles (do
      let sink ← addNode .globalVar (some target) position type
      if let some value := value then
        addSink value sink .defUse .storedToHeap position) :=
    (idles_addNode (by decide) _ _ _).bind fun sink => idles_sinkOf value sink _ _ _ (.pure PUnit.unit)
  cases isDangling with
  | true => exact store.returns
  | false => exact (returns _ _ _ target).bind fun _ => store.returns

theorem returns_visitAssignment (returns : VisitsReturn depth visit twin) (tree : Tree)
    (target value : NodeIndex) (position : Option Position) :
    Returns depth home blocks joins (visitAssignment tree visit target value position)
      (visitAssignment tree twin target value position) := by
  refine (returns _ _ _ value).bind fun result => Returns.get fun walk => ?_
  have same : (walk.atDepth depth).graph = walk.graph := rfl
  rw [same]
  generalize ((result.bind walk.graph.values.node?).map (·.type)).getD .unknown = type
  have elsewhere (isDangling : Bool) :
      Returns depth home blocks joins
        (do
          storeElsewhere visit target isDangling result type position
          return none : Walker (Option NodeId))
        (do
          storeElsewhere twin target isDangling result type position
          return none : Walker (Option NodeId)) :=
    (returns_storeElsewhere returns target isDangling result type position).bind fun _ => .pure none
  cases tree.data? target with
  | none => exact elsewhere true
  | some data =>
      cases data with
      | var name => exact ((idles_assignVariable name target result type position).map some).returns
      | propertyAccess object property =>
          exact (returns_storeProperty returns tree target object property result type position).map
            some
      | arrayAccess array index =>
          exact (returns_storeElement returns target array index result type position).map some
      | _ => exact elsewhere false

theorem returns_visitArgument (returns : VisitsReturn depth visit twin)
    (position : Option Position) (arg : NodeIndex) :
    Returns depth home blocks joins (visitArgument visit position arg)
      (visitArgument twin position arg) := by
  refine (returns _ _ _ arg).bind fun value => ?_
  cases value with
  | none => exact .pure _
  | some value => exact (idles_passToUnknown value (some arg) position).returns

theorem returns_visitArguments (returns : VisitsReturn depth visit twin)
    (position : Option Position) (args : List NodeIndex) :
    Returns depth home blocks joins
      (forIn args PUnit.unit fun arg _ => do
        visitArgument visit position arg
        return .yield PUnit.unit)
      (forIn args PUnit.unit fun arg _ => do
        visitArgument twin position arg
        return .yield PUnit.unit) :=
  returns_forIn fun arg => (returns_visitArgument returns position arg).bind fun _ => .pure _

/-! ## Nodes -/

theorem returns_operands (returns : VisitsReturn depth visit twin) {operands : List NodeIndex}
    {first second : List (Option NodeId) → Walker (Option NodeId)}
    (rest : ∀ values, Returns depth home blocks joins (first values) (second values)) :
    Returns depth home blocks joins (operands.mapM visit >>= first)
      (operands.mapM twin >>= second) :=
  (returns_mapM fun operand => returns _ _ _ operand).bind rest

/-- The end of a statement that control does not come back from. -/
theorem returns_leave (value : Option NodeId) (index : NodeIndex) (reason : EscapeReason)
    (position : Option Position) {exit : Walker (Option NodeId)}
    (exitEq : exit = do
      let exit ← addNode .returnValue (some index) position .unknown
      if let some value := value then
        addSink value exit .defUse reason position
      leaveControl
      return none) :
    Returns depth home blocks joins exit exit := by
  subst exitEq
  refine (idles_addNode (by decide) _ _ _).returns.bind fun exit => ?_
  cases value with
  | none => exact returns_leaveControl.bind fun _ => .pure none
  | some value =>
      exact (idles_addSink value exit .defUse reason position).returns.bind fun _ =>
        returns_leaveControl.bind fun _ => .pure none

/-- A visit of a node comes back if the visits inside it do. -/
theorem returns_visitNode (returns : VisitsReturn depth visit twin) (config : Config) (tree : Tree)
    (index : NodeIndex) (node : TreeNode) :
    Returns depth home blocks joins (visitNode config tree visit index node)
      (visitNode config tree twin index node) := by
  obtain ⟨data, position⟩ := node
  have result : Idles (some <$> addNode .callResult (some index) position .unknown) :=
    (idles_addNode (by decide) _ _ _).map some
  cases data with
  | root statements => exact (returns_statements returns statements).bind fun _ => .pure none
  | block statements => exact (returns_statements returns statements).bind fun _ => .pure none
  | functionDecl name params body =>
      exact (returns_visitBody returns params [] body position).bind fun _ => .pure none
  | assignment target value => exact returns_visitAssignment returns tree target value position
  | objectInstantiation className args =>
      refine returns_operands returns fun values => Idles.returns ?_
      refine (idles_addAllocation _ _ _ _ _ _).bind fun object => ?_
      refine (idles_forIn fun value => ?_).bind fun _ => .pure _
      cases value with
      | none => exact .pure _
      | some value => exact (idles_passToUnknown value (some index) position).bind fun _ => .pure _
  | arrayInit elements =>
      refine returns_operands returns fun values => Idles.returns ?_
      refine (idles_addAllocation _ _ _ _ _ _).bind fun array => ?_
      refine (idles_forIn fun value => ?_).bind fun _ => .pure _
      exact idles_sinkOf value array .elementOf .storedToArray position (.pure _)
  | returnStmt value =>
      cases value with
      | none => exact returns_leave none index .returned position rfl
      | some value =>
          exact (returns _ _ _ value).bind fun value => returns_leave value index .returned position rfl
  | functionCall callee args =>
      exact (returns_visitArguments returns position args).bind fun _ => result.returns
  | methodCall object method args =>
      exact (returns_visitArgument returns position object).bind fun _ =>
        (returns_visitArguments returns position args).bind fun _ => result.returns
  | propertyAccess object property =>
      refine (returns _ _ _ object).bind fun base => Idles.returns ?_
      exact (idles_addNode (by decide) _ _ _).bind fun load => idles_accessOf base load _ .unknown (.pure _)
  | arrayAccess array element =>
      refine (returns _ _ _ array).bind fun base => ?_
      have load : Idles (do
          let load ← addNode .arrayLoad (some index) position .unknown
          if let some base := base then
            addAccess base load none .unknown
          return some load) :=
        (idles_addNode (by decide) _ _ _).bind fun load => idles_accessOf base load none .unknown (.pure _)
      cases element with
      | none => exact load.returns
      | some element => exact (returns _ _ _ element).bind fun _ => load.returns
  | closure params captures body =>
      exact (returns_visitClosure returns config index params captures body position).map some
  | var name => exact ((idles_readVariable name index position).map some).returns
  | ifStmt condition thenBranch elseBranch =>
      exact (returns_visitIf returns condition thenBranch elseBranch).bind fun _ => .pure none
  | whileStmt condition body =>
      exact (returns_visitLoop returns [] (some condition) [] body).bind fun _ => .pure none
  | forStmt init condition update body =>
      exact (returns_visitLoop returns init condition update body).bind fun _ => .pure none
  | foreachStmt iterable key value body =>
      exact (returns_visitForeach returns index iterable key value body position).bind fun _ =>
        .pure none
  | throwStmt value =>
      exact (returns _ _ _ value).bind fun value =>
        returns_leave value index .thrownAsException position rfl
  | literal value => exact ((idles_addNode (by decide) _ _ _).map some).returns
  | global names =>
      refine Idles.returns ((idles_forIn fun name => ?_).bind fun _ => .pure none)
      exact (idles_addNode (by decide) _ _ _).bind fun node => (idles_bindName name node).bind fun _ => .pure _
  | other => exact idles_skip.returns.bind fun _ => .pure none

/-! ## Nested visits -/

/-- Going down before an action and up after it, the action is made one level deeper. -/
theorem returns_deeper {first second : Walker (Option NodeId)}
    (returns : Returns (depth + 1) home blocks joins first second) :
    Returns depth home blocks joins
      (do
        goDown
        let value ← first
        goUp
        return value)
      second where
  at_depth walk := by
    show ((first (walk.atDepth (depth + 1))).1, (goUp (first (walk.atDepth (depth + 1))).2).2) = _
    rw [returns.at_depth]
    rfl
  resumes := returns.resumes
  recorded := returns.recorded
  stays := returns.stays

/-- At the limit nothing is done. -/
theorem returns_visitWithin_limit (config : Config) (tree : Tree) (limit : Nat) (visit : Visit) :
    VisitsReturn limit (visitWithin config tree limit visit) (Walker.visit config tree 0) := by
  intro home blocks joins index
  rw [visitWithin, Walker.visit]
  cases tree.get? index with
  | none => exact idles_skip.returns.bind fun _ => .pure none
  | some node =>
      have reached (walk : Walk) : limit ≤ (walk.atDepth limit).depth := Nat.le_refl limit
      have cut : Returns limit home blocks joins
          (get >>= fun walk : Walk =>
            if limit ≤ walk.depth then do
              skip
              truncate
              return none
            else do
              goDown
              let value ← visitNode config tree visit index node
              goUp
              return value)
          (get >>= fun _ => do
            skip
            truncate
            return none) := by
        refine Returns.get fun walk => ?_
        rw [if_pos (reached walk)]
        exact idles_skip.returns.bind fun _ => idles_truncate.returns.bind fun _ => .pure none
      exact cut

/-- Above the limit a node is visited, and the visits inside it are one level deeper. -/
theorem returns_visitWithin (config : Config) (tree : Tree) {limit levels : Nat} {visit : Visit}
    (above : depth < limit)
    (returns : VisitsReturn (depth + 1) visit (Walker.visit config tree levels)) :
    VisitsReturn depth (visitWithin config tree limit visit)
      (Walker.visit config tree (levels + 1)) := by
  intro home blocks joins index
  rw [visitWithin, Walker.visit]
  cases tree.get? index with
  | none => exact idles_skip.returns.bind fun _ => .pure none
  | some node =>
      have room (walk : Walk) : ¬ limit ≤ (walk.atDepth depth).depth := Nat.not_le_of_lt above
      have visited : Returns depth home blocks joins
          (get >>= fun walk : Walk =>
            if limit ≤ walk.depth then do
              skip
              truncate
              return none
            else do
              goDown
              let value ← visitNode config tree visit index node
              goUp
              return value)
          (get >>= fun _ => visitNode config tree (Walker.visit config tree levels) index node) := by
        refine Returns.get fun walk => ?_
        rw [if_neg (room walk)]
        exact returns_deeper (returns_visitNode returns config tree index node)
      exact visited

/-- Visits that are nested so deep that the limit is reached before calls are exhausted do what a
visit does that is given the levels up to the limit. -/
theorem returns_visitNested (config : Config) (tree : Tree) (exhausted : Visit) {limit levels : Nat}
    (bounded : levels ≤ limit) {calls : Nat} (enough : levels < calls) :
    VisitsReturn (limit - levels) (visitNested config tree limit exhausted calls)
      (Walker.visit config tree levels) := by
  obtain ⟨calls, rfl⟩ := Nat.exists_eq_add_one_of_ne_zero (Nat.ne_zero_of_lt enough)
  induction levels generalizing calls with
  | zero => exact returns_visitWithin_limit config tree limit _
  | succ levels inductionHypothesis =>
      obtain ⟨fewer, rfl⟩ : ∃ fewer, calls = fewer + 1 :=
        Nat.exists_eq_add_one_of_ne_zero (by omega)
      have deeper := inductionHypothesis (by omega) fewer (by omega)
      rw [show limit - levels = limit - (levels + 1) + 1 by omega] at deeper
      exact returns_visitWithin config tree (by omega) deeper

/-- The depth of a walk and the levels that are left say the same. -/
theorem visitNested_eq (config : Config) (tree : Tree) (exhausted : Visit) {limit calls : Nat}
    {walk : Walk} (bounded : walk.depth ≤ limit) (enough : limit - walk.depth < calls)
    (index : NodeIndex) :
    visitNested config tree limit exhausted calls index walk =
      Walker.visit config tree (limit - walk.depth) index walk := by
  have returns : Returns (limit - (limit - walk.depth)) 0 [] [] _ _ :=
    returns_visitNested config tree exhausted (Nat.sub_le limit walk.depth) enough 0 [] [] index
  have same := returns.at_depth walk
  rw [Nat.sub_sub_self bounded] at same
  exact same.trans (Prod.ext rfl (atDepth_of_eq (returns.resumes walk).depth_eq))

/-- Every visit comes back. -/
theorem returns_visit (config : Config) (tree : Tree) (levels : Nat) :
    VisitsReturn 0 (visitNested config tree levels (fun _ => return none) (levels + 1))
      (Walker.visit config tree levels) := by
  have returns := returns_visitNested config tree (fun _ => return none) (Nat.le_refl levels)
    (Nat.lt_succ_self levels)
  rwa [Nat.sub_self] at returns

end Walker

/-- A walk over a tree is a visit that is given all levels. -/
theorem Walk.ofTree_eq (config : Config) (tree : Tree) (limit : Nat) :
    Walk.ofTree config tree limit = (Walker.visit config tree limit tree.root initial).2 :=
  congrArg Prod.snd (Walker.visitNested_eq config tree _ (Nat.zero_le limit)
    (Nat.lt_succ_self limit) tree.root)

/-- A walk over a tree has a record of every allocation. -/
theorem Walk.ofTree_recorded (config : Config) (tree : Tree) (limit : Nat) :
    (Walk.ofTree config tree limit).Recorded := by
  have nothing : initial.Recorded := by
    intro id allocates
    simp [initial, Walk.kind?, DataFlowGraph.empty, ValueGraph.empty, ValueTables.empty,
      ValueGraph.kind?, ValueGraph.node?] at allocates
  rw [ofTree_eq]
  exact (Walker.returns_visit config tree limit 0 [] [] tree.root).recorded initial nothing

end EscapePlan
