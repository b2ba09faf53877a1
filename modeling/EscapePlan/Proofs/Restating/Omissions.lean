import EscapePlan.Proofs.Restating.Trees

/-!
# What is left out of an analysis

A walk does nothing at a node that is not there, at one that lies as deep as the limit, and at one
that there is no rule for.  What it arrives at follows from the tree alone, and so does what is left
out: `Tree.omissions`.  The analysis counts nothing else as skipped.

That a visit skips what the visits below it skip is known from visits that skip more than others.
The others may be the same visits without the count, and a visit that is made of these skips
nothing.
-/

namespace EscapePlan

/-- A node that a walk arrives at, and the levels that are left for it. -/
structure Arrival where
  levels : Nat
  index : NodeIndex
  deriving DecidableEq, Repr

/-- Why nothing is done at a node. -/
inductive Omission where
  /-- The node is not there. -/
  | dangling
  /-- The node lies as deep as the limit. -/
  | cut
  /-- There is no rule for the node. -/
  | other
  deriving DecidableEq, Repr

namespace Tree

/-- Why nothing is done where a walk arrives, if nothing is done there. -/
def omission? (tree : Tree) (arrival : Arrival) : Option Omission :=
  match tree.data? arrival.index, arrival.levels with
  | none, _ => some .dangling
  | some _, 0 => some .cut
  | some .other, _ => some .other
  | some _, _ => none

/-- The nodes that a walk arrives at from a node on downwards, in order.  A node that is shared is
arrived at more than once. -/
def arrivals (tree : Tree) : Nat → NodeIndex → List Arrival
  | 0, index => [⟨0, index⟩]
  | levels + 1, index =>
      ⟨levels + 1, index⟩ ::
        match tree.data? index with
        | none => []
        | some data => (data.evaluated tree).flatMap (tree.arrivals levels)

/-- What is left out from a node on downwards, in order. -/
def omissionsBelow (tree : Tree) (levels : Nat) (index : NodeIndex) : List Omission :=
  (tree.arrivals levels index).filterMap tree.omission?

/-- What is left out of an analysis, in order. -/
def omissions (tree : Tree) : List Omission :=
  tree.omissionsBelow depthLimit tree.root

variable {tree : Tree} {levels : Nat} {index : NodeIndex}

theorem omissionsBelow_dangling (dangles : tree.data? index = none) :
    tree.omissionsBelow levels index = [.dangling] := by
  cases levels <;> simp [omissionsBelow, arrivals, omission?, dangles]

theorem omissionsBelow_cut {data : NodeData} (found : tree.data? index = some data) :
    tree.omissionsBelow 0 index = [.cut] := by
  simp [omissionsBelow, arrivals, omission?, found]

theorem omissionsBelow_other (found : tree.data? index = some .other) :
    tree.omissionsBelow (levels + 1) index = [.other] := by
  simp [omissionsBelow, arrivals, omission?, found, NodeData.evaluated, NodeData.plan]

/-- Where something is done, nothing is left out but what is left out below. -/
theorem omissionsBelow_succ {data : NodeData} (found : tree.data? index = some data)
    (ruled : data ≠ .other) :
    tree.omissionsBelow (levels + 1) index =
      (data.evaluated tree).flatMap (tree.omissionsBelow levels) := by
  have here : tree.omission? ⟨levels + 1, index⟩ = none := by
    rw [omission?, found]
    cases data <;> first | rfl | exact absurd rfl ruled
  rw [omissionsBelow, arrivals, List.filterMap_cons_none here, found]
  exact List.filterMap_flatMap

/-- If whatever a tree mentions is there, nothing that dangles is arrived at. -/
theorem dangling_notMem_omissionsBelow
    (present : ∀ index, tree.Mentions index → ∃ node, tree.get? index = some node)
    (mentioned : tree.Mentions index) : .dangling ∉ tree.omissionsBelow levels index := by
  obtain ⟨node, found⟩ := present index mentioned
  have dataEq : tree.data? index = some node.data := congrArg (Option.map _) found
  induction levels generalizing index node with
  | zero => simp [omissionsBelow_cut dataEq]
  | succ levels inductionHypothesis =>
      by_cases ruled : node.data = .other
      · rw [ruled] at dataEq
        simp [omissionsBelow_other dataEq]
      · rw [omissionsBelow_succ dataEq ruled, List.mem_flatMap]
        rintro ⟨child, member, left⟩
        have mentionedChild : tree.Mentions child := .of_mem_evaluated found member
        obtain ⟨below, foundChild⟩ := present child mentionedChild
        exact inductionHypothesis mentionedChild below foundChild
          (congrArg (Option.map _) foundChild) left

end Tree

namespace Walker

variable {α β γ : Type} {config : Config} {tree : Tree} {visit : Visit} {count : Nat}

/-! ## Actions that skip nothing -/

/-- An action skips no tree node. -/
def SkipsNothing (action : Walker α) : Prop :=
  ∀ walk, (action walk).2.skipped = walk.skipped

namespace SkipsNothing

theorem pure (value : α) : SkipsNothing (pure value) :=
  fun _ => rfl

theorem bind {action : Walker α} {next : α → Walker β} (first : SkipsNothing action)
    (rest : ∀ value, SkipsNothing (next value)) : SkipsNothing (action >>= next) :=
  fun walk => (rest _ _).trans (first walk)

theorem get {next : Walk → Walker β} (rest : ∀ walk, SkipsNothing (next walk)) :
    SkipsNothing (MonadState.get >>= next) :=
  fun walk => rest walk walk

theorem map {action : Walker α} (change : α → β) (skips : SkipsNothing action) :
    SkipsNothing (change <$> action) :=
  skips

theorem forIn {items : List γ} {body : γ → PUnit → Walker (ForInStep PUnit)}
    (each : ∀ item, SkipsNothing (body item ⟨⟩)) :
    SkipsNothing (ForIn.forIn items PUnit.unit body) := by
  induction items with
  | nil => exact .pure _
  | cons item items inductionHypothesis =>
      rw [List.forIn_cons]
      refine (each item).bind fun step => ?_
      cases step with
      | done => exact .pure _
      | yield => exact inductionHypothesis

theorem mapM {items : List γ} {action : γ → Walker α} (each : ∀ item, SkipsNothing (action item)) :
    SkipsNothing (items.mapM action) := by
  induction items with
  | nil => exact .pure _
  | cons item items inductionHypothesis =>
      rw [List.mapM_cons]
      exact (each item).bind fun _ => inductionHypothesis.bind fun _ => .pure _

end SkipsNothing

theorem skipsNothing_addNode (kind : NodeKind) (origin : Option NodeIndex)
    (position : Option Position) (type : ValueType) :
    SkipsNothing (addNode kind origin position type) :=
  fun _ => rfl

theorem skipsNothing_addEdge (source target : NodeId) (kind : EdgeKind) :
    SkipsNothing (addEdge source target kind) :=
  fun _ => rfl

theorem skipsNothing_branchFrom (source : BlockId) : SkipsNothing (branchFrom source) :=
  fun _ => rfl

theorem skipsNothing_currentBlock : SkipsNothing currentBlock :=
  fun _ => rfl

theorem skipsNothing_defineVariable (name : StrId) (node : NodeId) :
    SkipsNothing (defineVariable name node) :=
  fun _ => rfl

theorem skipsNothing_addFlow (key : VarKey) (value : NodeId) : SkipsNothing (addFlow key value) :=
  fun _ => rfl

theorem skipsNothing_readVariable (name : StrId) (origin : NodeIndex)
    (position : Option Position) : SkipsNothing (readVariable name origin position) := by
  refine .get fun walk => ?_
  split
  next => exact .pure _
  next => exact fun _ => rfl

theorem skipsNothing_addUse (value target : NodeId) : SkipsNothing (addUse value target) := by
  refine .get fun walk => ?_
  split
  next => exact skipsNothing_addEdge value target .defUse
  next => exact .pure ()

theorem skipsNothing_addSink (value target : NodeId) (kind : EdgeKind) (reason : EscapeReason)
    (position : Option Position) : SkipsNothing (addSink value target kind reason position) :=
  (skipsNothing_addUse value target).bind fun _ _ => rfl

theorem skipsNothing_addAccess (base node : NodeId) (field : Option String) (type : ValueType) :
    SkipsNothing (addAccess base node field type) :=
  (skipsNothing_addUse base node).bind fun _ _ => rfl

theorem skipsNothing_passToUnknown (value : NodeId) (origin : Option NodeIndex)
    (position : Option Position) : SkipsNothing (passToUnknown value origin position) :=
  (skipsNothing_addNode _ _ _ _).bind fun arg => skipsNothing_addSink value arg _ _ _

theorem skipsNothing_addAllocation (config : Config) (origin : NodeIndex)
    (position : Option Position) (objectType : ObjectType) (className : Option String)
    (count : Nat) :
    SkipsNothing (addAllocation config origin position objectType className count) := by
  refine (skipsNothing_addNode _ _ _ _).bind fun node => ?_
  cases sizeOfCount count <;> exact fun _ => rfl

theorem skipsNothing_sinkOf (value : Option NodeId) (target : NodeId) (kind : EdgeKind)
    (reason : EscapeReason) (position : Option Position) {next : Walker β}
    (rest : SkipsNothing next) :
    SkipsNothing (do
      if let some value := value then
        addSink value target kind reason position
      next) := by
  cases value with
  | none => exact rest
  | some value => exact (skipsNothing_addSink value target kind reason position).bind fun _ => rest

theorem skipsNothing_accessOf (base : Option NodeId) (node : NodeId) (field : Option String)
    (type : ValueType) {next : Walker β} (rest : SkipsNothing next) :
    SkipsNothing (do
      if let some base := base then
        addAccess base node field type
      next) := by
  cases base with
  | none => exact rest
  | some base => exact (skipsNothing_addAccess base node field type).bind fun _ => rest

theorem skipsNothing_assignVariable (name : StrId) (target : NodeIndex) (value : Option NodeId)
    (type : ValueType) (position : Option Position) :
    SkipsNothing (assignVariable name target value type position) := by
  refine .get fun walk => ?_
  split
  next existing _ =>
    exact skipsNothing_sinkOf value existing .defUse .assignedToGlobal position (.pure existing)
  next =>
    refine (skipsNothing_addNode _ _ _ _).bind fun node =>
      (skipsNothing_defineVariable name node).bind fun key => ?_
    cases value with
    | none => exact .pure _
    | some value =>
        exact (skipsNothing_addFlow key value).bind fun _ =>
          (skipsNothing_addUse value node).bind fun _ => .pure _

/-- The end of a statement that control does not come back from. -/
theorem skipsNothing_exit (value : Option NodeId) (index : NodeIndex) (reason : EscapeReason)
    (position : Option Position) :
    SkipsNothing (do
      let exit ← addNode .returnValue (some index) position .unknown
      if let some value := value then
        addSink value exit .defUse reason position
      leaveControl
      return (none : Option NodeId)) :=
  (skipsNothing_addNode _ _ _ _).bind fun exit =>
    skipsNothing_sinkOf value exit .defUse reason position fun _ => rfl

/-! ## Visits below which nothing is skipped -/

section

variable (visits : ∀ index, SkipsNothing (visit index))
include visits

theorem skipsNothing_statements (statements : List NodeIndex) :
    SkipsNothing (forIn statements PUnit.unit fun statement _ => do
      let _ ← visit statement
      return .yield PUnit.unit) :=
  .forIn fun statement => (visits statement).bind fun _ => .pure _

theorem skipsNothing_visitBody (params : List StrId) (captures : List (StrId × NodeId × NodeId))
    (body : NodeIndex) (position : Option Position) :
    SkipsNothing (visitBody visit params captures body position) := by
  have fills : SkipsNothing (fillBody visit params captures body position) := by
    refine (SkipsNothing.forIn fun param => ?_).bind fun _ =>
      (SkipsNothing.forIn fun capture => ?_).bind fun _ => visits body
    · exact (skipsNothing_addNode _ _ _ _).bind fun node =>
        (skipsNothing_defineVariable param node).bind fun _ => .pure _
    · exact (skipsNothing_defineVariable _ _).bind fun key =>
        (skipsNothing_addFlow key _).bind fun _ => .pure _
  intro walk
  rw [visitBody_eq_fillBody]
  exact fills (enterBody walk).beginRegion

theorem skipsNothing_visitClosure (index : NodeIndex) (params captures : List StrId)
    (body : NodeIndex) (position : Option Position) :
    SkipsNothing (visitClosure config visit index params captures body position) := by
  rw [visitClosure_eq]
  refine (SkipsNothing.mapM fun name => ?_).bind fun bound => SkipsNothing.bind ?_ fun closure =>
    (skipsNothing_visitBody visits params bound body position).bind fun _ => .pure closure
  · exact (skipsNothing_readVariable name index position).bind fun captured =>
      (skipsNothing_addNode _ _ _ _).bind fun capture =>
        (skipsNothing_addSink captured capture _ _ _).bind fun _ => .pure _
  · refine (skipsNothing_addAllocation _ _ _ _ _ _).bind fun closure =>
      (SkipsNothing.forIn fun capture => ?_).bind fun _ => .pure closure
    exact (skipsNothing_addEdge _ closure _).bind fun _ => .pure _

theorem skipsNothing_visitIf (condition thenBranch : NodeIndex) (elseBranch : Option NodeIndex) :
    SkipsNothing (visitIf visit condition thenBranch elseBranch) := by
  have join (thenEnd elseEnd : BlockId) : SkipsNothing (do
      let join ← newBlock
      connect thenEnd join
      connect elseEnd join
      moveTo join) :=
    fun _ => rfl
  refine (visits condition).bind fun _ => skipsNothing_currentBlock.bind fun pivot =>
    (skipsNothing_branchFrom pivot).bind fun _ => (visits thenBranch).bind fun _ =>
      skipsNothing_currentBlock.bind fun thenEnd => ?_
  cases elseBranch with
  | none => exact join thenEnd pivot
  | some elseBranch =>
      exact (skipsNothing_branchFrom pivot).bind fun _ => (visits elseBranch).bind fun _ =>
        skipsNothing_currentBlock.bind fun elseEnd => join thenEnd elseEnd

theorem skipsNothing_visitLoop (init : List NodeIndex) (condition : Option NodeIndex)
    (update : List NodeIndex) (body : NodeIndex) :
    SkipsNothing (visitLoop visit init condition update body) := by
  have round (header : BlockId) : SkipsNothing (do
      let decision ← currentBlock
      let _ ← branchFrom decision
      let _ ← visit body
      for statement in update do
        let _ ← visit statement
      connect (← currentBlock) header
      let _ ← branchFrom decision) :=
    skipsNothing_currentBlock.bind fun decision => (skipsNothing_branchFrom decision).bind fun _ =>
      (visits body).bind fun _ => (skipsNothing_statements visits update).bind fun _ _ => rfl
  refine (skipsNothing_statements visits init).bind fun _ => skipsNothing_currentBlock.bind fun _ =>
    (skipsNothing_branchFrom _).bind fun header => ?_
  cases condition with
  | none => exact round header
  | some condition => exact (visits condition).bind fun _ => round header

theorem skipsNothing_visitForeach (index iterable : NodeIndex) (key : Option StrId) (value : StrId)
    (body : NodeIndex) (position : Option Position) :
    SkipsNothing (visitForeach visit index iterable key value body position) := by
  have round (header : BlockId) (element : NodeId) :
      SkipsNothing (visitElement visit index none value body position element header) :=
    (skipsNothing_addNode _ _ _ _).bind fun node => (skipsNothing_addEdge element node _).bind
      fun _ => (skipsNothing_defineVariable value node).bind fun _ => (visits body).bind
        fun _ _ => rfl
  refine (visits iterable).bind fun source => skipsNothing_currentBlock.bind fun _ =>
    (skipsNothing_branchFrom _).bind fun header => (skipsNothing_branchFrom header).bind fun _ =>
      (skipsNothing_addNode _ _ _ _).bind fun element =>
        skipsNothing_accessOf source element none .unknown ?_
  cases key with
  | none => exact round header element
  | some key =>
      exact (skipsNothing_addNode _ _ _ _).bind fun node =>
        (skipsNothing_defineVariable key node).bind fun _ => round header element

theorem skipsNothing_visitArgument (position : Option Position) (arg : NodeIndex) :
    SkipsNothing (visitArgument visit position arg) := by
  refine (visits arg).bind fun value => ?_
  cases value with
  | none => exact .pure _
  | some value => exact skipsNothing_passToUnknown value _ position

theorem skipsNothing_visitTarget (target : NodeIndex) (place : Option NodeData)
    (value : Option NodeId) (type : ValueType) (position : Option Position) :
    SkipsNothing (visitTarget tree visit target place value type position) := by
  have stores (kind : NodeKind) (base : Option NodeId) (field : Option String) (edge : EdgeKind)
      (reason : EscapeReason) : SkipsNothing (do
        let store ← addNode kind (some target) position type
        if let some base := base then
          addAccess base store field type
        if let some value := value then
          addSink value store edge reason position
        return store) :=
    (skipsNothing_addNode _ _ _ _).bind fun store => skipsNothing_accessOf base store field type <|
      skipsNothing_sinkOf value store edge reason position (.pure store)
  have elsewhere : SkipsNothing (do
      let sink ← addNode .globalVar (some target) position type
      if let some value := value then
        addSink value sink .defUse .storedToHeap position : Walker Unit) :=
    (skipsNothing_addNode _ _ _ _).bind fun sink =>
      skipsNothing_sinkOf value sink .defUse .storedToHeap position (.pure ())
  cases place with
  | none => exact elsewhere.bind fun _ => .pure none
  | some data =>
      cases data with
      | var name => exact (skipsNothing_assignVariable name target value type position).map some
      | propertyAccess object property =>
          exact ((visits object).bind fun base => stores .fieldStore base _ _ _).map some
      | arrayAccess array index =>
          refine SkipsNothing.map some ((visits array).bind fun base => ?_)
          cases index with
          | none => exact stores .arrayStore base none _ _
          | some index => exact (visits index).bind fun _ => stores .arrayStore base none _ _
      | _ => exact ((visits target).bind fun _ => elsewhere).bind fun _ => .pure none

/-- A node that there is a rule for is not skipped itself. -/
theorem skipsNothing_visitNode (index : NodeIndex) {node : TreeNode} (ruled : node.data ≠ .other) :
    SkipsNothing (visitNode config tree visit index node) := by
  obtain ⟨data, position⟩ := node
  have result (kind : NodeKind) (type : ValueType) :
      SkipsNothing (some <$> addNode kind (some index) position type) :=
    skipsNothing_addNode _ _ _ _
  have arguments (args : List NodeIndex) : SkipsNothing (forIn args PUnit.unit fun arg _ => do
      visitArgument visit position arg
      return .yield PUnit.unit) :=
    .forIn fun arg => (skipsNothing_visitArgument visits position arg).bind fun _ => .pure _
  have loads (kind : NodeKind) (base : Option NodeId) (field : Option String) : SkipsNothing (do
      let load ← addNode kind (some index) position .unknown
      if let some base := base then
        addAccess base load field .unknown
      return some load) :=
    (skipsNothing_addNode _ _ _ _).bind fun load =>
      skipsNothing_accessOf base load field .unknown (.pure (some load))
  cases data with
  | root statements => exact (skipsNothing_statements visits statements).bind fun _ => .pure none
  | block statements => exact (skipsNothing_statements visits statements).bind fun _ => .pure none
  | functionDecl name params body =>
      exact (skipsNothing_visitBody visits params [] body position).bind fun _ => .pure none
  | assignment target value =>
      refine Eq.mpr (congrArg SkipsNothing (visitAssignment_eq tree visit target value position)) ?_
      exact (visits value).bind fun value => .get fun walk =>
        skipsNothing_visitTarget visits target _ value _ position
  | objectInstantiation className args =>
      refine (SkipsNothing.mapM visits).bind fun values =>
        (skipsNothing_addAllocation _ _ _ _ _ _).bind fun object =>
          (SkipsNothing.forIn fun value => ?_).bind fun _ => .pure _
      cases value with
      | none => exact .pure _
      | some value => exact (skipsNothing_passToUnknown value _ position).bind fun _ => .pure _
  | arrayInit elements =>
      refine (SkipsNothing.mapM visits).bind fun values =>
        (skipsNothing_addAllocation _ _ _ _ _ _).bind fun array =>
          (SkipsNothing.forIn fun value => ?_).bind fun _ => .pure _
      exact skipsNothing_sinkOf value array .elementOf .storedToArray position (.pure _)
  | returnStmt value =>
      cases value with
      | none => exact skipsNothing_exit none index .returned position
      | some value =>
          exact (visits value).bind fun value => skipsNothing_exit value index .returned position
  | functionCall callee args => exact (arguments args).bind fun _ => result .callResult .unknown
  | methodCall object method args =>
      exact (skipsNothing_visitArgument visits position object).bind fun _ =>
        (arguments args).bind fun _ => result .callResult .unknown
  | propertyAccess object property =>
      exact (visits object).bind fun base => loads .fieldLoad base _
  | arrayAccess array element =>
      refine (visits array).bind fun base => ?_
      cases element with
      | none => exact loads .arrayLoad base none
      | some element => exact (visits element).bind fun _ => loads .arrayLoad base none
  | closure params captures body =>
      exact (skipsNothing_visitClosure visits index params captures body position).map some
  | var name => exact (skipsNothing_readVariable name index position).map some
  | ifStmt condition thenBranch elseBranch =>
      exact (skipsNothing_visitIf visits condition thenBranch elseBranch).bind fun _ => .pure none
  | whileStmt condition body =>
      exact (skipsNothing_visitLoop visits [] (some condition) [] body).bind fun _ => .pure none
  | forStmt init condition update body =>
      exact (skipsNothing_visitLoop visits init condition update body).bind fun _ => .pure none
  | foreachStmt iterable key value body =>
      exact (skipsNothing_visitForeach visits index iterable key value body position).bind
        fun _ => .pure none
  | throwStmt value =>
      exact (visits value).bind fun value =>
        skipsNothing_exit value index .thrownAsException position
  | literal value => exact result .constant (literalType value)
  | global names => exact (SkipsNothing.forIn fun name _ => rfl).bind fun _ => .pure none
  | other => exact absurd rfl ruled

end

/-! ## Actions that skip so many -/

/-- The action without the count of skipped tree nodes. -/
def uncounted (action : Walker α) : Walker α :=
  fun walk => ((action walk).1, { (action walk).2 with skipped := walk.skipped })

/-- An action skips so many tree nodes, and what it does does not depend on their number. -/
def Skips (count : Nat) (action : Walker α) : Prop :=
  SkipsMore count (uncounted action) action

theorem skipsNothing_uncounted (action : Walker α) : SkipsNothing (uncounted action) :=
  fun _ => rfl

/-- An action skips as many tree nodes as it skips more than one that skips nothing. -/
theorem SkipsNothing.skips {action twin : Walker α} (nothing : SkipsNothing action)
    (more : SkipsMore count action twin) : Skips count twin := by
  have same : uncounted twin = action := by
    funext walk
    have twinEq : twin walk = ((action walk).1, (action walk).2.skipMore (0 + count)) := more walk 0
    rw [uncounted, twinEq, ← nothing walk]
    rfl
  rwa [Skips, same]

theorem Skips.skipped_eq {action : Walker α} (skips : Skips count action) (walk : Walk) :
    (action walk).2.skipped = walk.skipped + count := by
  have counted : action walk = ((uncounted action walk).1,
      (uncounted action walk).2.skipMore (0 + count)) := skips walk 0
  rw [counted, Nat.zero_add]
  rfl

theorem skips_skip (value : α) : Skips 1 (do
    skip
    return value) :=
  SkipsNothing.skips (.pure value) fun _ _ => rfl

/-- A visit skips what is left out from its node on downwards. -/
theorem skips_visit (config : Config) (tree : Tree) (levels : Nat) (index : NodeIndex) :
    Skips (tree.omissionsBelow levels index).length (Walker.visit config tree levels index) := by
  induction levels generalizing index with
  | zero =>
      cases found : tree.get? index with
      | none =>
          rw [Tree.omissionsBelow_dangling (congrArg (Option.map _) found), visit_dangling found]
          exact skips_skip none
      | some node =>
          rw [Tree.omissionsBelow_cut (congrArg (Option.map _) found), Walker.visit, found]
          have truncates : SkipsNothing (do
              truncate
              return (none : Option NodeId)) := fun _ => rfl
          exact truncates.skips fun _ _ => rfl
  | succ levels inductionHypothesis =>
      cases found : tree.get? index with
      | none =>
          rw [Tree.omissionsBelow_dangling (congrArg (Option.map _) found), visit_dangling found]
          exact skips_skip none
      | some node =>
          have dataEq : tree.data? index = some node.data := congrArg (Option.map _) found
          rw [Walker.visit, found]
          by_cases ruled : node.data = .other
          · rw [ruled] at dataEq
            rw [Tree.omissionsBelow_other dataEq]
            obtain ⟨data, span⟩ := node
            cases ruled
            exact skips_skip none
          · rw [Tree.omissionsBelow_succ dataEq ruled, List.length_flatMap]
            have nothing : SkipsNothing (visitNode config tree
                (fun child => uncounted (Walker.visit config tree levels child)) index node) :=
              skipsNothing_visitNode (fun child => skipsNothing_uncounted _) index ruled
            exact nothing.skips (skipsMore_visitNode rfl config index (fun child _ => ⟨[], rfl⟩)
              fun child _ => inductionHypothesis child)

end Walker

/-! ## Analyses -/

namespace Walk

variable (walk : Walk)

theorem skipped_escalate (reason : EscapeReason) (position : Option Position)
    (allocation : NodeId) : (walk.escalate reason position allocation).skipped = walk.skipped := by
  rw [escalate]
  split
  next => rfl
  next =>
    dsimp only
    split <;> rfl

/-- Steps that are taken one after the other keep the count if each of them does. -/
theorem skipped_foldl {α : Type} {step : Walk → α → Walk}
    (each : ∀ walk item, (step walk item).skipped = walk.skipped) (items : List α) :
    (items.foldl step walk).skipped = walk.skipped :=
  List.foldlRecOn (motive := fun later : Walk => later.skipped = walk.skipped) _ _ rfl
    fun later same item _ => (each later item).trans same

theorem skipped_applyAccess (access : Access) :
    (walk.applyAccess access).skipped = walk.skipped := by
  refine skipped_foldl walk (fun later allocation => ?_) (walk.aliases access.base)
  rfl

theorem skipped_applySink (sink : Sink) : (walk.applySink sink).skipped = walk.skipped := by
  refine skipped_foldl walk (fun later allocation => ?_) (walk.aliases sink.value)
  exact skipped_escalate _ sink.reason sink.position allocation

theorem skipped_escalateTruncated : walk.escalateTruncated.skipped = walk.skipped := by
  rw [escalateTruncated]
  split
  next => rfl
  next => exact skipped_foldl walk (fun later => later.skipped_escalate _ _) _

/-- Nothing is skipped once the walk is over. -/
theorem skipped_settle : walk.settle.skipped = walk.skipped := by
  rw [settle, skipped_escalateTruncated, ← Array.foldl_toList, ← Array.foldl_toList,
    skipped_foldl _ skipped_applySink, skipped_foldl _ skipped_applyAccess]
  rfl

end Walk

/-- An analysis counts as skipped what is left out of it, and nothing else. -/
theorem Analysis.skippedNodes_ofTree (config : Config) (tree : Tree) :
    (ofTree config tree).stats.skippedNodes = tree.omissions.length := by
  have walked := (Walker.skips_visit config tree depthLimit tree.root).skipped_eq Walk.initial
  show (Walk.ofTree config tree depthLimit).settle.skipped = _
  rw [Walk.skipped_settle, Walk.ofTree_eq, walked]
  exact Nat.zero_add _

end EscapePlan
