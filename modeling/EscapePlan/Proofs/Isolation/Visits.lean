import EscapePlan.Proofs.Isolation.Lockstep

/-!
# Visits in step

Two subtrees are alike if some relation pairs their nodes such that paired nodes have the same
data, up to paired nodes that they refer to; a renaming of indices is such a relation.  Visits of
nodes that are alike keep two walks in step.
-/

namespace EscapePlan

/-- Two nodes have the same data, up to the nodes that they refer to. -/
inductive NodeData.Alike (same : NodeIndex → NodeIndex → Prop) : NodeData → NodeData → Prop where
  | root {statements others : List NodeIndex} : List.Forall₂ same statements others →
      Alike same (.root statements) (.root others)
  | block {statements others : List NodeIndex} : List.Forall₂ same statements others →
      Alike same (.block statements) (.block others)
  | functionDecl {body other : NodeIndex} (name : StrId) (params : List StrId) : same body other →
      Alike same (.functionDecl name params body) (.functionDecl name params other)
  | assignment {target value other another : NodeIndex} : same target other → same value another →
      Alike same (.assignment target value) (.assignment other another)
  | objectInstantiation {args others : List NodeIndex} (className : StrId) :
      List.Forall₂ same args others →
      Alike same (.objectInstantiation className args) (.objectInstantiation className others)
  | arrayInit {elements others : List NodeIndex} : List.Forall₂ same elements others →
      Alike same (.arrayInit elements) (.arrayInit others)
  | returnStmt {value other : Option NodeIndex} : Option.Rel same value other →
      Alike same (.returnStmt value) (.returnStmt other)
  | functionCall {args others : List NodeIndex} (name : StrId) : List.Forall₂ same args others →
      Alike same (.functionCall name args) (.functionCall name others)
  | methodCall {object other : NodeIndex} {args others : List NodeIndex} (method : StrId) :
      same object other → List.Forall₂ same args others →
      Alike same (.methodCall object method args) (.methodCall other method others)
  | propertyAccess {object other : NodeIndex} (property : StrId) : same object other →
      Alike same (.propertyAccess object property) (.propertyAccess other property)
  | arrayAccess {array other : NodeIndex} {index another : Option NodeIndex} : same array other →
      Option.Rel same index another →
      Alike same (.arrayAccess array index) (.arrayAccess other another)
  | closure {body other : NodeIndex} (params captures : List StrId) : same body other →
      Alike same (.closure params captures body) (.closure params captures other)
  | var (name : StrId) : Alike same (.var name) (.var name)
  | ifStmt {condition thenBranch other another : NodeIndex} {elseBranch last : Option NodeIndex} :
      same condition other → same thenBranch another → Option.Rel same elseBranch last →
      Alike same (.ifStmt condition thenBranch elseBranch) (.ifStmt other another last)
  | whileStmt {condition body other another : NodeIndex} : same condition other →
      same body another → Alike same (.whileStmt condition body) (.whileStmt other another)
  | forStmt {init update others rest : List NodeIndex} {condition another : Option NodeIndex}
      {body last : NodeIndex} : List.Forall₂ same init others → Option.Rel same condition another →
      List.Forall₂ same update rest → same body last →
      Alike same (.forStmt init condition update body) (.forStmt others another rest last)
  | foreachStmt {iterable body other another : NodeIndex} (key : Option StrId) (value : StrId) :
      same iterable other → same body another →
      Alike same (.foreachStmt iterable key value body) (.foreachStmt other key value another)
  | throwStmt {value other : NodeIndex} : same value other →
      Alike same (.throwStmt value) (.throwStmt other)
  | literal (value : Literal) : Alike same (.literal value) (.literal value)
  | global (names : List StrId) : Alike same (.global names) (.global names)
  | other : Alike same .other .other

/-- Two nodes have the same data and the same position. -/
structure TreeNode.Alike (same : NodeIndex → NodeIndex → Prop) (one two : TreeNode) : Prop where
  data : one.data.Alike same two.data
  span_eq : one.span = two.span

/-- Two trees have the same names, and nodes that are paired are alike or dangle both. -/
structure Tree.Alike (same : NodeIndex → NodeIndex → Prop) (one two : Tree) : Prop where
  strings_eq : one.strings = two.strings
  nodes : ∀ first second, same first second →
    Option.Rel (TreeNode.Alike same) (one.get? first) (two.get? second)

theorem Tree.Alike.name_eq {same : NodeIndex → NodeIndex → Prop} {one two : Tree}
    (alike : Tree.Alike same one two) (id : StrId) : one.name id = two.name id := by
  rw [name, name, alike.strings_eq]

/-- Declarations are alike only to declarations. -/
theorem Tree.Alike.exists_functionDecl {same : NodeIndex → NodeIndex → Prop} {one two : Tree}
    (alike : Tree.Alike same one two) {function twin body : NodeIndex}
    (paired : same function twin) {name : StrId} {params : List StrId} {position : Option Position}
    (found : one.get? function = some ⟨.functionDecl name params body, position⟩) :
    ∃ other, two.get? twin = some ⟨.functionDecl name params other, position⟩ ∧
      same body other := by
  have nodes := alike.nodes function twin paired
  rw [found] at nodes
  cases foundTwin : two.get? twin with
  | none =>
      rw [foundTwin] at nodes
      nomatch nodes
  | some node =>
      obtain ⟨data, span⟩ := node
      rw [foundTwin, Option.rel_some_some] at nodes
      obtain ⟨datas, spans⟩ := nodes
      obtain rfl : position = span := spans
      cases datas with
      | @functionDecl _ other _ _ bodies => exact ⟨other, rfl, bodies⟩

theorem Tree.Alike.data? {same : NodeIndex → NodeIndex → Prop} {one two : Tree}
    (alike : Tree.Alike same one two) {first second : NodeIndex} (paired : same first second) :
    Option.Rel (NodeData.Alike same) (one.data? first) (two.data? second) := by
  have nodes := alike.nodes first second paired
  rw [Tree.data?, Tree.data?]
  generalize one.get? first = nodeOne at nodes
  generalize two.get? second = nodeTwo at nodes
  cases nodes with
  | some alike => exact .some alike.data
  | none => exact .none

namespace Walker

open Walk

variable {α β γ δ : Type} {config : Config} {outset : Outset} {frame : Frame} {stage : Stage}

/-! ## Loops and options -/

theorem lockstep_forIn {items : List γ} {others : List δ} {corresponds : γ → δ → Prop}
    {body : γ → PUnit → Walker (ForInStep PUnit)} {bodyTwin : δ → PUnit → Walker (ForInStep PUnit)}
    (all : List.Forall₂ corresponds items others)
    (round : ∀ later item other, stage.Before later → corresponds item other →
      Lockstep config outset frame later (body item ⟨⟩) (bodyTwin other ⟨⟩)
        fun _ next twin => next = .yield ⟨⟩ ∧ twin = .yield ⟨⟩) :
    Lockstep config outset frame stage (forIn items ⟨⟩ body) (forIn others ⟨⟩ bodyTwin)
      fun _ _ _ => True := by
  induction all generalizing stage with
  | nil => exact .pure trivial
  | cons corresponding _ inductionHypothesis =>
      rw [List.forIn_cons, List.forIn_cons]
      apply (round stage _ _ (.refl stage) corresponding).bind
      rintro later _ _ before ⟨rfl, rfl⟩
      exact inductionHypothesis fun last item other after =>
        round last item other (before.trans after)

theorem lockstep_mapM {items : List γ} {others : List δ} {corresponds : γ → δ → Prop}
    {action : γ → Walker α} {twin : δ → Walker β} (found : Stage → α → β → Prop)
    (mono : ∀ stage later value other, stage.Before later → found stage value other →
      found later value other)
    (all : List.Forall₂ corresponds items others)
    (each : ∀ later item other, stage.Before later → corresponds item other →
      Lockstep config outset frame later (action item) (twin other) found) :
    Lockstep config outset frame stage (items.mapM action) (others.mapM twin)
      fun later values results => List.Forall₂ (found later) values results := by
  induction all generalizing stage with
  | nil => exact .pure .nil
  | cons corresponding _ inductionHypothesis =>
      rw [List.mapM_cons, List.mapM_cons]
      apply (each stage _ _ (.refl stage) corresponding).bind
      intro middle value other before foundFirst
      apply (inductionHypothesis fun last item other after =>
        each last item other (before.trans after)).bind
      intro later values results after foundRest
      exact .pure (.cons (mono middle later value other after foundFirst) foundRest)

/-! ## Values that may be there -/

/-- A value that may be there is accessed, through a new node. -/
theorem lockstep_accessOf {base other : Option NodeId}
    (bases : PairedResults outset stage base other) (kind : NodeKind)
    (origin another : Option NodeIndex) (position : Option Position) (field : Option String)
    (type : ValueType) (receives : kind ≠ .parameter) {next : NodeId → Walker α}
    {nextTwin : NodeId → Walker β} {holds : Stage → α → β → Prop}
    (rest : ∀ later node nodeTwin, stage.Before later → Receivers outset later node nodeTwin →
      Lockstep config outset frame later (next node) (nextTwin nodeTwin) holds) :
    Lockstep config outset frame stage
      (do
        let node ← addNode kind origin position type
        if let some base := base then
          addAccess base node field type
        next node)
      (do
        let node ← addNode kind another position type
        if let some base := other then
          addAccess base node field type
        nextTwin node)
      holds := by
  apply (lockstep_addReceiver kind origin another position type receives).bind
  intro middle node nodeTwin before nodes
  cases bases with
  | none => exact rest middle node nodeTwin before nodes
  | some paired =>
      apply (lockstep_addAccess field type (paired.mono before) nodes).bind
      exact fun later _ _ after _ =>
          rest later node nodeTwin (before.trans after) (nodes.mono after)

/-- A value that may be there meets a sink. -/
theorem lockstep_sinkOf {value other : Option NodeId} {target another : NodeId}
    (values : PairedResults outset stage value other)
    (targets : Receivers outset stage target another) (kind : EdgeKind) (reason : EscapeReason)
    (position : Option Position) {next : Walker α} {nextTwin : Walker β}
    {holds : Stage → α → β → Prop}
    (rest : ∀ later, stage.Before later → Lockstep config outset frame later next nextTwin holds) :
    Lockstep config outset frame stage
      (do
        if let some value := value then
          addSink value target kind reason position
        next)
      (do
        if let some value := other then
          addSink value another kind reason position
        nextTwin)
      holds := by
  cases values with
  | none => exact rest stage (.refl stage)
  | some paired =>
      apply (lockstep_addSink kind reason position paired targets).bind
      exact fun later _ _ before _ => rest later before

theorem lockstep_assignVariable (name : StrId) (target other : NodeIndex)
    {value another : Option NodeId} (values : PairedResults outset stage value another)
    (type : ValueType) (position : Option Position) :
    Lockstep config outset frame stage (assignVariable name target value type position)
      (assignVariable name other another type position)
      fun later id twin => Paired outset later id twin := by
  apply Lockstep.get
  intro one two inStep
  have define : Lockstep config outset frame stage
      (do
        let node ← addNode .localVar (some target) position type
        let key ← defineVariable name node
        if let some value := value then
          addFlow key value
          addUse value node
        return node)
      (do
        let node ← addNode .localVar (some other) position type
        let key ← defineVariable name node
        if let some value := another then
          addFlow key value
          addUse value node
        return node)
      fun later id twin => Paired outset later id twin := by
    apply (lockstep_addReceiver .localVar (some target) (some other) position type nofun).bind
    intro first node nodeTwin beforeFirst nodes
    apply (lockstep_defineVariable name nodes.paired).bind
    intro second key keyTwin beforeSecond keys
    have before := beforeFirst.trans beforeSecond
    cases values with
    | none => exact .pure (nodes.paired.mono beforeSecond)
    | some paired =>
        apply (lockstep_addFlow keys (paired.mono before)).bind
        intro third _ _ beforeThird _
        apply (lockstep_addUse (paired.mono (before.trans beforeThird))
          (nodes.mono (beforeSecond.trans beforeThird))).bind
        intro later _ _ beforeLater _
        exact .pure (nodes.paired.mono ((beforeSecond.trans beforeThird).trans beforeLater))
  have bound := inStep.bindings name
  generalize one.graph.scopes.find? name = foundOne at bound
  generalize two.graph.scopes.find? name = foundTwo at bound
  cases bound with
  | none => exact define
  | @some id twin paired =>
      obtain ⟨node, twins⟩ := paired
      obtain ⟨kindOne, kindTwo⟩ := inStep.kind?_eq twins
      rw [Option.filter_some, Option.filter_some, kindOne, kindTwo]
      by_cases isGlobal : node.kind = .globalVar
      · have receivers : Receivers outset stage id twin := ⟨node, twins, by simp [isGlobal]⟩
        rw [isGlobal]
        apply lockstep_sinkOf values receivers
        exact fun later before => .pure (twins.paired.mono before)
      · rw [if_neg (by simpa using isGlobal), if_neg (by simpa using isGlobal)]
        exact define

/-! ## Statements -/

/-- Visits of nodes that are paired keep walks in step. -/
def VisitsAlike (config : Config) (outset : Outset) (same : NodeIndex → NodeIndex → Prop)
    (visit twin : Visit) : Prop :=
  ∀ frame stage index other, same index other →
    Lockstep config outset frame stage (visit index) (twin other) (PairedResults outset)

section

variable {same : NodeIndex → NodeIndex → Prop} {visit twin : Visit}
  (alike : VisitsAlike config outset same visit twin)
include alike

theorem lockstep_child {index other : NodeIndex} (paired : same index other) :
    Lockstep config outset frame stage (visit index) (twin other) (PairedResults outset) :=
  alike frame stage index other paired

/-- The value of a visit is of no account. -/
theorem lockstep_pass {index other : NodeIndex} (paired : same index other) {next : Walker α}
    {nextTwin : Walker β} {holds : Stage → α → β → Prop}
    (rest : ∀ later, stage.Before later → Lockstep config outset frame later next nextTwin holds) :
    Lockstep config outset frame stage (visit index >>= fun _ => next)
      (twin other >>= fun _ => nextTwin) holds := by
  apply (lockstep_child alike paired).bind
  exact fun later _ _ before _ => rest later before

/-- A node is visited if it is there. -/
theorem lockstep_visitSome {index other : Option NodeIndex} (related : Option.Rel same index other)
    {next : Walker α} {nextTwin : Walker β} {holds : Stage → α → β → Prop}
    (rest : ∀ later, stage.Before later → Lockstep config outset frame later next nextTwin holds) :
    Lockstep config outset frame stage
      (do
        if let some index := index then
          let _ ← visit index
        next)
      (do
        if let some other := other then
          let _ ← twin other
        nextTwin)
      holds := by
  cases related with
  | none => exact rest stage (.refl stage)
  | some paired => exact lockstep_pass alike paired rest

theorem lockstep_statements {statements others : List NodeIndex}
    (all : List.Forall₂ same statements others) :
    Lockstep config outset frame stage
      (forIn statements PUnit.unit fun statement _ => do
        let _ ← visit statement
        return .yield PUnit.unit)
      (forIn others PUnit.unit fun statement _ => do
        let _ ← twin statement
        return .yield PUnit.unit)
      fun _ _ _ => True := by
  apply lockstep_forIn all
  intro later item other _ paired
  apply lockstep_pass alike paired
  exact fun _ _ => .pure ⟨rfl, rfl⟩

theorem lockstep_visitIf {condition thenBranch other another : NodeIndex}
    {elseBranch last : Option NodeIndex} (conditions : same condition other)
    (thenBranches : same thenBranch another) (elseBranches : Option.Rel same elseBranch last) :
    Lockstep config outset frame stage (visitIf visit condition thenBranch elseBranch)
      (visitIf twin other another last) fun _ _ _ => True := by
  apply lockstep_pass alike conditions
  intro afterCondition _
  apply quiet_currentBlock.lockstepBind quiet_currentBlock
  intro pivot pivotTwin
  apply (quiet_branchFrom _).lockstepBind (quiet_branchFrom _)
  intro _ _
  apply lockstep_pass alike thenBranches
  intro afterThen _
  apply quiet_currentBlock.lockstepBind quiet_currentBlock
  intro thenEnd thenEndTwin
  have join (elseEnd elseEndTwin : BlockId) (later : Stage) :
      Lockstep config outset frame later
        (do
          let join ← newBlock
          connect thenEnd join
          connect elseEnd join
          moveTo join)
        (do
          let join ← newBlock
          connect thenEndTwin join
          connect elseEndTwin join
          moveTo join)
        fun _ _ _ => True := by
    apply Quiet.lockstep
    · exact quiet_newBlock.bind fun _ => (quiet_connect _ _).bind fun _ =>
        (quiet_connect _ _).bind fun _ => quiet_moveTo _
    · exact quiet_newBlock.bind fun _ => (quiet_connect _ _).bind fun _ =>
        (quiet_connect _ _).bind fun _ => quiet_moveTo _
  cases elseBranches with
  | none => exact join pivot pivotTwin afterThen
  | some paired =>
      apply (quiet_branchFrom _).lockstepBind (quiet_branchFrom _)
      intro _ _
      apply lockstep_pass alike paired
      intro afterElse _
      apply quiet_currentBlock.lockstepBind quiet_currentBlock
      exact fun elseEnd elseEndTwin => join elseEnd elseEndTwin afterElse

theorem lockstep_visitLoop {init update others rest : List NodeIndex}
    {condition another : Option NodeIndex} {body last : NodeIndex}
    (inits : List.Forall₂ same init others) (conditions : Option.Rel same condition another)
    (updates : List.Forall₂ same update rest) (bodies : same body last) :
    Lockstep config outset frame stage (visitLoop visit init condition update body)
      (visitLoop twin others another rest last) fun _ _ _ => True := by
  apply (lockstep_statements alike inits).bind
  intro afterInit _ _ _ _
  apply quiet_currentBlock.lockstepBind quiet_currentBlock
  intro _ _
  apply (quiet_branchFrom _).lockstepBind (quiet_branchFrom _)
  intro header headerTwin
  apply lockstep_visitSome alike conditions
  intro afterCondition _
  apply quiet_currentBlock.lockstepBind quiet_currentBlock
  intro decision decisionTwin
  apply (quiet_branchFrom _).lockstepBind (quiet_branchFrom _)
  intro _ _
  apply lockstep_pass alike bodies
  intro afterBody _
  apply (lockstep_statements alike updates).bind
  intro afterUpdate _ _ _ _
  apply Quiet.lockstep
  · exact quiet_currentBlock.bind fun _ => (quiet_connect _ _).bind fun _ =>
      (quiet_branchFrom _).bind fun _ => .pure _
  · exact quiet_currentBlock.bind fun _ => (quiet_connect _ _).bind fun _ =>
      (quiet_branchFrom _).bind fun _ => .pure _

theorem lockstep_visitForeach (index indexTwin : NodeIndex)
    {iterable body other another : NodeIndex}
    (key : Option StrId) (value : StrId) (position : Option Position)
    (iterables : same iterable other) (bodies : same body another) :
    Lockstep config outset frame stage (visitForeach visit index iterable key value body position)
      (visitForeach twin indexTwin other key value another position) fun _ _ _ => True := by
  apply (lockstep_child alike iterables).bind
  intro first source sourceTwin _ sources
  apply quiet_currentBlock.lockstepBind quiet_currentBlock
  intro _ _
  apply (quiet_branchFrom _).lockstepBind (quiet_branchFrom _)
  intro header headerTwin
  apply (quiet_branchFrom _).lockstepBind (quiet_branchFrom _)
  intro _ _
  apply lockstep_accessOf sources .arrayLoad (some index) (some indexTwin) position none .unknown
    nofun
  intro second element elementTwin _ elements
  have round (later : Stage) (paired : Paired outset later element elementTwin) :
      Lockstep config outset frame later
        (do
          let node ← addNode .localVar (some index) position .unknown
          addEdge element node .defUse
          let _ ← defineVariable value node
          let _ ← visit body
          connect (← currentBlock) header
          let _ ← branchFrom header)
        (do
          let node ← addNode .localVar (some indexTwin) position .unknown
          addEdge elementTwin node .defUse
          let _ ← defineVariable value node
          let _ ← twin another
          connect (← currentBlock) headerTwin
          let _ ← branchFrom headerTwin)
        fun _ _ _ => True := by
    apply (lockstep_addReceiver .localVar (some index) (some indexTwin) position .unknown nofun).bind
    intro third node nodeTwin beforeThird nodes
    apply (lockstep_addEdge .defUse (paired.mono beforeThird) nodes).bind
    intro fourth _ _ beforeFourth _
    apply (lockstep_defineVariable value (nodes.paired.mono beforeFourth)).bind
    intro _ _ _ _ _
    apply lockstep_pass alike bodies
    intro _ _
    apply Quiet.lockstep
    · exact quiet_currentBlock.bind fun _ => (quiet_connect _ _).bind fun _ =>
        (quiet_branchFrom _).bind fun _ => .pure _
    · exact quiet_currentBlock.bind fun _ => (quiet_connect _ _).bind fun _ =>
        (quiet_branchFrom _).bind fun _ => .pure _
  cases key with
  | none => exact round second elements.paired
  | some key =>
      apply (lockstep_addReceiver .localVar (some index) (some indexTwin) position .unknown nofun).bind
      intro third node nodeTwin beforeThird nodes
      apply (lockstep_defineVariable key nodes.paired).bind
      intro fourth _ _ beforeFourth _
      exact round fourth (elements.paired.mono (beforeThird.trans beforeFourth))

theorem lockstep_storeProperty {tree treeTwin : Tree} (target targetTwin : NodeIndex)
    {object other : NodeIndex} (property : StrId) (names : tree.name property = treeTwin.name property)
    (objects : same object other) {value another : Option NodeId}
    (values : PairedResults outset stage value another) (type : ValueType)
    (position : Option Position) :
    Lockstep config outset frame stage
      (storeProperty tree visit target object property value type position)
      (storeProperty treeTwin twin targetTwin other property another type position)
      fun later id idTwin => Paired outset later id idTwin := by
  apply (lockstep_child alike objects).bind
  intro first base baseTwin beforeFirst bases
  rw [names]
  apply lockstep_accessOf bases .fieldStore (some target) (some targetTwin) position _ type nofun
  intro second store storeTwin beforeSecond stores
  apply lockstep_sinkOf (values.mono (beforeFirst.trans beforeSecond)) stores
  exact fun later before => .pure (stores.paired.mono before)

theorem lockstep_storeElement (target targetTwin : NodeIndex) {array other : NodeIndex}
    {index indexTwin : Option NodeIndex} (arrays : same array other)
    (indices : Option.Rel same index indexTwin) {value another : Option NodeId}
    (values : PairedResults outset stage value another) (type : ValueType)
    (position : Option Position) :
    Lockstep config outset frame stage (storeElement visit target array index value type position)
      (storeElement twin targetTwin other indexTwin another type position)
      fun later id idTwin => Paired outset later id idTwin := by
  apply (lockstep_child alike arrays).bind
  intro first base baseTwin beforeFirst bases
  apply lockstep_visitSome alike indices
  intro second beforeSecond
  apply lockstep_accessOf (bases.mono beforeSecond) .arrayStore (some target) (some targetTwin)
    position none type nofun
  intro third store storeTwin beforeThird stores
  apply lockstep_sinkOf (values.mono ((beforeFirst.trans beforeSecond).trans beforeThird)) stores
  exact fun later before => .pure (stores.paired.mono before)

theorem lockstep_storeElsewhere {target other : NodeIndex} (targets : same target other)
    (isDangling : Bool) {value another : Option NodeId}
    (values : PairedResults outset stage value another) (type : ValueType)
    (position : Option Position) :
    Lockstep config outset frame stage (storeElsewhere visit target isDangling value type position)
      (storeElsewhere twin other isDangling another type position) fun _ _ _ => True := by
  have store (later : Stage) (before : stage.Before later) :
      Lockstep config outset frame later
        (do
          let sink ← addNode .globalVar (some target) position type
          if let some value := value then
            addSink value sink .defUse .storedToHeap position)
        (do
          let sink ← addNode .globalVar (some other) position type
          if let some value := another then
            addSink value sink .defUse .storedToHeap position)
        fun _ _ _ => True := by
    apply (lockstep_addReceiver .globalVar (some target) (some other) position type nofun).bind
    intro last sink sinkTwin after sinks
    apply lockstep_sinkOf (values.mono (before.trans after)) sinks
    exact fun _ _ => .pure trivial
  cases isDangling with
  | true => exact store stage (.refl stage)
  | false => exact lockstep_pass alike targets store

theorem lockstep_visitArgument {arg other : NodeIndex} (args : same arg other)
    (position : Option Position) :
    Lockstep config outset frame stage (visitArgument visit position arg)
      (visitArgument twin position other) fun _ _ _ => True := by
  apply (lockstep_child alike args).bind
  intro later value valueTwin _ values
  cases values with
  | none => exact .pure trivial
  | some paired => exact lockstep_passToUnknown (some arg) (some other) position paired

theorem lockstep_visitArguments {args others : List NodeIndex} (all : List.Forall₂ same args others)
    (position : Option Position) :
    Lockstep config outset frame stage
      (forIn args PUnit.unit fun arg _ => do
        visitArgument visit position arg
        return .yield PUnit.unit)
      (forIn others PUnit.unit fun arg _ => do
        visitArgument twin position arg
        return .yield PUnit.unit)
      fun _ _ _ => True := by
  apply lockstep_forIn all
  intro later item other _ paired
  apply (lockstep_visitArgument alike paired position).bind
  exact fun _ _ _ _ _ => .pure ⟨rfl, rfl⟩

omit alike in
/-- Values that correspond are of one type. -/
theorem type_eq {one two : Walk} (inStep : InStep config outset frame stage one two)
    {value other : Option NodeId} (values : PairedResults outset stage value other) :
    ((value.bind one.graph.values.node?).map (·.type)).getD .unknown =
      ((other.bind two.graph.values.node?).map (·.type)).getD .unknown := by
  cases values with
  | none => rfl
  | some paired =>
      obtain ⟨node, twins⟩ := paired
      obtain ⟨bareOne, bareTwo⟩ := inStep.bare_eq twins
      obtain ⟨nodeOne, foundOne, rfl⟩ := Option.map_eq_some_iff.1 bareOne
      obtain ⟨nodeTwo, foundTwo, same⟩ := Option.map_eq_some_iff.1 bareTwo
      have types : nodeTwo.bare.type = nodeOne.bare.type := congrArg ValueNode.type same
      rw [Option.bind_some, Option.bind_some, foundOne, foundTwo]
      exact types.symm

theorem lockstep_visitAssignment {tree treeTwin : Tree} (trees : Tree.Alike same tree treeTwin)
    {target value other another : NodeIndex} (targets : same target other)
    (valuesAlike : same value another) (position : Option Position) :
    Lockstep config outset frame stage (visitAssignment tree visit target value position)
      (visitAssignment treeTwin twin other another position) (PairedResults outset) := by
  apply (lockstep_child alike valuesAlike).bind
  intro first result resultTwin _ results
  apply Lockstep.get
  intro one two inStep
  rw [type_eq inStep results]
  generalize ((resultTwin.bind two.graph.values.node?).map (·.type)).getD .unknown = type
  have elsewhere (isDangling : Bool) :
      Lockstep config outset frame first
        (do
          storeElsewhere visit target isDangling result type position
          return none : Walker (Option NodeId))
        (do
          storeElsewhere twin other isDangling resultTwin type position
          return none : Walker (Option NodeId))
        (PairedResults outset) := by
    apply (lockstep_storeElsewhere alike targets isDangling results type position).bind
    exact fun _ _ _ _ _ => .pure .none
  have datas := trees.data? targets
  generalize tree.data? target = data at datas
  generalize treeTwin.data? other = dataTwin at datas
  cases datas with
  | none => exact elsewhere true
  | some dataAlike =>
      cases dataAlike with
      | var name =>
          exact .map ((lockstep_assignVariable name target other results type position).imp
            fun _ _ _ paired => .some paired)
      | propertyAccess property objects =>
          exact .map ((lockstep_storeProperty alike target other property (trees.name_eq property)
            objects results type position).imp fun _ _ _ paired => .some paired)
      | arrayAccess arrays indices =>
          exact .map ((lockstep_storeElement alike target other arrays indices results type
            position).imp fun _ _ _ paired => .some paired)
      | _ => exact elsewhere false

/-! ## Bodies -/

omit alike in
theorem of_paired_withScope {first second : NodeId}
    (paired : Paired outset stage.withScope first second) : Paired outset stage first second := by
  obtain ⟨node, twins⟩ := paired
  refine ⟨node, ?_⟩
  cases twins with
  | shared shares foundOne foundTwo bareOne bareTwo =>
      exact .shared shares foundOne foundTwo bareOne bareTwo
  | made found => exact .made found

/-- The frame of two bodies. -/
def bodyFrame (frame : Frame) (one two : Walk) : Frame :=
  ⟨one.scopeCount + 1, two.scopeCount + 1, one.graph.scopes.current :: frame.savedOne,
    two.graph.scopes.current :: frame.savedTwo⟩

omit alike in
theorem inStep_enterBody {one two : Walk} (inStep : InStep config outset frame stage one two) :
    InStep config outset (bodyFrame frame one two) stage.withScope (enterBody one) (enterBody two) := by
  have before := stage.before_withScope
  refine { inStep with
    edge_iff := fun sources targets =>
      inStep.edge_iff (of_paired_withScope sources) (of_paired_withScope targets)
    edges_one := fun edge listed => (inStep.edges_one edge listed).imp_right fun ⟨other, paired⟩ =>
      ⟨other, paired.mono before⟩
    edges_two := fun edge listed => (inStep.edges_two edge listed).imp_right fun ⟨other, paired⟩ =>
      ⟨other, paired.mono before⟩
    bindings := fun _ => .none
    saved_one := congrArg _ inStep.saved_one
    saved_two := congrArg _ inStep.saved_two
    scope_one := rfl
    scope_two := rfl
    scopes := ?_
    scopeCount_one := congrArg (· + 1) inStep.scopeCount_one
    scopeCount_two := congrArg (· + 1) inStep.scopeCount_two
    noted := { inStep.noted.mono before with } }
  rw [bodyFrame, inStep.scopeCount_one, inStep.scopeCount_two, Nat.add_right_comm,
    Nat.add_right_comm outset.two.scopeCount]
  exact .entered (Nat.lt_succ_self _)

omit alike in
theorem inStep_leaveBody {one two innerOne innerTwo : Walk} {later : Stage}
    (inStep : InStep config outset frame stage one two) (before : stage.Before later)
    (inner : InStep config outset (bodyFrame frame one two) later innerOne innerTwo) :
    InStep config outset frame later (leaveBody one innerOne) (leaveBody two innerTwo) := by
  have scopesOne : (leaveBody one innerOne).graph.scopes = one.graph.scopes :=
    scopes_leaveBody (inner.saved_one.trans (inStep.saved_one ▸ rfl))
  have scopesTwo : (leaveBody two innerTwo).graph.scopes = two.graph.scopes :=
    scopes_leaveBody (inner.saved_two.trans (inStep.saved_two ▸ rfl))
  refine { inner with
    bindings := fun name => ?_
    saved_one := (congrArg Scopes.saved scopesOne).trans inStep.saved_one
    saved_two := (congrArg Scopes.saved scopesTwo).trans inStep.saved_two
    scope_one := inStep.scope_one
    scope_two := inStep.scope_two
    scopes := inStep.scopes.mono before
    noted := { inner.noted with } }
  rw [scopesOne, scopesTwo]
  exact PairedResults.mono (inStep.bindings name) before

/-- Captured names correspond, with the values they are bound to inside and outside. -/
structure PairedCaptures (outset : Outset) (stage : Stage)
    (first second : StrId × NodeId × NodeId) : Prop where
  name_eq : first.1 = second.1
  inside : Receivers outset stage first.2.1 second.2.1
  outside : Paired outset stage first.2.2 second.2.2

theorem lockstep_walkBody (params : List StrId) {captures captureTwins : List (StrId × NodeId × NodeId)}
    (paired : List.Forall₂ (PairedCaptures outset stage) captures captureTwins)
    {body other : NodeIndex} (bodies : same body other) (position : Option Position) :
    Lockstep config outset frame stage (walkBody visit params captures body position)
      (walkBody twin params captureTwins other position) (PairedResults outset) := by
  apply quiet_newRegion.lockstepBind quiet_newRegion
  intro _ _
  apply (quiet_moveTo _).lockstepBind (quiet_moveTo _)
  intro _ _
  apply (lockstep_forIn (List.forall₂_same.2 fun param (_ : param ∈ params) => rfl) ?_).bind
  · intro middle _ _ beforeMiddle _
    apply (lockstep_forIn paired ?_).bind
    · exact fun _ _ _ _ _ => lockstep_child alike bodies
    · rintro later ⟨name, inside, outside⟩ ⟨_, insideTwin, outsideTwin⟩ before ⟨rfl, insides, outsides⟩
      have sinceStart := beforeMiddle.trans before
      apply (lockstep_defineVariable name (insides.paired.mono sinceStart)).bind
      intro last key keyTwin beforeLast keys
      apply (lockstep_addFlow keys (outsides.mono (sinceStart.trans beforeLast))).bind
      exact fun _ _ _ _ _ => .pure ⟨rfl, rfl⟩
  · rintro later param _ _ rfl
    apply (lockstep_addNode .parameter none none position .unknown).bind
    intro middle node nodeTwin _ twins
    apply (lockstep_defineVariable param twins.paired).bind
    exact fun _ _ _ _ _ => .pure ⟨rfl, rfl⟩

theorem lockstep_visitBody (params : List StrId)
    {captures captureTwins : List (StrId × NodeId × NodeId)}
    (paired : List.Forall₂ (PairedCaptures outset stage) captures captureTwins)
    {body other : NodeIndex} (bodies : same body other) (position : Option Position) :
    Lockstep config outset frame stage (visitBody visit params captures body position)
      (visitBody twin params captureTwins other position) fun _ _ _ => True := by
  intro one two inStep
  have entered := inStep_enterBody inStep
  have before := stage.before_withScope
  have pairedInside : List.Forall₂ (PairedCaptures outset stage.withScope) captures captureTwins :=
    paired.imp fun _ _ capture =>
      ⟨capture.name_eq, capture.inside.mono before, capture.outside.mono before⟩
  obtain ⟨later, after, inner, -⟩ :=
    lockstep_walkBody alike params pairedInside bodies position _ _ entered
  have sinceStart := before.trans after
  rw [visitBody_eq, visitBody_eq]
  exact ⟨later, sinceStart, inStep_leaveBody inStep sinceStart inner, trivial⟩

theorem lockstep_visitClosure (index indexTwin : NodeIndex) (params captures : List StrId)
    {body other : NodeIndex} (bodies : same body other) (position : Option Position) :
    Lockstep config outset frame stage
      (visitClosure config visit index params captures body position)
      (visitClosure config twin indexTwin params captures other position)
      fun later id idTwin => Paired outset later id idTwin := by
  apply (lockstep_mapM (PairedCaptures outset) ?_
    (List.forall₂_same.2 fun name (_ : name ∈ captures) => rfl) ?_).bind
  · intro first bound boundTwin _ bounds
    apply (lockstep_addAllocation index indexTwin position .closure none captures.length).bind
    intro second closure closureTwin beforeSecond closures
    have boundsLater : List.Forall₂ (PairedCaptures outset second) bound boundTwin :=
      bounds.imp fun _ _ capture => ⟨capture.name_eq, capture.inside.mono beforeSecond,
        capture.outside.mono beforeSecond⟩
    apply (lockstep_forIn boundsLater ?_).bind
    · intro third _ _ beforeThird _
      have boundsLast : List.Forall₂ (PairedCaptures outset third) bound boundTwin :=
        boundsLater.imp fun _ _ capture => ⟨capture.name_eq, capture.inside.mono beforeThird,
          capture.outside.mono beforeThird⟩
      apply (lockstep_visitBody alike params boundsLast bodies position).bind
      exact fun later _ _ before _ => .pure (closures.paired.mono (beforeThird.trans before))
    · rintro later ⟨name, inside, outside⟩ ⟨_, insideTwin, outsideTwin⟩ before ⟨-, insides, -⟩
      apply (lockstep_addEdge .dataDep (insides.paired.mono before) (closures.mono before)).bind
      exact fun _ _ _ _ _ => .pure ⟨rfl, rfl⟩
  · exact fun stage later value other before capture =>
      ⟨capture.name_eq, capture.inside.mono before, capture.outside.mono before⟩
  · rintro later name _ _ rfl
    apply (lockstep_readVariable name index indexTwin position).bind
    intro first captured capturedTwin _ captureds
    apply (lockstep_addReceiver .closureCapture (some index) (some indexTwin) position .unknown
      nofun).bind
    intro second capture captureTwin beforeSecond captures
    apply (lockstep_addSink .defUse .capturedByClosure position (captureds.mono beforeSecond)
      captures).bind
    intro third _ _ beforeThird _
    exact .pure ⟨rfl, captures.mono beforeThird,
      captureds.mono (beforeSecond.trans beforeThird)⟩

/-! ## Nodes -/

/-- The operands of an allocation. -/
theorem lockstep_operands {operands others : List NodeIndex}
    (all : List.Forall₂ same operands others) :
    Lockstep config outset frame stage (operands.mapM visit) (others.mapM twin)
      fun later values results => List.Forall₂ (PairedResults outset later) values results :=
  lockstep_mapM (PairedResults outset) (fun _ _ _ _ before related => related.mono before) all
    fun _ _ _ _ paired => lockstep_child alike paired

omit alike in
/-- Control leaves with a value that may be there. -/
theorem lockstep_leave {value other : Option NodeId} (values : PairedResults outset stage value other)
    (index another : NodeIndex) (reason : EscapeReason) (position : Option Position) :
    Lockstep config outset frame stage
      (do
        let exit ← addNode .returnValue (some index) position .unknown
        if let some value := value then
          addSink value exit .defUse reason position
        leaveControl
        return none : Walker (Option NodeId))
      (do
        let exit ← addNode .returnValue (some another) position .unknown
        if let some value := other then
          addSink value exit .defUse reason position
        leaveControl
        return none : Walker (Option NodeId))
      (PairedResults outset) := by
  apply (lockstep_addReceiver .returnValue (some index) (some another) position .unknown nofun).bind
  intro later exit exitTwin before exits
  apply lockstep_sinkOf (values.mono before) exits
  intro last _
  apply quiet_leaveControl.lockstepBind quiet_leaveControl
  exact fun _ _ => .pure .none

omit alike in
theorem lockstep_result (kind : NodeKind) (receives : kind ≠ .parameter) (index other : NodeIndex)
    (position : Option Position) (type : ValueType) :
    Lockstep config outset frame stage (some <$> addNode kind (some index) position type)
      (some <$> addNode kind (some other) position type) (PairedResults outset) :=
  .map ((lockstep_addReceiver kind (some index) (some other) position type receives).imp
    fun _ _ _ receivers => .some receivers.paired)

variable {tree treeTwin : Tree} (trees : Tree.Alike same tree treeTwin)
include trees

theorem lockstep_objectInstantiation (index other : NodeIndex) (className : StrId)
    {args others : List NodeIndex} (all : List.Forall₂ same args others)
    (position : Option Position) :
    Lockstep config outset frame stage
      (visitNode config tree visit index ⟨.objectInstantiation className args, position⟩)
      (visitNode config treeTwin twin other ⟨.objectInstantiation className others, position⟩)
      (PairedResults outset) := by
  apply (lockstep_operands alike all).bind
  intro first values results _ related
  rw [trees.name_eq, related.length_eq]
  apply (lockstep_addAllocation index other position .object _ results.length).bind
  intro second node nodeTwin beforeSecond nodes
  apply (lockstep_forIn related ?_).bind
  · exact fun later _ _ before _ => .pure (.some (nodes.paired.mono before))
  · intro later value result before paired
    cases paired with
    | none => exact .pure ⟨rfl, rfl⟩
    | some paired =>
        apply (lockstep_passToUnknown (some index) (some other) position
          (paired.mono (beforeSecond.trans before))).bind
        exact fun _ _ _ _ _ => .pure ⟨rfl, rfl⟩

omit trees in
theorem lockstep_arrayInit (index other : NodeIndex) {elements others : List NodeIndex}
    (all : List.Forall₂ same elements others) (position : Option Position) :
    Lockstep config outset frame stage
      (visitNode config tree visit index ⟨.arrayInit elements, position⟩)
      (visitNode config treeTwin twin other ⟨.arrayInit others, position⟩)
      (PairedResults outset) := by
  apply (lockstep_operands alike all).bind
  intro first values results _ related
  rw [related.length_eq]
  apply (lockstep_addAllocation index other position .array none results.length).bind
  intro second node nodeTwin beforeSecond nodes
  apply (lockstep_forIn related ?_).bind
  · exact fun later _ _ before _ => .pure (.some (nodes.paired.mono before))
  · intro later value result before paired
    cases paired with
    | none => exact .pure ⟨rfl, rfl⟩
    | some paired =>
        apply (lockstep_addSink .elementOf .storedToArray position
          (paired.mono (beforeSecond.trans before)) (nodes.mono before)).bind
        exact fun _ _ _ _ _ => .pure ⟨rfl, rfl⟩

theorem lockstep_visitNode (index other : NodeIndex) {node nodeTwin : TreeNode}
    (nodes : TreeNode.Alike same node nodeTwin) :
    Lockstep config outset frame stage (visitNode config tree visit index node)
      (visitNode config treeTwin twin other nodeTwin) (PairedResults outset) := by
  obtain ⟨data, position⟩ := node
  obtain ⟨dataTwin, positionTwin⟩ := nodeTwin
  obtain ⟨dataAlike, rfl⟩ := nodes
  cases dataAlike with
  | root statements =>
      apply (lockstep_statements alike statements).bind
      exact fun _ _ _ _ _ => .pure .none
  | block statements =>
      apply (lockstep_statements alike statements).bind
      exact fun _ _ _ _ _ => .pure .none
  | functionDecl _ params body =>
      apply (lockstep_visitBody alike params .nil body position).bind
      exact fun _ _ _ _ _ => .pure .none
  | assignment target value => exact lockstep_visitAssignment alike trees target value position
  | objectInstantiation className args =>
      exact lockstep_objectInstantiation alike trees index other className args position
  | arrayInit elements => exact lockstep_arrayInit alike index other elements position
  | returnStmt value =>
      cases value with
      | none => exact lockstep_leave .none index other .returned position
      | some paired =>
          apply (lockstep_child alike paired).bind
          exact fun _ _ _ _ values => lockstep_leave values index other .returned position
  | functionCall _ args =>
      apply (lockstep_visitArguments alike args position).bind
      exact fun _ _ _ _ _ => lockstep_result .callResult nofun index other position .unknown
  | methodCall _ object args =>
      apply (lockstep_visitArgument alike object position).bind
      intro _ _ _ _ _
      apply (lockstep_visitArguments alike args position).bind
      exact fun _ _ _ _ _ => lockstep_result .callResult nofun index other position .unknown
  | propertyAccess property object =>
      apply (lockstep_child alike object).bind
      intro first base baseTwin _ bases
      rw [trees.name_eq]
      apply lockstep_accessOf bases .fieldLoad (some index) (some other) position _ .unknown nofun
      exact fun _ _ _ _ loads => .pure (.some loads.paired)
  | arrayAccess array element =>
      apply (lockstep_child alike array).bind
      intro first base baseTwin _ bases
      apply lockstep_visitSome alike element
      intro second before
      apply lockstep_accessOf (bases.mono before) .arrayLoad (some index) (some other) position none
        .unknown nofun
      exact fun _ _ _ _ loads => .pure (.some loads.paired)
  | closure params captures body =>
      exact .map ((lockstep_visitClosure alike index other params captures body position).imp
        fun _ _ _ paired => .some paired)
  | var name =>
      exact .map ((lockstep_readVariable name index other position).imp
        fun _ _ _ paired => .some paired)
  | ifStmt condition thenBranch elseBranch =>
      apply (lockstep_visitIf alike condition thenBranch elseBranch).bind
      exact fun _ _ _ _ _ => .pure .none
  | whileStmt condition body =>
      apply (lockstep_visitLoop alike .nil (.some condition) .nil body).bind
      exact fun _ _ _ _ _ => .pure .none
  | forStmt init condition update body =>
      apply (lockstep_visitLoop alike init condition update body).bind
      exact fun _ _ _ _ _ => .pure .none
  | foreachStmt key value iterable body =>
      apply (lockstep_visitForeach alike index other key value position iterable body).bind
      exact fun _ _ _ _ _ => .pure .none
  | throwStmt value =>
      apply (lockstep_child alike value).bind
      exact fun _ _ _ _ values => lockstep_leave values index other .thrownAsException position
  | literal value =>
      exact lockstep_result .constant nofun index other position (literalType value)
  | global names =>
      apply (lockstep_forIn (List.forall₂_same.2 fun name (_ : name ∈ names) => rfl) ?_).bind
      · exact fun _ _ _ _ _ => .pure .none
      · rintro later name _ _ rfl
        apply (lockstep_addReceiver .globalVar (some index) (some other) position .unknown
          nofun).bind
        intro middle node nodeTwin _ receivers
        apply (lockstep_bind name receivers.paired).bind
        exact fun _ _ _ _ _ => .pure ⟨rfl, rfl⟩
  | other =>
      apply quiet_skip.lockstepBind quiet_skip
      exact fun _ _ => .pure .none

end

/-- Visits of nodes that are alike keep two walks in step. -/
theorem visitsAlike_visit {same : NodeIndex → NodeIndex → Prop} {tree treeTwin : Tree}
    (trees : Tree.Alike same tree treeTwin) (config : Config) (outset : Outset) (levels : Nat) :
    VisitsAlike config outset same (visit config tree levels) (visit config treeTwin levels) := by
  induction levels with
  | zero =>
      intro frame stage index other paired
      have nodes := trees.nodes index other paired
      apply quiet_skip.lockstepBind quiet_skip
      intro _ _
      generalize tree.get? index = node at nodes
      generalize treeTwin.get? other = nodeTwin at nodes
      cases nodes with
      | none => exact .pure .none
      | some _ =>
          apply lockstep_truncate.bind
          exact fun _ _ _ _ _ => .pure .none
  | succ levels inductionHypothesis =>
      intro frame stage index other paired
      have nodes := trees.nodes index other paired
      rw [visit, visit]
      generalize tree.get? index = node at nodes
      generalize treeTwin.get? other = nodeTwin at nodes
      cases nodes with
      | none =>
          apply quiet_skip.lockstepBind quiet_skip
          exact fun _ _ => .pure .none
      | some alike => exact lockstep_visitNode inductionHypothesis trees index other alike

end Walker

end EscapePlan
