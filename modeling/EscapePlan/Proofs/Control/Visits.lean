import EscapePlan.Proofs.Control.Steps

/-!
# Visits and the points they go to

A visit goes to the point after its node if the visits inside it do: where branches meet, control
comes from either, and where a loop is left it comes from the decision, whatever the body does.  By
induction on the levels, the walk over a tree ends at the point after its root, where all
definitions have been marked.
-/

namespace EscapePlan

namespace Walker

open Walk

/-- Visits go from any point to the point after the node. -/
def VisitsSurvey (visit : Visit) (next : NodeIndex → Course → Course) : Prop :=
  ∀ facts course index, Surveys facts course (next index course) (visit index)

variable {α β γ : Type} {facts : List Fact} {course start finish : Course} {depth : Nat}
  {visit other : Visit} {next : NodeIndex → Course → Course} {completes : NodeIndex → Bool}

theorem surveys_statements (surveys : VisitsSurvey visit next) (index : NodeIndex)
    (statements : List NodeIndex) :
    Surveys facts course ((statements.map Step.visit).foldl (Course.take next index) course)
      (forIn statements PUnit.unit fun statement _ => do
        let _ ← visit statement
        return .yield PUnit.unit) := by
  rw [List.foldl_map]
  exact surveys_forIn (fun _ _ => rfl) fun statement _ course =>
    (surveys _ course statement).bind fun _ => .pure _

/-! ## Bodies -/

/-- What is done in a body goes from its first point to the point after it. -/
theorem surveys_fillBody (surveys : VisitsSurvey visit next) (index : NodeIndex)
    (params : List StrId) {captures : List (StrId × NodeId × NodeId)} (body : NodeIndex)
    (position : Option Position)
    (known : ∀ bound ∈ captures, .node bound.2.1 (some index) ∈ facts) :
    Surveys facts ⟨true, [], course.marks⟩
      (next body (course.begin params (captures.map (·.1)) index))
      (fillBody visit params captures body position) := by
  have parameters : Surveys facts ⟨true, [], course.marks⟩ _
      (forIn params PUnit.unit fun param _ => do
        let node ← addNode .parameter none position .unknown
        let _ ← defineVariable param node
        return .yield PUnit.unit) :=
    surveys_forIn (fun _ _ => rfl) fun param _ course =>
      surveys_addNode_new NodeKind.noConfusion none position .unknown fun node =>
        (surveys_defineVariable param List.mem_cons_self).bind fun _ => .pure _
  have bound (start : Course) : Surveys facts start
      (captures.foldl (fun course bound => course.define (some index) bound.1) start)
      (forIn captures PUnit.unit fun capture _ => do
        let key ← defineVariable capture.1 capture.2.1
        addFlow key capture.2.2
        return .yield PUnit.unit) :=
    surveys_forIn (fun _ _ => rfl) fun capture member course =>
      (surveys_defineVariable capture.1 (known capture member)).bind fun key =>
        (surveys_addFlow key capture.2.2).bind fun _ => .pure _
  rw [Course.begin, List.foldl_map]
  exact parameters.bind fun _ => (bound _).bind fun _ => surveys _ _ body

/-- Control can get to where a body begins, and no name is bound there. -/
theorem Stands.beginBody {walk : Walk} (stands : Stands course walk) :
    Keeps walk (enterBody walk).beginRegion ∧
      Stands ⟨true, [], course.marks⟩ (enterBody walk).beginRegion := by
  have keeps : Keeps walk (enterBody walk).beginRegion :=
    ⟨fun _ _ kept => kept, ControlFlow.spares_newRegion _⟩
  refine ⟨keeps, stands.coherent.newRegion, ⟨?_, ?_⟩, fun _ _ found => (nomatch found),
    fun name => ?_, stands.marked_last keeps fun _ => ControlFlow.definitions_newBlock⟩
  · exact Nat.lt_of_lt_of_eq (Nat.lt_succ_self _) (ControlFlow.size_newBlock _).symm
  · exact iff_of_true (ControlFlow.reached_newRegion.2 (.inr rfl)) rfl
  · exact ⟨fun member => absurd member List.not_mem_nil, fun ⟨_, found, _⟩ => (nomatch found)⟩

/-- After a body control is back, and only definitions have been added. -/
theorem surveys_visitBody (surveys : VisitsSurvey visit next)
    (returns : VisitsReturn depth other visit) (index : NodeIndex) (params : List StrId)
    {captures : List (StrId × NodeId × NodeId)} (body : NodeIndex) (position : Option Position)
    (known : ∀ bound ∈ captures, .node bound.2.1 (some index) ∈ facts) :
    Surveys facts course
      { course with
        marks := (next body (course.begin params (captures.map (·.1)) index)).marks }
      (visitBody visit params captures body position) := by
  intro walk knows stands
  have scopes := scopes_visitBody returns params captures body position walk
  rw [visitBody_eq_fillBody] at scopes ⊢
  obtain ⟨begins, begun⟩ := Stands.beginBody stands
  obtain ⟨fills, filled⟩ := surveys_fillBody surveys index params body position known _
    (fun fact member => begins.knows (knows fact member)) begun
  have keeps := begins.trans fills
  generalize (fillBody visit params captures body position (enterBody walk).beginRegion).2 = inner
    at scopes keeps filled
  -- The names are those of before; only the definitions come from inside.
  have left : Keeps walk (leaveBody walk inner) := ⟨keeps.nodes, keeps.spares⟩
  have binds : Binds walk (leaveBody walk inner) := .of_eq scopes
  refine ⟨left, filled.coherent, left.knows stands.block, stands.bound_last left binds,
    fun name => (stands.mem_globals name).trans (stands.hasGlobal_iff left binds name).symm, ?_⟩
  exact filled.marked_last ⟨fun _ _ kept => kept, .refl _⟩ fun _ => rfl

/-! ## Closures -/

/-- The node of a captured name may be remembered. -/
theorem surveys_captureName (index : NodeIndex) (position : Option Position) (name : StrId)
    {rest : StrId × NodeId × NodeId → Walker β}
    (continues : ∀ capture captured,
      Surveys (.node capture (some index) :: facts) start finish (rest (name, capture, captured))) :
    Surveys facts start finish (captureName index position name >>= rest) := by
  show Surveys facts start finish (readVariable name index position >>= fun captured =>
    addNode .closureCapture (some index) position .unknown >>= fun capture =>
      addSink captured capture .defUse .capturedByClosure position >>= fun _ =>
        rest (name, capture, captured))
  refine (surveys_readVariable name index position).bind fun captured => ?_
  refine surveys_addNode_new NodeKind.noConfusion _ _ _ fun capture => ?_
  exact (surveys_addSink _ _ _ _ _).bind fun _ => continues capture captured

theorem surveys_captureNames (index : NodeIndex) (position : Option Position)
    (captures : List StrId) {rest : List (StrId × NodeId × NodeId) → Walker β}
    (continues : ∀ bound more, bound.map (·.1) = captures → (∀ fact ∈ facts, fact ∈ more) →
      (∀ one ∈ bound, .node one.2.1 (some index) ∈ more) →
      Surveys more start finish (rest bound)) :
    Surveys facts start finish (captures.mapM (captureName index position) >>= rest) := by
  induction captures generalizing facts rest with
  | nil =>
      exact continues [] facts rfl (fun _ member => member)
        fun _ member => absurd member List.not_mem_nil
  | cons name captures inductionHypothesis =>
      rw [List.mapM_cons, bind_assoc]
      refine surveys_captureName index position name fun capture captured => ?_
      simp only [bind_assoc, pure_bind]
      refine inductionHypothesis fun bound more names contained known => ?_
      refine continues _ more (congrArg (name :: ·) names)
        (fun fact member => contained fact (List.mem_cons_of_mem _ member)) ?_
      exact List.forall_mem_cons.2 ⟨contained _ List.mem_cons_self, known⟩

theorem surveys_visitClosure (surveys : VisitsSurvey visit next)
    (returns : VisitsReturn depth other visit) (config : Config) (index : NodeIndex)
    (params captures : List StrId) (body : NodeIndex) (position : Option Position) :
    Surveys facts course
      { course with marks := (next body (course.begin params captures index)).marks }
      (visitClosure config visit index params captures body position) := by
  rw [visitClosure_eq]
  refine surveys_captureNames index position captures fun bound more names _ known => ?_
  subst names
  have allocated : Surveys more course course
      (allocateClosure config index (bound.map (·.1)) position bound) := by
    refine (surveys_addAllocation _ _ _ _ _ _).bind fun closure => ?_
    refine (surveys_forIn_same fun _ => ?_).bind fun _ => .pure _
    exact (surveys_addEdge _ _ _).bind fun _ => .pure _
  refine allocated.bind fun closure => ?_
  exact (surveys_visitBody surveys returns index params body position known).bind fun _ => .pure _

/-! ## Points that are the same -/

theorem Surveys.reached_eq {action : Walker α} {one two : Bool}
    (surveys : Surveys facts start { finish with reached := one } action) (same : one = two) :
    Surveys facts start { finish with reached := two } action :=
  same ▸ surveys

/-- Whether control gets somewhere does not depend on the order in which names were declared. -/
theorem Surveys.globals_eq {action : Walker α} {globals : List StrId}
    (surveys : Surveys facts start finish action)
    (same : ∀ name, name ∈ globals ↔ name ∈ finish.globals) :
    Surveys facts start { finish with globals } action := by
  intro walk knows stands
  obtain ⟨keeps, stood⟩ := surveys walk knows stands
  exact ⟨keeps,
    { stood with mem_globals := fun name => (same name).trans (stood.mem_globals name) }⟩

/-- What goes through the plan of a node goes to the point after it. -/
theorem Surveys.leave {tree : Tree} {index : NodeIndex} {data : NodeData} {action : Walker α}
    (reaches : ∀ index course, (next index course).reached = (course.reached && completes index))
    (surveys : Surveys facts course ((data.plan tree).foldl (Course.take next index) course) action)
    (course_eq : data.course tree next index course =
      (data.plan tree).foldl (Course.take next index) course)
    (completes_eq : data.completes tree completes = (data.plan tree).all (·.completes completes)) :
    Surveys facts course (data.leave tree next completes index course) action := by
  have same := Course.reached_foldl_take reaches index (data.plan tree) course
  rw [NodeData.leave, course_eq, completes_eq, ← same]
  exact surveys

/-! ## Assignments and declarations -/

/-- A name that is not bound to a global variable is defined. -/
theorem surveys_assignVariable (name : StrId) (target : NodeIndex) (value : Option NodeId)
    (type : ValueType) (position : Option Position) :
    Surveys facts course
      (if name ∈ course.globals then course else course.define (some target) name)
      (assignVariable name target value type position) := by
  generalize result : (if name ∈ course.globals then course
    else course.define (some target) name) = finish
  refine Surveys.get fun walk stands => ?_
  split
  next existing found =>
    obtain ⟨bound, kind⟩ := Option.filter_eq_some_iff.1 found
    rw [if_pos ((stands.mem_globals name).2 ⟨existing, bound, of_decide_eq_true kind⟩)] at result
    subst result
    exact surveys_sinkOf value existing _ _ _ (.pure existing)
  next free =>
    have undeclared : name ∉ course.globals := by
      intro declared
      obtain ⟨existing, bound, kind⟩ := (stands.mem_globals name).1 declared
      rw [Option.filter_eq_none_iff] at free
      exact free existing bound (decide_eq_true kind)
    rw [if_neg undeclared] at result
    subst result
    refine surveys_addNode_new NodeKind.noConfusion _ _ _ fun node => ?_
    refine (surveys_defineVariable name List.mem_cons_self).bind fun key => ?_
    cases value with
    | none => exact .pure _
    | some value =>
        exact (surveys_addFlow key value).bind fun _ => (surveys_addUse value node).bind fun _ =>
          .pure _

theorem surveys_declareNames (names : List StrId) (index : NodeIndex)
    (position : Option Position) :
    Surveys facts course { course with globals := names ++ course.globals }
      (forIn names PUnit.unit fun name _ => do
        let node ← addNode .globalVar (some index) position .unknown
        modifyScopes (·.bind name node)
        return .yield PUnit.unit) := by
  induction names generalizing course with
  | nil => exact .pure _
  | cons name names inductionHypothesis =>
      rw [List.forIn_cons]
      have rest := @inductionHypothesis { course with globals := name :: course.globals }
      refine (surveys_declareName name index position).bindResult fun _ => rest.globals_eq ?_
      intro other
      simp [or_left_comm]

/-- The end of a statement that control does not come back from. -/
theorem surveys_exit (value : Option NodeId) (index : NodeIndex) (reason : EscapeReason)
    (position : Option Position) {exit : Walker (Option NodeId)}
    (exitEq : exit = do
      let exit ← addNode .returnValue (some index) position .unknown
      if let some value := value then
        addSink value exit .defUse reason position
      leaveControl
      return none) :
    Surveys facts course { course with reached := false } exit := by
  subst exitEq
  refine (surveys_addNode _ _ _ _).bind fun exit => ?_
  exact surveys_sinkOf value exit .defUse reason position
    (surveys_leaveControl.bind fun _ => .pure none)

/-! ## Stores and arguments -/

section

variable (surveys : VisitsSurvey visit next)
include surveys

theorem surveys_storeProperty (tree : Tree) (target object : NodeIndex) (property : StrId)
    (value : Option NodeId) (type : ValueType) (position : Option Position) :
    Surveys facts course (next object course)
      (storeProperty tree visit target object property value type position) := by
  refine (surveys _ _ object).bind fun base => (surveys_addNode _ _ _ _).bind fun store => ?_
  exact surveys_accessOf base store _ type (surveys_sinkOf value store _ _ _ (.pure store))

theorem surveys_storeElement (target array index : NodeIndex) (element : Option NodeIndex)
    (value : Option NodeId) (type : ValueType) (position : Option Position) :
    Surveys facts course
      ((element.toList.map Step.visit).foldl (Course.take next index) (next array course))
      (storeElement visit target array element value type position) := by
  refine (surveys _ _ array).bind fun base => ?_
  have store (course : Course) : Surveys facts course course (do
      let store ← addNode .arrayStore (some target) position type
      if let some base := base then
        addAccess base store none type
      if let some value := value then
        addSink value store .elementOf .storedToArray position
      return store) :=
    (surveys_addNode _ _ _ _).bind fun store =>
      surveys_accessOf base store none type (surveys_sinkOf value store _ _ _ (.pure store))
  cases element with
  | none => exact store _
  | some element => exact (surveys _ _ element).bind fun _ => store _

theorem surveys_storeElsewhere (target : NodeIndex) (isDangling : Bool) (value : Option NodeId)
    (type : ValueType) (position : Option Position) :
    Surveys facts course (if isDangling then course else next target course)
      (storeElsewhere visit target isDangling value type position) := by
  have store (course : Course) : Surveys facts course course (do
      let sink ← addNode .globalVar (some target) position type
      if let some value := value then
        addSink value sink .defUse .storedToHeap position) :=
    (surveys_addNode _ _ _ _).bind fun sink =>
      surveys_sinkOf value sink _ _ _ (.pure PUnit.unit)
  cases isDangling with
  | true => exact store _
  | false => exact (surveys _ _ target).bind fun _ => store _

theorem surveys_visitArgument (position : Option Position) (arg : NodeIndex) :
    Surveys facts course (next arg course) (visitArgument visit position arg) := by
  refine (surveys _ _ arg).bind fun value => ?_
  cases value with
  | none => exact .pure _
  | some value => exact surveys_passToUnknown value (some arg) position

theorem surveys_visitArguments (index : NodeIndex) (position : Option Position)
    (args : List NodeIndex) :
    Surveys facts course ((args.map Step.visit).foldl (Course.take next index) course)
      (forIn args PUnit.unit fun arg _ => do
        visitArgument visit position arg
        return .yield PUnit.unit) := by
  rw [List.foldl_map]
  exact surveys_forIn (fun _ _ => rfl) fun arg _ course =>
    (surveys_visitArgument surveys position arg).bind fun _ => .pure _

theorem surveys_operands (index : NodeIndex) {operands : List NodeIndex}
    {rest : List (Option NodeId) → Walker β}
    (continues : ∀ values, Surveys facts
      ((operands.map Step.visit).foldl (Course.take next index) course) finish (rest values)) :
    Surveys facts course finish (operands.mapM visit >>= rest) := by
  rw [List.foldl_map] at continues
  exact (surveys_mapM fun operand course => surveys _ course operand).bind continues

end

/-! ## Branches and loops -/

section

variable (surveys : VisitsSurvey visit next)
  (reaches : ∀ index course, (next index course).reached = (course.reached && completes index))
include surveys reaches

theorem surveys_visitIf (tree : Tree) (index condition thenBranch : NodeIndex)
    (elseBranch : Option NodeIndex) :
    Surveys facts course
      ((NodeData.ifStmt condition thenBranch elseBranch).leave tree next completes index course)
      (visitIf visit condition thenBranch elseBranch) := by
  have third (first second fact : Fact) (facts : List Fact) :
      fact ∈ first :: second :: fact :: facts :=
    List.mem_cons_of_mem _ (List.mem_cons_of_mem _ List.mem_cons_self)
  refine (surveys _ _ condition).bind fun _ => surveys_currentBlock fun pivot => ?_
  refine surveys_branchFrom List.mem_cons_self fun _ => ?_
  refine (surveys _ _ thenBranch).bind fun _ => surveys_currentBlock fun thenEnd => ?_
  cases elseBranch with
  | none =>
      refine (surveys_join List.mem_cons_self (third _ _ _ _)).reached_eq ?_
      rw [reaches, reaches, NodeData.completes]
      cases course.reached <;> cases completes condition <;> simp
  | some elseBranch =>
      refine surveys_branchFrom (third _ _ _ _) fun _ => ?_
      refine (surveys _ _ elseBranch).bind fun _ => surveys_currentBlock fun elseEnd => ?_
      refine (surveys_join (third _ _ _ _) List.mem_cons_self).reached_eq ?_
      rw [reaches, reaches, reaches, NodeData.completes, ← Bool.and_or_distrib_left, Bool.and_assoc]
      rfl

/-- Control goes on after a loop from the decision, whatever the body does. -/
theorem surveys_visitLoop (index : NodeIndex) (init : List NodeIndex)
    (condition : Option NodeIndex) (update : List NodeIndex) (body : NodeIndex) {decision : Course}
    (decides : (init.map Step.visit ++ condition.toList.map Step.visit).foldl
      (Course.take next index) course = decision) :
    Surveys facts course
      { (.visit body :: update.map Step.visit).foldl (Course.take next index) decision with
        reached := decision.reached }
      (visitLoop visit init condition update body) := by
  subst decides
  have along := Course.reached_foldl_take reaches index
  refine (surveys_statements surveys index init).bind fun _ => surveys_currentBlock fun _ => ?_
  refine surveys_branchFrom List.mem_cons_self fun header => ?_
  rw [List.foldl_append]
  generalize (init.map Step.visit).foldl (Course.take next index) course = entry
  -- Wherever the body ends, control gets there through the header only, so the edge back to the
  -- header lets it get nowhere else.
  have round (facts : List Fact) (decision : Course)
      (known : .block header entry.reached ∈ facts)
      (comes : decision.reached = true → entry.reached = true) :
      Surveys facts decision
        { (.visit body :: update.map Step.visit).foldl (Course.take next index) decision with
          reached := decision.reached }
        (do
          let decision ← currentBlock
          let _ ← branchFrom decision
          let _ ← visit body
          for statement in update do
            let _ ← visit statement
          connect (← currentBlock) header
          let _ ← branchFrom decision) := by
    refine surveys_currentBlock fun block => ?_
    refine surveys_branchFrom List.mem_cons_self fun _ => (surveys _ _ body).bind fun _ => ?_
    refine (surveys_statements surveys index update).bind fun _ => ?_
    refine surveys_roundEnd (List.mem_cons_of_mem _ (List.mem_cons_of_mem _ known))
      (List.mem_cons_of_mem _ List.mem_cons_self) fun reached => comes ?_
    rw [along, reaches] at reached
    simp only [Bool.and_eq_true] at reached
    exact reached.1.1
  cases condition with
  | none => exact round _ entry List.mem_cons_self id
  | some condition =>
      refine (surveys _ _ condition).bind fun _ => round _ _ List.mem_cons_self fun reached => ?_
      rw [reaches, Bool.and_eq_true] at reached
      exact reached.1

theorem surveys_visitForeach (tree : Tree) (index iterable : NodeIndex) (key : Option StrId)
    (value : StrId) (body : NodeIndex) (position : Option Position) :
    Surveys facts course
      ((NodeData.foreachStmt iterable key value body).leave tree next completes index course)
      (visitForeach visit index iterable key value body position) := by
  refine (surveys _ _ iterable).bind fun source => surveys_currentBlock fun outer => ?_
  refine surveys_branchFrom List.mem_cons_self fun header => ?_
  refine surveys_branchFrom List.mem_cons_self fun inner => ?_
  refine (surveys_addNode _ _ _ _).bind fun element => ?_
  have round (facts : List Fact) (start : Course)
      (known : .block header (next iterable course).reached ∈ facts)
      (same : start.reached = (next iterable course).reached) :
      Surveys facts start
        { next body (start.define (some index) value) with
          reached := (next iterable course).reached }
        (visitElement visit index none value body position element header) := by
    refine surveys_addNode_new NodeKind.noConfusion _ _ _ fun node => ?_
    refine (surveys_addEdge element node .defUse).bind fun _ => ?_
    refine (surveys_defineVariable value List.mem_cons_self).bind fun _ => ?_
    refine (surveys _ _ body).bind fun _ => ?_
    refine surveys_roundEnd (List.mem_cons_of_mem _ known) (List.mem_cons_of_mem _ known)
      fun reached => ?_
    rw [reaches, Bool.and_eq_true] at reached
    exact same ▸ reached.1
  have whole (facts : List Fact) (known : .block header (next iterable course).reached ∈ facts) :
      Surveys facts (next iterable course)
        ((NodeData.foreachStmt iterable key value body).leave tree next completes index course)
        (visitElement visit index key value body position element header) := by
    cases key with
    | none => exact (round facts _ known rfl).reached_eq (reaches iterable course)
    | some key =>
        refine Surveys.reached_eq ?_ (reaches iterable course)
        refine surveys_addNode_new NodeKind.noConfusion _ _ _ fun node => ?_
        refine (surveys_defineVariable key List.mem_cons_self).bind fun _ => ?_
        exact round _ _ (List.mem_cons_of_mem _ known) rfl
  have known : Fact.block header (next iterable course).reached ∈
      .block inner (next iterable course).reached ::
        .block header (next iterable course).reached ::
          .block outer (next iterable course).reached :: facts :=
    List.mem_cons_of_mem _ List.mem_cons_self
  cases source with
  | none => exact whole _ known
  | some source =>
      exact (surveys_addAccess source element none .unknown).bind fun _ => whole _ known

/-! ## Nodes -/

theorem surveys_visitAssignment (tree : Tree) (index target value : NodeIndex)
    (position : Option Position) :
    Surveys facts course
      ((NodeData.assignment target value).leave tree next completes index course)
      (visitAssignment tree visit target value position) := by
  have along := Course.reached_foldl_take reaches index
    ((NodeData.assignment target value).plan tree) course
  refine Surveys.reached_eq ?_ along
  refine (surveys _ _ value).bind fun result => Surveys.get fun walk _ => ?_
  generalize ((result.bind walk.graph.values.node?).map (·.type)).getD .unknown = type
  rw [NodeData.course, NodeData.plan, Tree.targetPlan]
  cases tree.data? target with
  | none =>
      exact (surveys_storeElsewhere surveys target true result type position).bind fun _ =>
        .pure none
  | some data =>
      cases data with
      | var name =>
          have same : (if name ∈ (next value course).globals then next value course
              else (next value course).define (some target) name).reached =
                (next value course).reached := by
            split
            next => rfl
            next => rfl
          exact Surveys.reached_eq
            ((surveys_assignVariable name target result type position).map some) same
      | propertyAccess object property =>
          exact (surveys_storeProperty surveys tree target object property result type position).map
            some
      | arrayAccess array element =>
          exact (surveys_storeElement surveys target array index element result type position).map
            some
      | _ =>
          exact (surveys_storeElsewhere surveys target false result type position).bind fun _ =>
            .pure none

/-- A visit goes to the point after its node if the visits inside it do. -/
theorem surveys_visitNode (returns : VisitsReturn depth other visit) (config : Config) (tree : Tree)
    (index : NodeIndex) (node : TreeNode) :
    Surveys facts course (node.data.leave tree next completes index course)
      (visitNode config tree visit index node) := by
  obtain ⟨data, position⟩ := node
  have never (course : Course) : false = (course.reached && false) := (Bool.and_false _).symm
  have always (course : Course) : course.reached = (course.reached && true) :=
    (Bool.and_true _).symm
  have result (course : Course) :
      Surveys facts course course (some <$> addNode .callResult (some index) position .unknown) :=
    (surveys_addNode _ _ _ _).map some
  cases data with
  | root statements =>
      refine Surveys.leave reaches ?_ rfl rfl
      exact (surveys_statements surveys index statements).bind fun _ => .pure none
  | block statements =>
      refine Surveys.leave reaches ?_ rfl rfl
      exact (surveys_statements surveys index statements).bind fun _ => .pure none
  | functionDecl name params body =>
      refine Surveys.reached_eq ?_ (always course)
      exact (surveys_visitBody surveys returns index params body position
        fun _ member => absurd member List.not_mem_nil).bind fun _ => .pure none
  | assignment target value =>
      exact surveys_visitAssignment surveys reaches tree index target value position
  | objectInstantiation className args =>
      refine Surveys.leave reaches ?_ rfl rfl
      rw [NodeData.plan, List.foldl_append]
      refine surveys_operands surveys index fun values => ?_
      refine (surveys_addAllocation _ _ _ _ _ _).bind fun object => ?_
      refine (surveys_forIn_same fun value => ?_).bind fun _ => .pure _
      cases value with
      | none => exact .pure _
      | some value =>
          exact (surveys_passToUnknown value (some index) position).bind fun _ => .pure _
  | arrayInit elements =>
      refine Surveys.leave reaches ?_ rfl rfl
      rw [NodeData.plan, List.foldl_append]
      refine surveys_operands surveys index fun values => ?_
      refine (surveys_addAllocation _ _ _ _ _ _).bind fun array => ?_
      refine (surveys_forIn_same fun value => ?_).bind fun _ => .pure _
      exact surveys_sinkOf value array .elementOf .storedToArray position (.pure _)
  | returnStmt value =>
      cases value with
      | none => exact (surveys_exit none index .returned position rfl).reached_eq (never course)
      | some value =>
          refine Surveys.reached_eq ?_ (never course)
          exact (surveys _ _ value).bind fun value =>
            surveys_exit value index .returned position rfl
  | functionCall callee args =>
      refine Surveys.leave reaches ?_ rfl rfl
      exact (surveys_visitArguments surveys index position args).bind fun _ => result _
  | methodCall object method args =>
      refine Surveys.leave reaches ?_ rfl rfl
      exact (surveys_visitArgument surveys position object).bind fun _ =>
        (surveys_visitArguments surveys index position args).bind fun _ => result _
  | propertyAccess object property =>
      refine Surveys.leave reaches ?_ rfl rfl
      refine (surveys _ _ object).bind fun base => (surveys_addNode _ _ _ _).bind fun load => ?_
      exact surveys_accessOf base load _ .unknown (.pure _)
  | arrayAccess array element =>
      refine Surveys.leave reaches ?_ rfl rfl
      refine (surveys _ _ array).bind fun base => ?_
      have load (course : Course) : Surveys facts course course (do
          let load ← addNode .arrayLoad (some index) position .unknown
          if let some base := base then
            addAccess base load none .unknown
          return some load) :=
        (surveys_addNode _ _ _ _).bind fun load =>
          surveys_accessOf base load none .unknown (.pure _)
      cases element with
      | none => exact load _
      | some element => exact (surveys _ _ element).bind fun _ => load _
  | closure params captures body =>
      refine Surveys.reached_eq ?_ (always course)
      exact (surveys_visitClosure surveys returns config index params captures body position).map
        some
  | var name =>
      refine Surveys.leave reaches ?_ rfl rfl
      exact (surveys_readVariable name index position).map some
  | ifStmt condition thenBranch elseBranch =>
      exact (surveys_visitIf surveys reaches tree index condition thenBranch elseBranch).bind
        fun _ => .pure none
  | whileStmt condition body =>
      refine Surveys.reached_eq ?_ (reaches condition course)
      exact (surveys_visitLoop surveys reaches index [] (some condition) [] body rfl).bind
        fun _ => .pure none
  | forStmt init condition update body =>
      have looped := @surveys_visitLoop facts course visit next completes surveys reaches index init
        condition update body _ rfl
      rw [← List.foldl_append] at looped
      refine Surveys.reached_eq (looped.bind fun _ => .pure none) ?_
      rw [Course.reached_foldl_take reaches, List.all_append, List.all_map, List.all_map]
      cases condition with
      | none => simp [NodeData.completes, Function.comp_def, Step.completes]
      | some condition => simp [NodeData.completes, Function.comp_def, Step.completes]
  | foreachStmt iterable key value body =>
      exact (surveys_visitForeach surveys reaches tree index iterable key value body position).bind
        fun _ => .pure none
  | throwStmt value =>
      refine Surveys.reached_eq ?_ (never course)
      exact (surveys _ _ value).bind fun value =>
        surveys_exit value index .thrownAsException position rfl
  | literal value =>
      refine Surveys.leave reaches ?_ rfl rfl
      exact (surveys_addNode _ _ _ _).map some
  | global names =>
      refine Surveys.leave reaches ?_ rfl rfl
      exact (surveys_declareNames names index position).bind fun _ => .pure none
  | other =>
      refine Surveys.leave reaches ?_ rfl rfl
      exact surveys_skip.bind fun _ => .pure none

end

/-- Every visit goes to the point after its node. -/
theorem surveys_visit (config : Config) (tree : Tree) (levels : Nat) :
    VisitsSurvey (Walker.visit config tree levels) (tree.course levels) := by
  induction levels with
  | zero =>
      intro facts course index
      refine surveys_skip.bind fun _ => ?_
      split
      next => exact surveys_truncate.bind fun _ => .pure none
      next => exact .pure none
  | succ levels inductionHypothesis =>
      intro facts course index
      rw [Walker.visit, Tree.course, Tree.data?]
      cases tree.get? index with
      | none => exact surveys_skip.bind fun _ => .pure none
      | some node =>
          exact surveys_visitNode inductionHypothesis (tree.reached_course levels)
            (returns_visit config tree levels) config tree index node

end Walker

end EscapePlan
