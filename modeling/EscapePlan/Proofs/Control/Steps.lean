import EscapePlan.Proofs.Control.Standing
import EscapePlan.Proofs.Flow.IteratedFrontier

/-!
# Steps from one point to another

Steps that add values stay at a point.  Those that move control go to a point that is reached if one
of the blocks is that control comes from.  A name that is defined is marked, and is not bound to a
global variable from there on; a name that is declared is.
-/

namespace EscapePlan

open ControlFlow

namespace ControlFlow

variable {flow : ControlFlow} {block : BlockId}

/-- A definition that is recorded is listed last. -/
theorem Lists.recordDefinition {placed : List (BlockId × Definition)} (lists : flow.Lists placed)
    (known : block < flow.size) (var : VarId) (node : NodeId) :
    (flow.recordDefinition block var node).Lists (placed ++ [(block, ⟨var, node, 0⟩)]) := by
  intro other
  rw [List.filter_append, List.map_append, ← lists other]
  by_cases same : block = other
  · subst same
    rw [definitions_recordDefinition known]
    simp
  · rw [definitions, ControlFlow.recordDefinition, getD_modifyBlock, if_neg same]
    simp [definitions, same]

end ControlFlow

namespace Walk

variable {before after walk : Walk} {course : Course}

theorem Binds.of_eq (same : after.graph.scopes = before.graph.scopes) : Binds before after :=
  fun _ => .inl (by rw [same])

theorem Still.refl (walk : Walk) : Still walk walk :=
  ⟨rfl, rfl, fun _ _ => id, .of_eq rfl⟩

/-- Control may go to any block if nothing else changes about the known blocks. -/
theorem Stands.move (stands : Stands course walk) {flow : ControlFlow} {block : BlockId}
    {reached : Bool} (spares : walk.graph.flow.Spares flow)
    (definitions : ∀ block, flow.definitions block = walk.graph.flow.definitions block)
    (coherent : flow.Coherent) (known : block < flow.size)
    (reachedIff : flow.Reached block ↔ reached = true) :
    Keeps walk { walk with graph := { walk.graph with flow }, block } ∧
      Stands { course with reached } { walk with graph := { walk.graph with flow }, block } := by
  have keeps : Keeps walk { walk with graph := { walk.graph with flow }, block } :=
    ⟨fun _ _ => id, spares⟩
  exact ⟨keeps, stands.last keeps (.of_eq rfl) definitions coherent ⟨known, reachedIff⟩⟩

/-- A name that has been bound is bound to a global variable if its value is one. -/
theorem hasGlobal_of_bind {name : StrId} {node : NodeId}
    (scopes : after.graph.scopes = before.graph.scopes.bind name node)
    (values : after.graph.values = before.graph.values) (other : StrId) :
    after.HasGlobal other ↔
      if name = other then after.kind? node = some .globalVar else before.HasGlobal other := by
  have kinds : after.kind? = before.kind? := by
    funext id
    rw [kind?, kind?, values]
  rw [HasGlobal, HasGlobal, scopes, Scopes.find?_bind, kinds]
  split
  next => simp
  next => rfl

end Walk

namespace Walker

open Walk

variable {α β γ : Type} {facts : List Fact} {course start finish : Course}

/-! ## Steps that stay at a point -/

theorem surveys_of_still {action : Walker α} (still : ∀ walk, Still walk (action walk).2) :
    Surveys facts course course action :=
  fun walk _ stands => ⟨(still walk).keeps, stands.of_still (still walk)⟩

theorem still_addNode (kind : NodeKind) (origin : Option NodeIndex) (position : Option Position)
    (type : ValueType) (walk : Walk) : Still walk (addNode kind origin position type walk).2 :=
  ⟨rfl, rfl, fun _ _ found => ValueGraph.node?_of_addNode found, .of_eq rfl⟩

theorem surveys_addNode (kind : NodeKind) (origin : Option NodeIndex) (position : Option Position)
    (type : ValueType) : Surveys facts course course (addNode kind origin position type) :=
  surveys_of_still (still_addNode kind origin position type)

/-- A new value may be remembered. -/
theorem surveys_addNode_new {kind : NodeKind} (other : kind ≠ .globalVar)
    (origin : Option NodeIndex) (position : Option Position) (type : ValueType)
    {next : NodeId → Walker β}
    (rest : ∀ node, Surveys (.node node origin :: facts) start finish (next node)) :
    Surveys facts start finish (addNode kind origin position type >>= next) := by
  intro walk knows stands
  have still := still_addNode kind origin position type walk
  have known : (addNode kind origin position type walk).2.Knows
      (.node walk.graph.values.size origin) :=
    ⟨_, (walk.graph.values.node?_addNode kind origin position type _).trans (if_pos rfl), other,
      rfl⟩
  obtain ⟨keeps, stood⟩ := rest walk.graph.values.size (addNode kind origin position type walk).2
    (List.forall_mem_cons.2 ⟨known, fun fact member => still.keeps.knows (knows fact member)⟩)
    (stands.of_still still)
  exact ⟨still.keeps.trans keeps, stood⟩

theorem surveys_addEdge (source target : NodeId) (kind : EdgeKind) :
    Surveys facts course course (addEdge source target kind) := by
  refine surveys_of_still fun walk => ⟨rfl, rfl, fun id node found => ?_, .of_eq rfl⟩
  show (walk.graph.values.addEdge ⟨source, target, kind⟩).nodes[id]? = some node
  rw [ValueGraph.nodes_addEdge]
  exact found

theorem surveys_skip : Surveys facts course course skip :=
  surveys_of_still fun walk => { Still.refl walk with }

theorem surveys_truncate : Surveys facts course course truncate :=
  surveys_of_still fun walk => { Still.refl walk with }

theorem surveys_addFlow (key : VarKey) (value : NodeId) :
    Surveys facts course course (addFlow key value) :=
  surveys_of_still fun walk => { Still.refl walk with }

theorem surveys_addUse (value target : NodeId) :
    Surveys facts course course (addUse value target) := by
  refine Surveys.get fun walk _ => ?_
  split
  next => exact surveys_addEdge value target .defUse
  next => exact .pure _

theorem surveys_addSink (value target : NodeId) (kind : EdgeKind) (reason : EscapeReason)
    (position : Option Position) :
    Surveys facts course course (addSink value target kind reason position) :=
  (surveys_addUse value target).bind fun _ =>
    surveys_of_still fun walk => { Still.refl walk with }

theorem surveys_addAccess (base node : NodeId) (field : Option String) (type : ValueType) :
    Surveys facts course course (addAccess base node field type) :=
  (surveys_addUse base node).bind fun _ =>
    surveys_of_still fun walk => { Still.refl walk with }

theorem surveys_passToUnknown (value : NodeId) (origin : Option NodeIndex)
    (position : Option Position) :
    Surveys facts course course (passToUnknown value origin position) :=
  (surveys_addNode _ _ _ _).bind fun _ => surveys_addSink _ _ _ _ _

theorem surveys_addAllocation (config : Config) (origin : NodeIndex) (position : Option Position)
    (objectType : ObjectType) (className : Option String) (count : Nat) :
    Surveys facts course course
      (addAllocation config origin position objectType className count) := by
  refine surveys_of_still fun walk => ?_
  rw [addAllocation_eq]
  exact { still_addNode .allocation (some origin) position (allocatedType objectType) walk with }

/-- A name that is free may be bound to a value that is no global variable. -/
theorem still_bindVariable {name : StrId} {id : NodeId} {node : ValueNode} {walk : Walk}
    (free : walk.graph.scopes.find? name = none) (found : walk.graph.values.node? id = some node)
    (other : node.kind ≠ .globalVar) : Still walk (bindVariable name id walk).2 := by
  refine ⟨rfl, rfl, fun _ _ kept => kept, fun bound => ?_⟩
  rw [show (bindVariable name id walk).2.graph.scopes = walk.graph.scopes.bind name id from rfl,
    Scopes.find?_bind]
  split
  next same =>
    subst same
    exact .inr ⟨free, id, node, rfl, found, other⟩
  next => exact .inl rfl

theorem surveys_readVariable (name : StrId) (origin : NodeIndex) (position : Option Position) :
    Surveys facts course course (readVariable name origin position) := by
  intro walk _ stands
  cases bound : walk.graph.scopes.find? name with
  | some node =>
      have read : readVariable name origin position walk = (node, walk) := by
        simp only [readVariable, bind, StateT.bind, get, getThe, MonadStateOf.get, StateT.get, pure,
          bound]
        rfl
      rw [read]
      exact ⟨.refl walk, stands⟩
  | none =>
      have read : (readVariable name origin position walk).2 =
          (bindVariable name walk.graph.values.size
            (addNode .localVar (some origin) position .unknown walk).2).2 := by
        simp only [readVariable, bind, StateT.bind, get, getThe, MonadStateOf.get, StateT.get, pure,
          bound]
        rfl
      have added := still_addNode .localVar (some origin) position .unknown walk
      have found := (walk.graph.values.node?_addNode .localVar (some origin) position .unknown
        _).trans (if_pos rfl)
      have binds : Still (addNode .localVar (some origin) position .unknown walk).2 _ :=
        still_bindVariable bound found NodeKind.noConfusion
      rw [read]
      exact ⟨added.keeps.trans binds.keeps, (stands.of_still added).of_still binds⟩

theorem surveys_accessOf (base : Option NodeId) (node : NodeId) (field : Option String)
    (type : ValueType) {next : Walker α} (rest : Surveys facts course finish next) :
    Surveys facts course finish (do
      if let some base := base then
        addAccess base node field type
      next) := by
  cases base with
  | none => exact rest
  | some base => exact (surveys_addAccess base node field type).bind fun _ => rest

theorem surveys_sinkOf (value : Option NodeId) (target : NodeId) (kind : EdgeKind)
    (reason : EscapeReason) (position : Option Position) {next : Walker α}
    (rest : Surveys facts course finish next) :
    Surveys facts course finish (do
      if let some value := value then
        addSink value target kind reason position
      next) := by
  cases value with
  | none => exact rest
  | some value => exact (surveys_addSink value target kind reason position).bind fun _ => rest

/-! ## Steps of control -/

/-- The block that control is in may be remembered. -/
theorem surveys_currentBlock {next : BlockId → Walker β}
    (rest : ∀ block, Surveys (.block block start.reached :: facts) start finish (next block)) :
    Surveys facts start finish (currentBlock >>= next) :=
  fun walk knows stands =>
    rest walk.block walk (List.forall_mem_cons.2 ⟨stands.block, knows⟩) stands

/-- Control gets to a branch if it gets to the block that the branch begins at. -/
theorem surveys_branchFrom {source : BlockId} {reached : Bool} {next : BlockId → Walker β}
    (known : .block source reached ∈ facts)
    (rest : ∀ block,
      Surveys (.block block reached :: facts) { start with reached } finish (next block)) :
    Surveys facts start finish (branchFrom source >>= next) := by
  intro walk knows stands
  obtain ⟨sourceKnown, sourceReached⟩ := knows _ known
  obtain ⟨spares, reachedIff⟩ := spares_branch stands.coherent sourceKnown
  have inside : walk.graph.flow.size <
      (walk.graph.flow.newBlock.2.addEdge source walk.graph.flow.size).size := by
    rw [size_addEdge, size_newBlock]
    exact Nat.lt_succ_self _
  obtain ⟨keeps, stood⟩ := stands.move spares
    (fun _ => definitions_addEdge.trans definitions_newBlock)
    (stands.coherent.newBlock.addEdge source walk.graph.flow.size) inside
    (reachedIff.trans sourceReached)
  obtain ⟨keepsRest, stoodRest⟩ := rest walk.graph.flow.size _
    (List.forall_mem_cons.2 ⟨stood.block, fun fact member => keeps.knows (knows fact member)⟩) stood
  exact ⟨keeps.trans keepsRest, stoodRest⟩

/-- Control does not get to where it is moved to by a return or a throw. -/
theorem surveys_leaveControl :
    Surveys facts course { course with reached := false } leaveControl := by
  intro walk _ stands
  refine stands.move (spares_newBlock _) (fun _ => definitions_newBlock) stands.coherent.newBlock
    (Nat.lt_of_lt_of_eq (Nat.lt_succ_self _) (size_newBlock _).symm) ?_
  rw [Bool.false_eq_true, iff_false]
  exact not_reached_newBlock stands.coherent

/-- Control gets to a join if it gets to one of the blocks that are joined. -/
theorem surveys_join {thenEnd elseEnd : BlockId} {one two : Bool}
    (thenKnown : .block thenEnd one ∈ facts) (elseKnown : .block elseEnd two ∈ facts) :
    Surveys facts course { course with reached := one || two }
      (do
        let join ← newBlock
        connect thenEnd join
        connect elseEnd join
        moveTo join) := by
  intro walk knows stands
  obtain ⟨thenInside, thenReached⟩ := knows _ thenKnown
  obtain ⟨elseInside, elseReached⟩ := knows _ elseKnown
  obtain ⟨spares, reachedIff⟩ := spares_join stands.coherent thenInside elseInside
  have inside : walk.graph.flow.size < ((walk.graph.flow.newBlock.2.addEdge thenEnd
      walk.graph.flow.size).addEdge elseEnd walk.graph.flow.size).size := by
    rw [size_addEdge, size_addEdge, size_newBlock]
    exact Nat.lt_succ_self _
  rw [thenReached, elseReached, ← Bool.or_eq_true] at reachedIff
  exact stands.move spares
    (fun _ => definitions_addEdge.trans (definitions_addEdge.trans definitions_newBlock))
    ((stands.coherent.newBlock.addEdge _ _).addEdge _ _) inside reachedIff

/-- The end of a round of a loop: control goes back to the header, where it has come from, and it
gets to what comes after the loop if it gets to where the loop is left. -/
theorem surveys_roundEnd {header decision : BlockId} {back reached : Bool}
    (headerKnown : .block header back ∈ facts) (decisionKnown : .block decision reached ∈ facts)
    (comes : course.reached = true → back = true) :
    Surveys facts course { course with reached }
      (do
        connect (← currentBlock) header
        let _ ← branchFrom decision) := by
  have round : Surveys facts course course
      (currentBlock >>= fun block => connect block header) := by
    intro walk knows stands
    obtain ⟨headerInside, headerReached⟩ := knows _ headerKnown
    have spares := spares_addEdge_back stands.block.1 headerInside fun reached =>
      headerReached.2 (comes (stands.block.2.1 reached))
    exact stands.move spares (fun _ => definitions_addEdge) (stands.coherent.addEdge _ _)
      (Nat.lt_of_lt_of_le stands.block.1 spares.size_le)
      ((spares.reached_iff _ stands.block.1).trans stands.block.2)
  exact round.bind fun _ => surveys_branchFrom decisionKnown fun _ => .pure _

/-! ## Names -/

/-- A name that is defined is marked. -/
theorem surveys_defineVariable {node : NodeId} {origin : Option NodeIndex} (name : StrId)
    (known : .node node origin ∈ facts) :
    Surveys facts course (course.define origin name) (defineVariable name node) := by
  intro walk knows stands
  have kept : Keeps walk (defineVariable name node walk).2 :=
    ⟨fun _ _ => id, .of_agree ((walk.graph.flow.agree_recordDefinition walk.block name.toNat
      node).of_view (·.1))⟩
  obtain ⟨value, found, other, originEq⟩ := knows _ known
  have scopes : (defineVariable name node walk).2.graph.scopes =
      walk.graph.scopes.bind name node := rfl
  refine ⟨kept, ?_, kept.knows stands.block, ?_, ?_, ?_⟩
  · exact stands.coherent.of_agree ((walk.graph.flow.agree_recordDefinition walk.block name.toNat
      node).of_view (·.1))
  · intro bound id binds
    rw [scopes, Scopes.find?_bind] at binds
    split at binds
    next =>
      cases binds
      exact ⟨value, found⟩
    next => exact stands.bound bound id binds
  · intro bound
    have kind : (defineVariable name node walk).2.kind? node = some value.kind :=
      kind?_of_node? found
    rw [hasGlobal_of_bind scopes rfl, kind, Course.define, List.mem_filter, stands.mem_globals]
    by_cases same : name = bound
    · simp [same, other]
    · simp [same, Ne.symm same]
  · obtain ⟨placed, lists, realized⟩ := stands.marked
    have listed : (defineVariable name node walk).2.graph.flow.Lists
        (placed ++ [(walk.block, ⟨name.toNat, node, 0⟩)]) :=
      lists.recordDefinition stands.block.1 name.toNat node
    refine ⟨_, listed, ?_⟩
    refine List.rel_append (realized.imp fun _ _ realizes => realizes.last kept) ?_
    exact .cons ⟨rfl, rfl, kept.knows stands.block, ⟨value, found, other, originEq⟩⟩ .nil

/-- A name that is bound to a global variable is one that has been declared. -/
theorem stands_bindGlobal {walk : Walk} {name : StrId} {node : NodeId} {value : ValueNode}
    (stands : Stands course walk) (found : walk.graph.values.node? node = some value)
    (kind : value.kind = .globalVar) :
    Stands { course with globals := name :: course.globals }
      (modifyScopes (·.bind name node) walk).2 := by
  have scopes : (modifyScopes (·.bind name node) walk).2.graph.scopes =
      walk.graph.scopes.bind name node := rfl
  refine ⟨stands.coherent, stands.block, fun bound id binds => ?_, fun bound => ?_,
    stands.marked_last ⟨fun _ _ kept => kept, .refl _⟩ fun _ => rfl⟩
  · rw [scopes, Scopes.find?_bind] at binds
    split at binds
    next =>
      cases binds
      exact ⟨value, found⟩
    next => exact stands.bound bound id binds
  · have declared : (modifyScopes (·.bind name node) walk).2.kind? node = some value.kind :=
      kind?_of_node? found
    rw [hasGlobal_of_bind scopes rfl, declared, kind, List.mem_cons, stands.mem_globals]
    by_cases same : name = bound
    · simp [same]
    · simp [same, Ne.symm same]

theorem surveys_declareName (name : StrId) (index : NodeIndex) (position : Option Position) :
    Surveys facts course { course with globals := name :: course.globals }
      (do
        let node ← addNode .globalVar (some index) position .unknown
        modifyScopes (·.bind name node)
        return ForInStep.yield PUnit.unit) := by
  intro walk _ stands
  have added := still_addNode .globalVar (some index) position .unknown walk
  have found := (walk.graph.values.node?_addNode .globalVar (some index) position .unknown
    _).trans (if_pos rfl)
  exact ⟨added.keeps.trans ⟨fun _ _ => id, .refl _⟩,
    stands_bindGlobal (stands.of_still added) found rfl⟩

end Walker

end EscapePlan
