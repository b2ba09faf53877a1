import EscapePlan.Proofs.Analysis.Depth
import EscapePlan.Proofs.Analysis.Names
import Mathlib.Logic.Equiv.Basic

/-!
# Other numbers for names

Ids stand for names, and any other ids would do: `Walk.relabel` is a walk with other ids for its
names.  An action that is taken with other ids `Walker.Follows` the one that it stands for: it does
the same to the walk, with other ids.
-/

namespace EscapePlan

/-! ## Names and variables -/

namespace StrId

/-- Ids are the numbers of thirty-two bits. -/
def equivNat : StrId ≃ {number : Nat // number < UInt32.size} where
  toFun id := ⟨id.toNat, id.val.toNat_lt⟩
  invFun number := ofNat number
  left_inv id := by simp [ofNat, toNat]
  right_inv number := by simp [ofNat, toNat, Nat.mod_eq_of_lt number.2]

/-- Variables are numbered by their names. -/
def varIds (names : Equiv.Perm StrId) : Equiv.Perm VarId :=
  names.extendDomain equivNat

theorem varIds_toNat (names : Equiv.Perm StrId) (id : StrId) :
    varIds names id.toNat = (names id).toNat :=
  names.extendDomain_apply_image equivNat id

end StrId

theorem VarKey.rename_injective (names : Equiv.Perm StrId) :
    Function.Injective (rename names) := by
  rintro ⟨scope, name⟩ ⟨_, other⟩ same
  obtain ⟨rfl, nameEq⟩ := VarKey.mk.inj same
  obtain rfl : name = other := names.injective nameEq
  rfl

theorem Scopes.find?_rename_perm (names : Equiv.Perm StrId) (scopes : Scopes) (name : StrId) :
    (scopes.rename names).find? (names name) = scopes.find? name :=
  find?_rename fun _ _ same => names.injective same

/-! ## Control flow -/

/-- A definition of another variable. -/
def Definition.relabel (vars : Equiv.Perm VarId) (definition : Definition) : Definition :=
  { definition with var := vars definition.var }

/-- A block that defines other variables; what a walk does not put into a block is left out. -/
def Block.relabel (vars : Equiv.Perm VarId) (block : Block) : Block :=
  { Block.empty with
    predecessors := block.predecessors
    successors := block.successors
    definitions := block.definitions.map (Definition.relabel vars) }

namespace ControlFlow

/-- Control flow that defines other variables, without phis and versions. -/
def relabel (vars : Equiv.Perm VarId) (flow : ControlFlow) : ControlFlow :=
  { ControlFlow.empty with
    blocks := flow.blocks.map (Block.relabel vars)
    entries := flow.entries }

variable (vars : Equiv.Perm VarId) (flow : ControlFlow)

@[simp] theorem size_relabel : (flow.relabel vars).size = flow.size :=
  Array.size_map

theorem block?_relabel (block : BlockId) :
    (flow.relabel vars).block? block = (flow.block? block).map (Block.relabel vars) :=
  Array.getElem?_map

@[simp] theorem successors_relabel : (flow.relabel vars).successors = flow.successors := by
  funext block
  rw [successors, successors, block?_relabel, Option.map_map]
  rfl

/-- A change of blocks that does not depend on which variables they define. -/
theorem modifyBlock_relabel {change changeTwin : Block → Block}
    (same : ∀ block, changeTwin (block.relabel vars) = (change block).relabel vars)
    (block : BlockId) :
    (flow.relabel vars).modifyBlock block changeTwin = (flow.modifyBlock block change).relabel vars := by
  unfold modifyBlock relabel
  congr 1
  apply Array.ext_getElem?
  intro place
  simp only [Array.getElem?_modify, Array.getElem?_map]
  split
  next =>
    rw [Option.map_map, Option.map_map]
    congr 1
    funext found
    exact same found
  next => rfl

theorem newBlock_relabel : (flow.relabel vars).newBlock =
    (flow.newBlock.1, flow.newBlock.2.relabel vars) := by
  rw [newBlock, newBlock, size_relabel]
  simp only [relabel, Array.map_push]
  rfl

theorem newRegion_relabel : (flow.relabel vars).newRegion =
    (flow.newRegion.1, flow.newRegion.2.relabel vars) := by
  rw [newRegion, newRegion, newBlock_relabel]
  rfl

theorem addEdge_relabel (source target : BlockId) :
    (flow.relabel vars).addEdge source target = (flow.addEdge source target).relabel vars := by
  rw [addEdge, addEdge, size_relabel, successors_relabel]
  split
  next =>
    refine (congrArg (modifyBlock · target _) (modifyBlock_relabel vars flow ?_ source)).trans
      (modifyBlock_relabel vars _ ?_ target)
    · exact fun _ => rfl
    · exact fun _ => rfl
  next => rfl

theorem recordDefinition_relabel (block : BlockId) (var : VarId) (node : NodeId) :
    (flow.relabel vars).recordDefinition block (vars var) node =
      (flow.recordDefinition block var node).relabel vars := by
  rw [recordDefinition, recordDefinition]
  apply modifyBlock_relabel
  intro found
  simp [Block.relabel, Definition.relabel]

end ControlFlow

/-! ## Walks -/

/-- A walk over other ids. -/
def Walk.relabel (names : Equiv.Perm StrId) (walk : Walk) : Walk :=
  { walk with
    graph := { walk.graph with
      scopes := walk.graph.scopes.rename names
      flow := walk.graph.flow.relabel (StrId.varIds names) }
    mentions := walk.mentions.map fun mention => (mention.1, mention.2.rename names)
    flows := walk.flows.map fun flow => (flow.1.rename names, flow.2) }

theorem Walk.values_relabel (names : Equiv.Perm StrId) (walk : Walk) :
    (walk.relabel names).graph.values = walk.graph.values := rfl

theorem Walk.flow_relabel (names : Equiv.Perm StrId) (walk : Walk) :
    (walk.relabel names).graph.flow = walk.graph.flow.relabel (StrId.varIds names) := rfl

namespace Walker

/-- An action does to walks over other ids what an action does, and answers what corresponds to its
answer. -/
def Follows {α β : Type} (names : Equiv.Perm StrId) (corresponds : α → β) (action : Walker α)
    (twin : Walker β) : Prop :=
  ∀ walk : Walk, twin.run (walk.relabel names) =
    Prod.map corresponds (Walk.relabel names) (action.run walk)

variable {α β γ δ : Type} {names : Equiv.Perm StrId}

namespace Follows

theorem pure {corresponds : α → β} {value : α} {other : β} (same : other = corresponds value) :
    Follows names corresponds (Pure.pure value : Walker α) (Pure.pure other) := by
  intro walk
  rw [same]
  rfl

theorem bind {corresponds : α → β} {correspondsNext : γ → δ} {action : Walker α} {twin : Walker β}
    (follows : Follows names corresponds action twin) {next : α → Walker γ} {nextTwin : β → Walker δ}
    (rest : ∀ value, Follows names correspondsNext (next value) (nextTwin (corresponds value))) :
    Follows names correspondsNext (action >>= next) (twin >>= nextTwin) := by
  intro walk
  rw [StateT.run_bind, StateT.run_bind]
  have first := follows walk
  rcases equal : action.run walk with ⟨value, later⟩
  rw [equal] at first
  rw [first]
  exact rest value later

theorem map {corresponds : α → β} {correspondsNext : γ → δ} {action : Walker α} {twin : Walker β}
    {change : α → γ} {changeTwin : β → δ} (follows : Follows names corresponds action twin)
    (same : ∀ value, changeTwin (corresponds value) = correspondsNext (change value)) :
    Follows names correspondsNext (change <$> action) (changeTwin <$> twin) := by
  rw [map_eq_pure_bind, map_eq_pure_bind]
  exact follows.bind fun value => .pure (same value)

/-- What is done may depend on where the walk is. -/
theorem get {corresponds : α → β} {next : Walk → Walker α} {nextTwin : Walk → Walker β}
    (rest : ∀ walk, Follows names corresponds (next walk) (nextTwin (walk.relabel names))) :
    Follows names corresponds (MonadState.get >>= next) (MonadState.get >>= nextTwin) :=
  fun walk => rest walk walk

theorem update {change changeTwin : Walk → Walk}
    (same : ∀ walk, changeTwin (walk.relabel names) = (change walk).relabel names) :
    Follows names id (modify change : Walker PUnit) (modify changeTwin) :=
  fun walk => Prod.ext rfl (same walk)

/-- Loops over items that correspond. -/
theorem forIn {items : List γ} {turn : γ → δ} {body : γ → PUnit → Walker (ForInStep PUnit)}
    {bodyTwin : δ → PUnit → Walker (ForInStep PUnit)}
    (each : ∀ item ∈ items, Follows names id (body item ⟨⟩) (bodyTwin (turn item) ⟨⟩)) :
    Follows names id (ForIn.forIn items PUnit.unit body)
      (ForIn.forIn (items.map turn) PUnit.unit bodyTwin) := by
  induction items with
  | nil => exact .pure rfl
  | cons item items inductionHypothesis =>
      rw [List.map_cons, List.forIn_cons, List.forIn_cons]
      rcases List.forall_mem_cons.1 each with ⟨first, later⟩
      refine first.bind fun step => ?_
      cases step with
      | done => exact .pure rfl
      | yield => exact inductionHypothesis later

/-- Loops over the same items. -/
theorem forIn_same {items : List γ} {body bodyTwin : γ → PUnit → Walker (ForInStep PUnit)}
    (each : ∀ item ∈ items, Follows names id (body item ⟨⟩) (bodyTwin item ⟨⟩)) :
    Follows names id (ForIn.forIn items PUnit.unit body) (ForIn.forIn items PUnit.unit bodyTwin) := by
  have follows := @forIn γ γ names items id body bodyTwin each
  rwa [List.map_id] at follows

theorem mapM {corresponds : α → β} {items : List γ} {turn : γ → δ} {action : γ → Walker α}
    {twin : δ → Walker β}
    (each : ∀ item ∈ items, Follows names corresponds (action item) (twin (turn item))) :
    Follows names (List.map corresponds) (items.mapM action) ((items.map turn).mapM twin) := by
  induction items with
  | nil => exact .pure rfl
  | cons item items inductionHypothesis =>
      rw [List.map_cons, List.mapM_cons, List.mapM_cons]
      rcases List.forall_mem_cons.1 each with ⟨first, later⟩
      exact first.bind fun _ => (inductionHypothesis later).bind fun _ => .pure rfl

end Follows

/-! ## Steps of a walk -/

theorem follows_addNode (kind : NodeKind) (origin : Option NodeIndex) (position : Option Position)
    (type : ValueType) :
    Follows names id (addNode kind origin position type) (addNode kind origin position type) :=
  fun _ => rfl

theorem follows_addEdge (source target : NodeId) (kind : EdgeKind) :
    Follows names id (addEdge source target kind) (addEdge source target kind) :=
  fun _ => rfl

theorem follows_newBlock : Follows names id newBlock newBlock := by
  intro walk
  simp only [newBlock, StateT.run, modifyGet, MonadStateOf.modifyGet, StateT.modifyGet, pure,
    Walk.relabel, ControlFlow.newBlock_relabel]
  rfl

theorem follows_newRegion : Follows names id newRegion newRegion := by
  intro walk
  simp only [newRegion, StateT.run, modifyGet, MonadStateOf.modifyGet, StateT.modifyGet, pure,
    Walk.relabel, ControlFlow.newRegion_relabel]
  rfl

theorem follows_modifyFlow {change changeTwin : ControlFlow → ControlFlow}
    (same : ∀ flow, changeTwin (flow.relabel (StrId.varIds names)) =
      (change flow).relabel (StrId.varIds names)) :
    Follows names id (modifyFlow change) (modifyFlow changeTwin) := by
  refine .update fun walk => ?_
  simp only [Walk.relabel, same]

theorem follows_modifyScopes {change changeTwin : Scopes → Scopes}
    (same : ∀ scopes, changeTwin (scopes.rename names) = (change scopes).rename names) :
    Follows names id (modifyScopes change) (modifyScopes changeTwin) := by
  refine .update fun walk => ?_
  simp only [Walk.relabel, same]

theorem follows_connect (source target : BlockId) :
    Follows names id (connect source target) (connect source target) :=
  follows_modifyFlow fun flow => flow.addEdge_relabel _ source target

theorem follows_currentBlock : Follows names id currentBlock currentBlock :=
  .get fun _ => .pure rfl

theorem follows_moveTo (block : BlockId) : Follows names id (moveTo block) (moveTo block) :=
  .update fun _ => rfl

theorem follows_branchFrom (source : BlockId) :
    Follows names id (branchFrom source) (branchFrom source) :=
  follows_newBlock.bind fun block => (follows_connect source block).bind fun _ =>
    (follows_moveTo block).bind fun _ => .pure rfl

theorem follows_leaveControl : Follows names id leaveControl leaveControl :=
  follows_newBlock.bind fun block => follows_moveTo block

theorem follows_skip : Follows names id skip skip :=
  .update fun _ => rfl

theorem follows_truncate : Follows names id truncate truncate :=
  .update fun _ => rfl

theorem follows_bind (name : StrId) (node : NodeId) :
    Follows names id (modifyScopes (·.bind name node))
      (modifyScopes (·.bind (names name) node)) :=
  follows_modifyScopes fun scopes => scopes.bind_rename names name node

theorem follows_bindVariable (name : StrId) (node : NodeId) :
    Follows names (VarKey.rename names) (bindVariable name node)
      (bindVariable (names name) node) := by
  refine .get fun walk => ?_
  refine (Follows.update fun later => ?_).bind fun _ =>
    (follows_bind name node).bind fun _ => .pure rfl
  simp only [Walk.relabel, Array.map_push]
  rfl

theorem follows_defineVariable (name : StrId) (node : NodeId) :
    Follows names (VarKey.rename names) (defineVariable name node)
      (defineVariable (names name) node) := by
  refine (follows_bindVariable name node).bind fun key => follows_currentBlock.bind fun block =>
    (follows_modifyFlow fun flow => ?_).bind fun _ => .pure rfl
  rw [← StrId.varIds_toNat]
  exact flow.recordDefinition_relabel _ block name.toNat node

theorem follows_readVariable (name : StrId) (origin : NodeIndex) (position : Option Position) :
    Follows names id (readVariable name origin position)
      (readVariable (names name) origin position) := by
  refine .get fun walk => ?_
  have found : (walk.relabel names).graph.scopes.find? (names name) =
      walk.graph.scopes.find? name := walk.graph.scopes.find?_rename_perm names name
  rw [found]
  cases walk.graph.scopes.find? name with
  | some node => exact .pure rfl
  | none =>
      exact (follows_addNode .localVar (some origin) position .unknown).bind fun node =>
        (follows_bindVariable name node).bind fun _ => .pure rfl

theorem follows_addFlow (key : VarKey) (value : NodeId) :
    Follows names id (addFlow key value) (addFlow (key.rename names) value) := by
  refine .update fun walk => ?_
  simp only [Walk.relabel, Array.map_push]

theorem follows_addUse (value target : NodeId) :
    Follows names id (addUse value target) (addUse value target) := by
  refine .get fun walk => ?_
  show Follows names id (if walk.kind? value ≠ some .allocation then addEdge value target .defUse
    else pure ()) (if walk.kind? value ≠ some .allocation then addEdge value target .defUse
    else pure ())
  split
  next => exact follows_addEdge value target .defUse
  next => exact .pure rfl

theorem follows_addSink (value target : NodeId) (kind : EdgeKind) (reason : EscapeReason)
    (position : Option Position) :
    Follows names id (addSink value target kind reason position)
      (addSink value target kind reason position) :=
  (follows_addUse value target).bind fun _ => .update fun _ => rfl

theorem follows_addAccess (base node : NodeId) (field : Option String) (type : ValueType) :
    Follows names id (addAccess base node field type) (addAccess base node field type) :=
  (follows_addUse base node).bind fun _ => .update fun _ => rfl

theorem follows_passToUnknown (value : NodeId) (origin : Option NodeIndex)
    (position : Option Position) :
    Follows names id (passToUnknown value origin position) (passToUnknown value origin position) :=
  (follows_addNode .callArg origin position .unknown).bind fun arg =>
    follows_addSink value arg .defUse .passedToUnknown position

theorem follows_addAllocation (config : Config) (origin : NodeIndex) (position : Option Position)
    (objectType : ObjectType) (className : Option String) (count : Nat) :
    Follows names id (addAllocation config origin position objectType className count)
      (addAllocation config origin position objectType className count) := by
  refine (follows_addNode .allocation (some origin) position (allocatedType objectType)).bind ?_
  intro node
  cases sizeOfCount count with
  | none => exact fun _ => rfl
  | some size => exact fun _ => rfl

end Walker

end EscapePlan
