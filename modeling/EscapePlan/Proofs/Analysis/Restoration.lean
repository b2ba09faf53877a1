import EscapePlan.Proofs.Analysis.Completion
import EscapePlan.Proofs.Flow.SingleAssignment
import EscapePlan.Proofs.Flow.Stages

/-!
# What a visit restores

A visit ends whatever the tree is like, also if it contains itself, and it brings the walk back
where it was.  Names that are bound outside a function mean the same after it; a closure binds
the names it captures that were not bound before, and no others.

So the blocks of a region are never joined to those of another, and control does not come back
to an entry: the control flow of an analysis is separate.
-/

namespace EscapePlan

open ControlFlow (Agree Extends edgeLists)

/-- Every name of a list is bound; what was bound before is bound as before, and no other name
is bound. -/
structure Scopes.Binds (names : List StrId) (before after : Scopes) : Prop where
  find?_eq : ∀ name, (before.find? name).isSome ∨ name ∉ names →
    after.find? name = before.find? name
  isSome_find? : ∀ name ∈ names, (after.find? name).isSome

namespace Scopes.Binds

variable {names others : List StrId} {first second third : Scopes}

theorem nil (scopes : Scopes) : Binds [] scopes scopes :=
  ⟨fun _ _ => rfl, fun _ member => absurd member List.not_mem_nil⟩

theorem append (one : Binds names first second) (two : Binds others second third) :
    Binds (names ++ others) first third where
  find?_eq name bound := by
    have same : second.find? name = first.find? name :=
      one.find?_eq name (bound.imp_right fun absent member =>
        absent (List.mem_append_left _ member))
    rw [← same] at bound ⊢
    exact two.find?_eq name (bound.imp_right fun absent member =>
      absent (List.mem_append_right _ member))
  isSome_find? name member := by
    rcases List.mem_append.1 member with early | late
    · have bound := one.isSome_find? name early
      rw [two.find?_eq name (.inl bound)]
      exact bound
    · exact two.isSome_find? name late

end Scopes.Binds

namespace Walker

open Walk

variable {α β γ : Type}

/-! ## Names that are bound -/

/-- An action binds no name. -/
def BindsNothing (action : Walker α) : Prop :=
  ∀ walk, (action walk).2.graph.scopes = walk.graph.scopes

theorem BindsNothing.pure (value : α) : BindsNothing (pure value) :=
  fun _ => rfl

theorem BindsNothing.bind {action : Walker α} {next : α → Walker β} (first : BindsNothing action)
    (rest : ∀ value, BindsNothing (next value)) : BindsNothing (action >>= next) :=
  fun walk => (rest _ _).trans (first walk)

theorem Neutral.bindsNothing {action : Walker α} (neutral : Neutral action) :
    BindsNothing action :=
  fun walk => (neutral walk).scopes_eq

theorem bindsNothing_addNode (kind : NodeKind) (origin : Option NodeIndex)
    (position : Option Position) (type : ValueType) :
    BindsNothing (addNode kind origin position type) :=
  fun _ => rfl

theorem bindsNothing_addSink (value target : NodeId) (kind : EdgeKind) (reason : EscapeReason)
    (position : Option Position) : BindsNothing (addSink value target kind reason position) :=
  (neutral_addUse value target).bindsNothing.bind fun _ _ => rfl

theorem bindsNothing_addAllocation (config : Config) (origin : NodeIndex)
    (position : Option Position) (objectType : ObjectType) (className : Option String)
    (count : Nat) :
    BindsNothing (addAllocation config origin position objectType className count) := by
  intro walk
  rw [addAllocation_eq]
  rfl

theorem bindsNothing_forIn {items : List γ} {body : γ → PUnit → Walker (ForInStep PUnit)}
    (each : ∀ item, BindsNothing (body item .unit)) :
    BindsNothing (forIn items PUnit.unit body) := by
  induction items with
  | nil => exact .pure _
  | cons item rest inductionHypothesis =>
      rw [List.forIn_cons]
      refine (each item).bind fun step => ?_
      cases step with
      | done => exact .pure _
      | yield => exact inductionHypothesis

theorem binds_readVariable (name : StrId) (origin : NodeIndex) (position : Option Position)
    (walk : Walk) :
    Scopes.Binds [name] walk.graph.scopes
      (readVariable name origin position walk).2.graph.scopes := by
  cases found : walk.graph.scopes.find? name with
  | some node =>
      have read : readVariable name origin position walk = (node, walk) := by
        simp only [readVariable, bind, StateT.bind, get, getThe, MonadStateOf.get, StateT.get, pure,
          found]
        rfl
      rw [read]
      refine ⟨fun _ _ => rfl, fun other member => ?_⟩
      rw [List.mem_singleton.1 member, found]
      rfl
  | none =>
      have scopes : (readVariable name origin position walk).2.graph.scopes =
          walk.graph.scopes.bind name walk.graph.values.size := by
        simp only [readVariable, bind, StateT.bind, get, getThe, MonadStateOf.get, StateT.get, pure,
          found]
        rfl
      rw [scopes]
      constructor
      · intro other bound
        rw [Scopes.find?_bind, if_neg]
        rintro rfl
        rcases bound with known | absent
        · rw [found] at known
          contradiction
        · exact absent List.mem_cons_self
      · intro other member
        rw [List.mem_singleton.1 member, Scopes.find?_bind, if_pos rfl]
        rfl

theorem binds_captureName (index : NodeIndex) (position : Option Position) (name : StrId)
    (walk : Walk) :
    Scopes.Binds [name] walk.graph.scopes
      (captureName index position name walk).2.graph.scopes := by
  have rest (captured : NodeId) : BindsNothing (do
      let capture ← addNode .closureCapture (some index) position .unknown
      addSink captured capture .defUse .capturedByClosure position
      return (name, capture, captured)) :=
    (bindsNothing_addNode _ _ _ _).bind fun _ => (bindsNothing_addSink _ _ _ _ _).bind fun _ =>
      .pure _
  have scopes : (captureName index position name walk).2.graph.scopes =
      (readVariable name index position walk).2.graph.scopes := rest _ _
  rw [scopes]
  exact binds_readVariable name index position walk

theorem binds_captureNames (index : NodeIndex) (position : Option Position) (names : List StrId)
    (walk : Walk) :
    Scopes.Binds names walk.graph.scopes
      (names.mapM (captureName index position) walk).2.graph.scopes := by
  induction names generalizing walk with
  | nil => exact .nil _
  | cons name names inductionHypothesis =>
      rw [List.mapM_cons]
      exact (binds_captureName index position name walk).append (inductionHypothesis _)

theorem bindsNothing_allocateClosure (config : Config) (index : NodeIndex) (captures : List StrId)
    (position : Option Position) (bound : List (StrId × NodeId × NodeId)) :
    BindsNothing (allocateClosure config index captures position bound) := by
  refine (bindsNothing_addAllocation _ _ _ _ _ _).bind fun closure => ?_
  refine (bindsNothing_forIn fun _ => ?_).bind fun _ => .pure _
  exact BindsNothing.bind (fun _ => rfl) fun _ => .pure _

/-- A closure binds the names that it captures, in the scope that it is in. -/
theorem binds_visitClosure {depth : Nat} {visit twin : Visit} (returns : VisitsReturn depth visit twin)
    (config : Config) (index : NodeIndex) (params captures : List StrId) (body : NodeIndex)
    (position : Option Position) (walk : Walk) :
    Scopes.Binds captures walk.graph.scopes
      (visitClosure config twin index params captures body position walk).2.graph.scopes := by
  have rest (bound : List (StrId × NodeId × NodeId)) : BindsNothing (do
      let closure ← allocateClosure config index captures position bound
      visitBody twin params bound body position
      return closure) := by
    refine (bindsNothing_allocateClosure _ _ _ _ bound).bind fun closure => ?_
    exact BindsNothing.bind (scopes_visitBody returns params bound body position) fun _ => .pure _
  have scopes : (visitClosure config twin index params captures body position walk).2.graph.scopes =
      (captures.mapM (captureName index position) walk).2.graph.scopes := rest _ _
  rw [scopes]
  exact binds_captureNames index position captures walk

/-- Nothing is bound below the deepest level. -/
theorem bindsNothing_visit_zero (config : Config) (tree : Tree) (index : NodeIndex) :
    BindsNothing (visit config tree 0 index) := by
  refine neutral_skip.bindsNothing.bind fun _ => ?_
  split
  next => exact BindsNothing.bind (fun _ => rfl) fun _ => .pure _
  next => exact .pure _

/-- A function binds no name in the scope that it is declared in. -/
theorem bindsNothing_visit_function (config : Config) {tree : Tree} {index : NodeIndex}
    {name : StrId} {params : List StrId} {body : NodeIndex}
    (declares : tree.data? index = some (.functionDecl name params body)) (levels : Nat) :
    BindsNothing (visit config tree levels index) := by
  cases levels with
  | zero => exact bindsNothing_visit_zero config tree index
  | succ levels =>
      rcases Option.map_eq_some_iff.1 declares with ⟨⟨data, position⟩, found, rfl⟩
      intro walk
      rw [visit, found]
      exact scopes_visitBody (returns_visit config tree levels) params [] body position walk

theorem binds_visit_closure (config : Config) {tree : Tree} {index : NodeIndex}
    {params captures : List StrId} {body : NodeIndex}
    (closes : tree.data? index = some (.closure params captures body)) (levels : Nat)
    (walk : Walk) :
    Scopes.Binds captures walk.graph.scopes
      (visit config tree (levels + 1) index walk).2.graph.scopes := by
  rcases Option.map_eq_some_iff.1 closes with ⟨⟨data, position⟩, found, rfl⟩
  rw [visit, found]
  exact binds_visitClosure (returns_visit config tree levels) config index params captures body
    position walk

end Walker

namespace Walk

open Walker (visit visitNested)

/-- A walk is back where it was before a node was visited: as deep, in the same scope inside the
same scopes, with the same names bound, and in the same region. -/
structure Restored (tree : Tree) (index : NodeIndex) (before after : Walk) : Prop extends
    Resumes before after where
  function : ∀ name params body, tree.data? index = some (.functionDecl name params body) →
    after.graph.scopes = before.graph.scopes
  closure : ∀ params captures body, tree.data? index = some (.closure params captures body) →
    ∀ name, (before.graph.scopes.find? name).isSome ∨ name ∉ captures →
      after.graph.scopes.find? name = before.graph.scopes.find? name
  captured : ∀ params captures body, tree.data? index = some (.closure params captures body) →
    before.depth < depthLimit → ∀ name ∈ captures, (after.graph.scopes.find? name).isSome
  region : ∀ region, before.graph.flow.Regions region → before.block < before.graph.flow.size →
    ∃ later, after.graph.flow.Regions later ∧
      Extends before.graph.flow region after.graph.flow later ∧
      after.block < after.graph.flow.size ∧ later after.block = region before.block

theorem restored_visit (config : Config) (tree : Tree) (index : NodeIndex) (walk : Walk) :
    Restored tree index walk (visit config tree (depthLimit - walk.depth) index walk).2 := by
  have returns := Walker.returns_visit config tree (depthLimit - walk.depth)
  have dwells {region : BlockId → BlockId} (regions : walk.graph.flow.Regions region)
      (inside : walk.block < walk.graph.flow.size) :
      Dwells (region walk.block) [] [] region walk := by
    refine ⟨regions, ?_, ?_, fun _ member => absurd member List.not_mem_nil,
      fun _ member => absurd member List.not_mem_nil⟩
    · exact List.forall_mem_singleton.2 inside
    · exact List.forall_mem_singleton.2 rfl
  refine ⟨(returns 0 [] [] index).resumes walk, ?_, ?_, ?_, ?_⟩
  · intro name params body declares
    exact Walker.bindsNothing_visit_function config declares _ walk
  · intro params captures body closes name bound
    cases depthLimit - walk.depth with
    | zero => rw [Walker.bindsNothing_visit_zero]
    | succ levels =>
        exact (Walker.binds_visit_closure config closes levels walk).find?_eq name bound
  · intro params captures body closes above name member
    rcases Nat.exists_eq_add_one_of_ne_zero (Nat.sub_ne_zero_of_lt above) with ⟨levels, left⟩
    rw [left]
    exact (Walker.binds_visit_closure config closes levels walk).isSome_find? name member
  · intro region regions inside
    rcases (returns _ [] [] index).stays region walk (dwells regions inside) with
      ⟨later, extends_, dwellsLater⟩
    exact ⟨later, dwellsLater.regions, extends_, dwellsLater.block_lt _ List.mem_cons_self,
      dwellsLater.region_eq _ List.mem_cons_self⟩

/-- The control flow that a walk over a tree builds has regions. -/
theorem exists_regions_ofTree (config : Config) (tree : Tree) (limit : Nat) :
    ∃ region, (ofTree config tree limit).graph.flow.Regions region := by
  have first : Dwells 0 [] [] id initial := by
    refine ⟨ControlFlow.regions_first, ?_, ?_, fun _ member => absurd member List.not_mem_nil,
      fun _ member => absurd member List.not_mem_nil⟩
    · exact List.forall_mem_singleton.2 Nat.one_pos
    · exact List.forall_mem_singleton.2 rfl
  rcases (Walker.returns_visit config tree limit 0 [] [] tree.root).stays id initial first with
    ⟨later, -, dwells⟩
  rw [ofTree_eq]
  exact ⟨later, dwells.regions⟩

end Walk

/-! ## The finished graph -/

theorem Walk.Sound.flow_settle {walk : Walk} (sound : walk.Sound) :
    walk.settle.graph.flow = walk.graph.flow :=
  sound.settles.flow_eq

theorem Analysis.flow_ofWalk (config : Config) (walk : Walk) :
    (ofWalk config walk).graph.flow = walk.graph.convertToSsa.flow := by
  rw [ofWalk]

/-- The control flow of an analysis has the edges that the walk has made. -/
theorem Analysis.agree_ofTree (config : Config) (tree : Tree) :
    Agree edgeLists (Walk.ofTree config tree depthLimit).graph.flow
      (ofTree config tree).graph.flow := by
  rw [ofTree, flow_ofWalk, ← (Walk.ofTree_accounts config tree depthLimit).sound.flow_settle]
  exact DataFlowGraph.agree_convertToSsa _

open Walker (visit) in
/-- Every visit ends, whatever would be done once calls are exhausted, and brings the walk back;
so the blocks of an analysis are in regions that are not joined. -/
theorem Analysis.restores_ofTree (config : Config) (tree : Tree) :
    (∀ index walk, walk.depth ≤ depthLimit → ∃ value after,
      (∀ exhausted calls, depthLimit - walk.depth < calls →
        Walker.visitNested config tree depthLimit exhausted calls index walk = (value, after)) ∧
      walk.Restored tree index after) ∧
    (∃ region, (ofTree config tree).graph.flow.Regions region) ∧
      (ofTree config tree).graph.flow.Separate := by
  have regions : ∃ region, (ofTree config tree).graph.flow.Regions region :=
    (Walk.exists_regions_ofTree config tree depthLimit).imp fun _ regions =>
      regions.of_agree (agree_ofTree config tree)
  refine ⟨fun index walk bounded => ?_, regions, ?_⟩
  · refine ⟨(visit config tree (depthLimit - walk.depth) index walk).1, _, ?_,
      Walk.restored_visit config tree index walk⟩
    exact fun exhausted calls enough =>
      Walker.visitNested_eq config tree exhausted bounded enough index
  · exact regions.elim fun _ regions => regions.separate

/-- A closure whose body is the closure itself. -/
def selfContained : Tree where
  root := ⟨0⟩
  strings := .empty
  nodes := #[⟨.closure [] [⟨0⟩] ⟨0⟩, none⟩]

theorem Analysis.restores_ofTree_selfContained :
    Walk.initial.depth ≤ depthLimit ∧
      (∃ value after,
        Walker.visitNested {} selfContained depthLimit (fun _ => return none) 513 ⟨0⟩ .initial =
          (value, after) ∧
        after.depth = 0 ∧ after.scope = 0 ∧ after.graph.scopes.saved = [] ∧
        (after.graph.scopes.find? ⟨0⟩).isSome ∧ after.block < after.graph.flow.size) ∧
      (ofTree {} selfContained).graph.flow.Separate := by
  rcases restores_ofTree {} selfContained with ⟨visits, -, separate⟩
  rcases visits ⟨0⟩ .initial (Nat.zero_le depthLimit) with ⟨value, after, ends, restored⟩
  have captured := restored.captured [] [⟨0⟩] ⟨0⟩ rfl (by decide) ⟨0⟩ List.mem_cons_self
  rcases restored.region id ControlFlow.regions_first Nat.one_pos with ⟨later, -, -, inside, -⟩
  exact ⟨Nat.zero_le depthLimit, ⟨value, after, ends _ 513 (by decide), restored.depth_eq,
    restored.scope_eq, restored.saved_eq, captured, inside⟩, separate⟩

end EscapePlan
