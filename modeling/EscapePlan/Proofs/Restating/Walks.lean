import EscapePlan.Proofs.Analysis.Context
import Mathlib.Algebra.Order.Ring.Nat

/-!
# Walks that have skipped more

How many tree nodes have been skipped is counted, and nothing depends on the count.  An action
`Walker.SkipsMore` than another one if it does the same to walks that have skipped any number of
nodes more, and skips some nodes more itself; an action that skips none more than itself takes no
notice of the count.
-/

namespace EscapePlan

/-- The walk as it would be if so many more tree nodes had been skipped. -/
def Walk.skipMore (walk : Walk) (more : Nat) : Walk :=
  { walk with skipped := walk.skipped + more }

namespace Walker

variable {α β γ : Type} {more rest : Nat}

/-- The second action does what the first one does, and skips so many more tree nodes. -/
def SkipsMore (more : Nat) (action twin : Walker α) : Prop :=
  ∀ (walk : Walk) (ahead : Nat), twin (walk.skipMore ahead) =
    ((action walk).1, (action walk).2.skipMore (ahead + more))

/-- An action takes no notice of how many tree nodes have been skipped. -/
abbrev TakesNoNotice (action : Walker α) : Prop :=
  SkipsMore 0 action action

namespace SkipsMore

theorem cast {fewer : Nat} {action twin : Walker α} (skips : SkipsMore fewer action twin)
    (equal : fewer = more) : SkipsMore more action twin :=
  equal ▸ skips

theorem pure (value : α) : TakesNoNotice (pure value) :=
  fun _ _ => rfl

theorem bind {action twin : Walker α} {next nextTwin : α → Walker β}
    (first : SkipsMore more action twin)
    (later : ∀ value, SkipsMore rest (next value) (nextTwin value)) :
    SkipsMore (more + rest) (action >>= next) (twin >>= nextTwin) := by
  intro walk ahead
  show nextTwin (twin (walk.skipMore ahead)).1 (twin (walk.skipMore ahead)).2 = _
  rw [first walk ahead, ← Nat.add_assoc]
  exact later (action walk).1 (action walk).2 (ahead + more)

/-- What comes first takes no notice. -/
theorem after {action : Walker α} {next nextTwin : α → Walker β} (first : TakesNoNotice action)
    (later : ∀ value, SkipsMore more (next value) (nextTwin value)) :
    SkipsMore more (action >>= next) (action >>= nextTwin) :=
  (first.bind later).cast (Nat.zero_add more)

/-- What comes later takes no notice. -/
theorem before {action twin : Walker α} {next nextTwin : α → Walker β}
    (first : SkipsMore more action twin)
    (later : ∀ value, SkipsMore 0 (next value) (nextTwin value)) :
    SkipsMore more (action >>= next) (twin >>= nextTwin) :=
  first.bind later

theorem map {action twin : Walker α} (change : α → β) (skips : SkipsMore more action twin) :
    SkipsMore more (change <$> action) (change <$> twin) :=
  skips.before fun value => pure (change value)

/-- What is done may depend on where the walk is, but not on the count. -/
theorem get {next nextTwin : Walk → Walker β}
    (blind : ∀ walk ahead, nextTwin (walk.skipMore ahead) = nextTwin walk)
    (later : ∀ walk, SkipsMore more (next walk) (nextTwin walk)) :
    SkipsMore more (MonadState.get >>= next) (MonadState.get >>= nextTwin) := by
  intro walk ahead
  show nextTwin (walk.skipMore ahead) (walk.skipMore ahead) = _
  rw [blind]
  exact later walk walk ahead

/-- A loop skips more in every round. -/
theorem forIn {items : List γ} {count : γ → Nat} {action twin : γ → Walker α}
    (each : ∀ item ∈ items, SkipsMore (count item) (action item) (twin item)) :
    SkipsMore (items.map count).sum
      (ForIn.forIn items PUnit.unit fun item _ => do
        let _ ← action item
        return .yield PUnit.unit)
      (ForIn.forIn items PUnit.unit fun item _ => do
        let _ ← twin item
        return .yield PUnit.unit) := by
  induction items with
  | nil => exact pure _
  | cons item items inductionHypothesis =>
      rw [List.forIn_cons, List.forIn_cons, List.map_cons, List.sum_cons, bind_assoc, bind_assoc]
      rcases List.forall_mem_cons.1 each with ⟨first, later⟩
      exact first.bind fun _ => inductionHypothesis later

theorem mapM {items : List γ} {count : γ → Nat} {action twin : γ → Walker α}
    (each : ∀ item ∈ items, SkipsMore (count item) (action item) (twin item)) :
    SkipsMore (items.map count).sum (items.mapM action) (items.mapM twin) := by
  induction items with
  | nil => exact pure _
  | cons item items inductionHypothesis =>
      rw [List.mapM_cons, List.mapM_cons, List.map_cons, List.sum_cons]
      rcases List.forall_mem_cons.1 each with ⟨first, later⟩
      exact first.bind fun _ => (inductionHypothesis later).before fun _ => pure _

end SkipsMore

namespace TakesNoNotice

theorem update {change : Walk → Walk}
    (same : ∀ walk more, change (walk.skipMore more) = (change walk).skipMore more) :
    TakesNoNotice (modify change : Walker PUnit) :=
  fun walk more => Prod.ext rfl (same walk more)

/-- A loop takes no notice if no round does. -/
theorem forIn {items : List γ} {body : γ → PUnit → Walker (ForInStep PUnit)}
    (each : ∀ item, TakesNoNotice (body item ⟨⟩)) :
    TakesNoNotice (ForIn.forIn items PUnit.unit body) := by
  induction items with
  | nil => exact .pure _
  | cons item items inductionHypothesis =>
      rw [TakesNoNotice, List.forIn_cons]
      refine (each item).after fun step => ?_
      cases step with
      | done => exact .pure _
      | yield => exact inductionHypothesis

theorem mapM {items : List γ} {action : γ → Walker α} (each : ∀ item, TakesNoNotice (action item)) :
    TakesNoNotice (items.mapM action) :=
  (SkipsMore.mapM fun item _ => each item).cast (by simp)

end TakesNoNotice

/-! ## Steps of a walk -/

theorem takesNoNotice_addNode (kind : NodeKind) (origin : Option NodeIndex)
    (position : Option Position) (type : ValueType) :
    TakesNoNotice (addNode kind origin position type) :=
  fun _ _ => rfl

theorem takesNoNotice_addEdge (source target : NodeId) (kind : EdgeKind) :
    TakesNoNotice (addEdge source target kind) :=
  fun _ _ => rfl

theorem takesNoNotice_modifyScopes (change : Scopes → Scopes) :
    TakesNoNotice (modifyScopes change) :=
  fun _ _ => rfl

theorem takesNoNotice_currentBlock : TakesNoNotice currentBlock :=
  fun _ _ => rfl

theorem takesNoNotice_branchFrom (source : BlockId) : TakesNoNotice (branchFrom source) :=
  fun _ _ => rfl

theorem takesNoNotice_leaveControl : TakesNoNotice leaveControl :=
  fun _ _ => rfl

theorem takesNoNotice_skip : TakesNoNotice skip :=
  TakesNoNotice.update fun walk more => by simp only [Walk.skipMore, Nat.add_right_comm]

theorem takesNoNotice_bindVariable (name : StrId) (node : NodeId) :
    TakesNoNotice (bindVariable name node) :=
  fun _ _ => rfl

theorem takesNoNotice_defineVariable (name : StrId) (node : NodeId) :
    TakesNoNotice (defineVariable name node) :=
  fun _ _ => rfl

theorem takesNoNotice_addFlow (key : VarKey) (value : NodeId) : TakesNoNotice (addFlow key value) :=
  fun _ _ => rfl

theorem takesNoNotice_readVariable (name : StrId) (origin : NodeIndex)
    (position : Option Position) : TakesNoNotice (readVariable name origin position) := by
  refine .get (fun _ _ => rfl) fun walk => ?_
  split
  next node _ => exact .pure node
  next =>
    exact (takesNoNotice_addNode .localVar (some origin) position .unknown).after fun node =>
      (takesNoNotice_bindVariable name node).after fun _ => .pure node

theorem takesNoNotice_addUse (value target : NodeId) : TakesNoNotice (addUse value target) := by
  refine .get (fun _ _ => rfl) fun walk => ?_
  split
  next => exact takesNoNotice_addEdge value target .defUse
  next => exact .pure ()

theorem takesNoNotice_addSink (value target : NodeId) (kind : EdgeKind) (reason : EscapeReason)
    (position : Option Position) : TakesNoNotice (addSink value target kind reason position) :=
  (takesNoNotice_addUse value target).after fun _ _ _ => rfl

theorem takesNoNotice_addAccess (base node : NodeId) (field : Option String) (type : ValueType) :
    TakesNoNotice (addAccess base node field type) :=
  (takesNoNotice_addUse base node).after fun _ _ _ => rfl

theorem takesNoNotice_passToUnknown (value : NodeId) (origin : Option NodeIndex)
    (position : Option Position) : TakesNoNotice (passToUnknown value origin position) :=
  (takesNoNotice_addNode .callArg origin position .unknown).after fun arg =>
    takesNoNotice_addSink value arg .defUse .passedToUnknown position

theorem takesNoNotice_addAllocation (config : Config) (origin : NodeIndex)
    (position : Option Position) (objectType : ObjectType) (className : Option String)
    (count : Nat) :
    TakesNoNotice (addAllocation config origin position objectType className count) := by
  refine (takesNoNotice_addNode .allocation (some origin) position
    (allocatedType objectType)).after fun node => ?_
  cases sizeOfCount count with
  | none => exact fun _ _ => rfl
  | some size => exact fun _ _ => rfl

end Walker

end EscapePlan
