import EscapePlan.Proofs.Analysis.Nesting
import EscapePlan.Proofs.Control.Course
import EscapePlan.Proofs.Control.Growth

/-!
# Where a walk stands

A walk stands at a point of the evaluation if control can get to its block exactly if the point is
reached, if the same names are bound to global variables, and if the definitions that it has
recorded are those that are marked, one for one.  `Walker.Surveys` says of a step of a walk that it
goes from one point to another.

What has been found out about a block or a value node stays true as the walk goes on: no edge that
is added later lets control get to a block that it could not get to before.
-/

namespace EscapePlan

/-- The blocks of a control flow make some definitions, each in a block, in this order. -/
def ControlFlow.Lists (flow : ControlFlow) (placed : List (BlockId × Definition)) : Prop :=
  ∀ block, flow.definitions block = (placed.filter (·.1 = block)).map (·.2)

/-- What may be found out about a walk. -/
inductive Fact where
  /-- Whether control can get to a block. -/
  | block (block : BlockId) (reached : Bool)
  /-- A value is no global variable, and it comes from some tree node. -/
  | node (id : NodeId) (origin : Option NodeIndex)

namespace Walk

/-- A walk bears out a fact. -/
def Knows (walk : Walk) : Fact → Prop
  | .block block reached =>
      block < walk.graph.flow.size ∧ (walk.graph.flow.Reached block ↔ reached = true)
  | .node id origin =>
      ∃ node, walk.graph.values.node? id = some node ∧ node.kind ≠ .globalVar ∧
        node.origin = origin

/-- A walk has kept its values, and control can get to the same known blocks as before. -/
structure Keeps (before after : Walk) : Prop where
  nodes : ∀ id node, before.graph.values.node? id = some node →
    after.graph.values.node? id = some node
  spares : before.graph.flow.Spares after.graph.flow

variable {before after walk : Walk} {course : Course} {facts : List Fact}

namespace Keeps

theorem refl (walk : Walk) : Keeps walk walk :=
  ⟨fun _ _ => id, .refl _⟩

theorem trans {first second third : Walk} (one : Keeps first second) (two : Keeps second third) :
    Keeps first third :=
  ⟨fun id node found => two.nodes id node (one.nodes id node found), one.spares.trans two.spares⟩

/-- What has been found out stays true. -/
theorem knows (keeps : Keeps before after) {fact : Fact} (known : before.Knows fact) :
    after.Knows fact := by
  cases fact with
  | block block reached =>
      exact ⟨Nat.lt_of_lt_of_le known.1 keeps.spares.size_le,
        (keeps.spares.reached_iff block known.1).trans known.2⟩
  | node id origin =>
      obtain ⟨node, found, facts⟩ := known
      exact ⟨node, keeps.nodes id node found, facts⟩

end Keeps

/-- A name is bound to a global variable. -/
def HasGlobal (walk : Walk) (name : StrId) : Prop :=
  ∃ id, walk.graph.scopes.find? name = some id ∧ walk.kind? id = some .globalVar

/-- A definition in a block is the one that a mark is about. -/
structure Realizes (walk : Walk) (placed : BlockId × Definition) (mark : Mark) : Prop where
  var_eq : placed.2.var = mark.name.toNat
  version_eq : placed.2.version = 0
  block : walk.Knows (.block placed.1 mark.reached)
  node : walk.Knows (.node placed.2.node mark.origin)

theorem Realizes.last {placed : BlockId × Definition} {mark : Mark}
    (realizes : before.Realizes placed mark) (keeps : Keeps before after) :
    after.Realizes placed mark :=
  { realizes with
    block := keeps.knows realizes.block
    node := keeps.knows realizes.node }

/-- A walk stands at a point of the evaluation. -/
structure Stands (course : Course) (walk : Walk) : Prop where
  coherent : walk.graph.flow.Coherent
  block : walk.Knows (.block walk.block course.reached)
  bound : ∀ name id, walk.graph.scopes.find? name = some id →
    ∃ node, walk.graph.values.node? id = some node
  mem_globals : ∀ name, name ∈ course.globals ↔ walk.HasGlobal name
  marked : ∃ placed, walk.graph.flow.Lists placed ∧ List.Forall₂ walk.Realizes placed course.marks

/-- Names are bound to what they were, or they were free and are bound to values that are no global
variables. -/
def Binds (before after : Walk) : Prop :=
  ∀ name, after.graph.scopes.find? name = before.graph.scopes.find? name ∨
    before.graph.scopes.find? name = none ∧ ∃ id node,
      after.graph.scopes.find? name = some id ∧ after.graph.values.node? id = some node ∧
        node.kind ≠ .globalVar

theorem kind?_of_node? {id : NodeId} {node : ValueNode}
    (found : walk.graph.values.node? id = some node) : walk.kind? id = some node.kind :=
  congrArg (Option.map ValueNode.kind) found

namespace Stands

/-- The same names are bound to global variables. -/
theorem hasGlobal_iff (stands : Stands course before) (keeps : Keeps before after)
    (binds : Binds before after) (name : StrId) : after.HasGlobal name ↔ before.HasGlobal name := by
  rcases binds name with same | ⟨free, id, node, found, foundNode, other⟩
  · rw [HasGlobal, HasGlobal, same]
    refine exists_congr fun id => and_congr_right fun found => ?_
    obtain ⟨node, foundNode⟩ := stands.bound name id found
    rw [kind?_of_node? foundNode, kind?_of_node? (keeps.nodes id node foundNode)]
  · constructor
    · rintro ⟨later, foundLater, kind⟩
      cases found.symm.trans foundLater
      rw [kind?_of_node? foundNode] at kind
      exact absurd (Option.some.inj kind) other
    · rintro ⟨earlier, foundEarlier, -⟩
      rw [free] at foundEarlier
      cases foundEarlier

theorem bound_last (stands : Stands course before) (keeps : Keeps before after)
    (binds : Binds before after) (name : StrId) (id : NodeId)
    (found : after.graph.scopes.find? name = some id) :
    ∃ node, after.graph.values.node? id = some node := by
  rcases binds name with same | ⟨-, later, node, foundLater, foundNode, -⟩
  · exact (stands.bound name id (same ▸ found)).imp fun node => keeps.nodes id node
  · cases found.symm.trans foundLater
    exact ⟨node, foundNode⟩

/-- The marked definitions are those of any flow that has recorded no other. -/
theorem marked_last (stands : Stands course before) (keeps : Keeps before after)
    (definitions : ∀ block,
      after.graph.flow.definitions block = before.graph.flow.definitions block) :
    ∃ placed, after.graph.flow.Lists placed ∧
      List.Forall₂ after.Realizes placed course.marks := by
  obtain ⟨placed, lists, realized⟩ := stands.marked
  exact ⟨placed, fun block => (definitions block).trans (lists block),
    realized.imp fun _ _ realizes => realizes.last keeps⟩

/-- A walk that has recorded no definition stands where control is now. -/
theorem last (stands : Stands course before) (keeps : Keeps before after)
    (binds : Binds before after)
    (definitions : ∀ block,
      after.graph.flow.definitions block = before.graph.flow.definitions block)
    (coherent : after.graph.flow.Coherent) {reached : Bool}
    (block : after.Knows (.block after.block reached)) :
    Stands { course with reached } after where
  coherent := coherent
  block := block
  bound := stands.bound_last keeps binds
  mem_globals name := (stands.mem_globals name).trans (stands.hasGlobal_iff keeps binds name).symm
  marked := stands.marked_last keeps definitions

end Stands

/-- A walk has gone on in the same block, and control flow is what it was. -/
structure Still (before after : Walk) : Prop where
  flow_eq : after.graph.flow = before.graph.flow
  block_eq : after.block = before.block
  nodes : ∀ id node, before.graph.values.node? id = some node →
    after.graph.values.node? id = some node
  binds : Binds before after

theorem Still.keeps (still : Still before after) : Keeps before after :=
  ⟨still.nodes, still.flow_eq ▸ .refl _⟩

theorem Stands.of_still (stands : Stands course before) (still : Still before after) :
    Stands course after := by
  refine stands.last still.keeps still.binds (fun _ => by rw [still.flow_eq]) ?_ ?_
  · exact still.flow_eq ▸ stands.coherent
  · rw [still.block_eq]
    exact still.keeps.knows stands.block

end Walk

namespace Walker

open Walk

variable {α β γ : Type} {facts : List Fact} {course start middle finish : Course}

/-- An action goes from one point of the evaluation to another, if some facts are borne out. -/
def Surveys (facts : List Fact) (start finish : Course) (action : Walker α) : Prop :=
  ∀ walk : Walk, (∀ fact ∈ facts, walk.Knows fact) → Stands start walk →
    Keeps walk (action walk).2 ∧ Stands finish (action walk).2

/-! ## Actions one after the other -/

theorem Surveys.pure (value : α) : Surveys facts course course (pure value) :=
  fun walk _ stands => ⟨.refl walk, stands⟩

/-- What is done next may depend on the result. -/
theorem Surveys.bindResult {action : Walker α} {next : α → Walker β}
    (first : Surveys facts start middle action)
    (rest : ∀ walk, Surveys facts middle finish (next (action walk).1)) :
    Surveys facts start finish (action >>= next) := by
  intro walk knows stands
  obtain ⟨keeps, stood⟩ := first walk knows stands
  obtain ⟨keepsRest, stoodRest⟩ :=
    rest walk _ (fun fact member => keeps.knows (knows fact member)) stood
  exact ⟨keeps.trans keepsRest, stoodRest⟩

theorem Surveys.bind {action : Walker α} {next : α → Walker β}
    (first : Surveys facts start middle action)
    (rest : ∀ value, Surveys facts middle finish (next value)) :
    Surveys facts start finish (action >>= next) :=
  first.bindResult fun _ => rest _

theorem Surveys.get {next : Walk → Walker β}
    (rest : ∀ walk, Stands start walk → Surveys facts start finish (next walk)) :
    Surveys facts start finish (get >>= next) :=
  fun walk knows stands => rest walk stands walk knows stands

theorem Surveys.map {action : Walker α} (change : α → β)
    (surveys : Surveys facts start finish action) :
    Surveys facts start finish (change <$> action) :=
  surveys

/-- Steps that each go on from one point to another go all the way. -/
theorem surveys_forIn {advance : Course → γ → Course} {items : List γ}
    {body : γ → PUnit → Walker (ForInStep PUnit)}
    (yields : ∀ item walk, (body item .unit walk).1 = .yield .unit)
    (each : ∀ item ∈ items, ∀ course,
      Surveys facts course (advance course item) (body item .unit)) :
    Surveys facts start (items.foldl advance start) (forIn items PUnit.unit body) := by
  induction items generalizing start with
  | nil => exact .pure _
  | cons item rest inductionHypothesis =>
      obtain ⟨first, others⟩ := List.forall_mem_cons.1 each
      rw [List.forIn_cons, List.foldl_cons]
      refine (first start).bindResult fun walk => ?_
      rw [yields item walk]
      exact inductionHypothesis others

theorem surveys_forIn_same {items : List γ} {body : γ → PUnit → Walker (ForInStep PUnit)}
    (each : ∀ item, Surveys facts course course (body item .unit)) :
    Surveys facts course course (forIn items PUnit.unit body) := by
  induction items with
  | nil => exact .pure _
  | cons item rest inductionHypothesis =>
      rw [List.forIn_cons]
      refine (each item).bind fun step => ?_
      cases step with
      | done => exact .pure _
      | yield => exact inductionHypothesis

theorem surveys_mapM {advance : Course → γ → Course} {items : List γ} {action : γ → Walker α}
    (each : ∀ item course, Surveys facts course (advance course item) (action item)) :
    Surveys facts start (items.foldl advance start) (items.mapM action) := by
  induction items generalizing start with
  | nil => exact .pure _
  | cons item rest inductionHypothesis =>
      rw [List.mapM_cons, List.foldl_cons]
      exact (each item start).bind fun _ => inductionHypothesis.bind fun _ => .pure _

end Walker

end EscapePlan
