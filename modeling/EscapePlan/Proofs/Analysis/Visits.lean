import EscapePlan.Proofs.Analysis.Expressions
import EscapePlan.Proofs.Analysis.Nesting

/-!
# Visits of whole trees

By induction on how many levels of the tree are left, every visit covers the place it is made
at.  So a walk over a tree has noted everything that happens at the places of the tree.
-/

namespace EscapePlan

open Walk

namespace Walker

variable {law : Law} {tree : Tree} {levels : Nat}

theorem handles_node {visit : Visit} (visits : Visits law tree levels visit) (config : Config)
    (index : NodeIndex) (node : TreeNode) :
    Handles law tree levels index node.data (visitNode config tree visit index node) := by
  rcases node with ⟨data, position⟩
  cases data with
  | root statements => exact handles_root visits statements
  | block statements => exact handles_block visits statements
  | functionDecl name params body => exact handles_function visits name params body position
  | assignment target value => exact handles_assignment visits target value position
  | objectInstantiation className args =>
      exact handles_objectInstantiation visits config className args position
  | arrayInit elements => exact handles_arrayInit visits config elements position
  | returnStmt value => exact handles_return visits value position
  | functionCall name args => exact handles_functionCall visits name args position
  | methodCall object method args => exact handles_methodCall visits object method args position
  | propertyAccess object property => exact handles_propertyAccess visits object property position
  | arrayAccess array element => exact handles_arrayAccess visits array element position
  | closure params captures body => exact handles_closure visits config params captures body position
  | var name => exact handles_var name position
  | ifStmt condition thenBranch elseBranch =>
      exact handles_if visits condition thenBranch elseBranch
  | whileStmt condition body => exact handles_while visits condition body
  | forStmt init condition update body => exact handles_for visits init condition update body
  | foreachStmt iterable key value body =>
      exact handles_foreach visits iterable key value body position
  | throwStmt value => exact handles_throw visits value position
  | literal value => exact handles_literal value (literalType value) position
  | global names => exact handles_global names position
  | other => exact handles_neutral rfl rfl rfl rfl neutral_skip

/-- Below the deepest level nothing is done but to note that the tree is cut off. -/
theorem visits_zero (config : Config) (tree : Tree) : Visits law tree 0 (visit config tree 0) := by
  intro scope saved progress index _
  apply neutral_skip.runsBind
  intro _
  have none_ : tree.dataAt? ⟨0, scope, progress, index⟩ = none := rfl
  split
  next =>
    apply runs_truncate.bind
    intro _
    exact Runs.pure fun _ member => visited_of_none none_ fun _ _ => member
  next absent =>
    apply Runs.pure
    intro walk _
    refine visited_of_none none_ fun _ known => absurd ?_ known
    rw [Tree.data?, Option.not_isSome_iff_eq_none.1 absent]
    rfl

/-- Every visit covers the place it is made at, and notes nothing but what is there. -/
theorem visits_visit (config : Config) (tree : Tree) (levels : Nat) :
    Visits law tree levels (visit config tree levels) := by
  induction levels with
  | zero => exact visits_zero config tree
  | succ levels inductionHypothesis =>
      intro scope saved progress index governs
      rw [visit, Tree.evaluate]
      cases known : tree.get? index with
      | none =>
          have dataEq : tree.data? index = none := congrArg (Option.map TreeNode.data) known
          rw [dataEq]
          apply neutral_skip.runsBind
          intro _
          exact Runs.pure fun _ _ => visited_of_none (dataAt?_eq dataEq) fun atEnd =>
            absurd atEnd (Nat.succ_ne_zero levels)
      | some node =>
          have dataEq : tree.data? index = some node.data :=
            congrArg (Option.map TreeNode.data) known
          rw [dataEq]
          exact handles_node inductionHypothesis config index node scope saved progress dataEq
            governs

end Walker

/-- What happens at a place and below it. -/
def Law.ofPlace (tree : Tree) (top : Place) : Law where
  flows key source :=
    ∃ place, tree.Below top place ∧ tree.Flows Progress.IsGlobal place key source
  exposes source := ∃ place, tree.Below top place ∧ tree.Exposes Progress.IsGlobal place source
  accesses field source := ∃ place base, tree.Below top place ∧ tree.Accesses place base field ∧
    tree.Yields Progress.IsGlobal base source

theorem Law.governs_ofPlace (tree : Tree) (top : Place) : (ofPlace tree top).Governs tree top := by
  intro lower below
  constructor
  · exact fun key source flows => ⟨lower, below, flows⟩
  · exact fun source exposes => ⟨lower, below, exposes⟩
  · exact fun base field source accesses yields => ⟨lower, base, below, accesses, yields⟩

namespace Walk

theorem initial_at (law : Law) : At law 0 [] ⟨0, 0, []⟩ initial where
  scope_eq := rfl
  scopeCount_eq := rfl
  sites_eq := rfl
  saved_eq := rfl
  bound_global _ member := absurd member List.not_mem_nil
  bound_local _ _ _ found := nomatch found
  sound := by
    constructor
    · exact fun _ member => absurd member (Array.not_mem_empty _)
    · rfl
    · exact fun _ member => absurd member (Array.not_mem_empty _)
    · exact fun _ _ found => nomatch found
    · exact fun _ member => absurd member (Array.not_mem_empty _)
    · intro id names
      rcases ControlFlow.names_newBlock names with ⟨_, _, found, -⟩ | ⟨_, member, -⟩
      · nomatch found
      · exact absurd member (Array.not_mem_empty _)
    · exact fun _ member => absurd member (Array.not_mem_empty _)
    · exact List.nodup_nil
    · exact fun _ member => absurd member (Array.not_mem_empty _)
  lawful := by
    constructor
    · exact fun _ member => absurd member (Array.not_mem_empty _)
    · exact fun _ member => absurd member (Array.not_mem_empty _)
    · exact fun _ member => absurd member (Array.not_mem_empty _)

/-- A walk has noted whatever happens at a place and below it, and nothing else. -/
structure Accounts (tree : Tree) (top : Place) (walk : Walk) : Prop where
  sound : walk.Sound
  covers : Covers tree top walk
  lawful : walk.Lawful (.ofPlace tree top)

/-- A walk over a tree has noted whatever happens at the places of the tree. -/
theorem ofTree_accounts (config : Config) (tree : Tree) (levels : Nat) :
    Accounts tree (tree.startAt levels) (ofTree config tree levels) := by
  have governs := Law.governs_ofPlace tree (tree.startAt levels)
  rw [ofTree_eq]
  rcases Walker.visits_visit config tree levels 0 [] ⟨0, 0, []⟩ tree.root governs initial
    (initial_at _) trivial with ⟨-, atFinish, visited⟩
  exact ⟨atFinish.sound, visited.covers, atFinish.lawful⟩

end Walk

end EscapePlan
