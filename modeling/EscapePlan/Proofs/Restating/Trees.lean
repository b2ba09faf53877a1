import EscapePlan.Placement.Basic
import EscapePlan.Proofs.Appending.Trees
import EscapePlan.Proofs.Restating.Visits

/-!
# Statements that stand otherwise

The statements of a root or a block may be put into blocks of their own or taken out of them, and
entries that mean nothing may stand among them: `Tree.Restates`.  As long as the tree is cut off
nowhere, neither before nor after, the analysis finds the same; it has only skipped the inserted
entries, each as often as the list is walked.
-/

namespace EscapePlan

namespace Tree

/-! ## Restated lists -/

/-- The tree with other statements in a root or a block, and with more nodes at the end of its
arena. -/
def restate (tree : Tree) (list : NodeIndex) (statements : List NodeIndex)
    (nodes : List TreeNode) : Tree :=
  { tree with
    nodes :=
      (tree.nodes.modify list.toNat fun node =>
        { node with data := node.data.restate statements }) ++ nodes.toArray }

/-- A list of statements of one tree is restated in another one, with so many entries inserted. -/
inductive Restates (one two : Tree) : List NodeIndex → List NodeIndex → Nat → Prop where
  | nil : Restates one two [] [] 0
  | keep {statement : NodeIndex} {statements restated : List NodeIndex} {inserted : Nat} :
      Restates one two statements restated inserted →
      Restates one two (statement :: statements) (statement :: restated) inserted
  /-- A block is replaced by its own statements. -/
  | unwrap {block : NodeIndex} {own statements restated : List NodeIndex} {inserted : Nat} :
      one.data? block = some (.block own) → Restates one two statements restated inserted →
      Restates one two (block :: statements) (own ++ restated) inserted
  /-- Consecutive statements are put into a block. -/
  | wrap {block : NodeIndex} {own statements restated : List NodeIndex} {inserted : Nat} :
      two.data? block = some (.block own) → Restates one two statements restated inserted →
      Restates one two (own ++ statements) (block :: restated) inserted
  /-- What is inserted is not there, or there is no rule for it. -/
  | insert {entry : NodeIndex} {statements restated : List NodeIndex} {inserted : Nat} :
      two.data? entry = none ∨ two.data? entry = some .other →
      Restates one two statements restated inserted →
      Restates one two statements (entry :: restated) (inserted + 1)

/-- An index occurs in a tree. -/
def Mentions (tree : Tree) (index : NodeIndex) : Prop :=
  index = tree.root ∨ ∃ node ∈ tree.nodes, index ∈ node.data.children

/-- The statements of a root or a block can be restated so, with so many entries inserted: the nodes
that are added get indices that did not occur. -/
structure Restatement (tree : Tree) (list : NodeIndex) (restated : List NodeIndex)
    (nodes : List TreeNode) (inserted : Nat) : Prop where
  restates : ∃ data statements, tree.data? list = some data ∧ data.statements? = some statements ∧
    tree.Restates (tree.restate list restated nodes) statements restated inserted
  fresh : ∀ index, tree.size ≤ index.toNat → index.toNat < tree.size + nodes.length →
    ¬ tree.Mentions index

/-- So many levels hold all that is evaluated of a node: it is cut off nowhere. -/
def Whole (tree : Tree) : Nat → NodeIndex → Prop
  | 0, index => tree.data? index = none
  | levels + 1, index =>
      ∀ data, tree.data? index = some data → ∀ child ∈ data.evaluated tree, tree.Whole levels child

/-- How often a list is walked when a node is evaluated. -/
def timesWalked (tree : Tree) (list : NodeIndex) : Nat → NodeIndex → Nat
  | 0, _ => 0
  | levels + 1, index =>
      match tree.data? index with
      | none => 0
      | some data => (if index = list then 1 else 0) +
          ((data.evaluated tree).map (tree.timesWalked list levels)).sum

end Tree

/-! ## What is evaluated -/

namespace NodeData

variable {data : NodeData} {statements : List NodeIndex}

theorem statements?_restate (has : data.statements? = some statements) (restated : List NodeIndex) :
    (data.restate restated).statements? = some restated := by
  cases data <;> cases has <;> rfl

theorem evaluated_eq_statements (tree : Tree) (has : data.statements? = some statements) :
    data.evaluated tree = statements := by
  cases data <;> cases has <;> exact Step.filterMap_visit statements

end NodeData

theorem Step.mem_filterMap_evaluated {steps : List Step} {child : NodeIndex} :
    child ∈ steps.filterMap evaluated? ↔ ∃ step ∈ steps, step.Evaluates child := by
  rw [List.mem_filterMap]
  refine exists_congr fun step => and_congr_right fun _ => ?_
  cases step <;> simp [evaluated?, Evaluates]

namespace Tree

variable {tree : Tree} {levels : Nat} {index list : NodeIndex} {node : TreeNode}
  {restated : List NodeIndex} {nodes : List TreeNode} {inserted : Nat}

/-- What is held by its references is held by its evaluation. -/
theorem Fits.whole (fits : tree.Fits levels index) : tree.Whole levels index := by
  induction levels generalizing index with
  | zero => exact fits
  | succ levels inductionHypothesis =>
      intro data dataEq child member
      obtain ⟨step, listed, evaluates⟩ := Step.mem_filterMap_evaluated.1 member
      exact inductionHypothesis (fits.of_step dataEq listed evaluates)

/-- A node that is cut off nowhere does not evaluate itself. -/
theorem Whole.not_mem_evaluated (whole : tree.Whole levels index) {data : NodeData}
    (found : tree.data? index = some data) : index ∉ data.evaluated tree := by
  intro member
  induction levels with
  | zero => exact absurd (whole.symm.trans found) (Option.some_ne_none data).symm
  | succ levels inductionHypothesis => exact inductionHypothesis (whole data found index member)

theorem Mentions.of_mem_children {parent : NodeIndex} (found : tree.get? parent = some node)
    (member : index ∈ node.data.children) : tree.Mentions index :=
  .inr ⟨node, Array.mem_of_getElem? found, member⟩

theorem Mentions.of_mem_evaluated {parent : NodeIndex} (found : tree.get? parent = some node)
    (member : index ∈ node.data.evaluated tree) : tree.Mentions index := by
  by_cases assigns : ∃ target value, node.data = .assignment target value
  · obtain ⟨target, value, dataEq⟩ := assigns
    have children : node.data.children = [target, value] := by rw [dataEq, NodeData.children]
    rw [dataEq] at member
    rcases List.mem_cons.1 member with rfl | member
    · exact .of_mem_children found (children ▸ List.mem_cons_of_mem _ List.mem_cons_self)
    obtain ⟨step, listed, evaluates⟩ := Step.mem_filterMap_evaluated.1 member
    rcases of_mem_targetPlan listed evaluates with rfl | ⟨data, targetEq, below⟩
    · exact .of_mem_children found (children ▸ List.mem_cons_self)
    · obtain ⟨targetNode, foundTarget, rfl⟩ := Option.map_eq_some_iff.1 targetEq
      exact .of_mem_children foundTarget below
  · have others : ∀ target value, node.data ≠ .assignment target value :=
      fun target value equal => assigns ⟨target, value, equal⟩
    rw [NodeData.evaluated_eq_children tree others] at member
    exact .of_mem_children found member

/-! ## Nodes of a restated tree -/

/-- Where the tree is mentioned, nothing changes but the statements of the list. -/
theorem Restatement.get?_restate (restatement : tree.Restatement list restated nodes inserted)
    (mentioned : tree.Mentions index) :
    (tree.restate list restated nodes).get? index = (tree.get? index).map fun node =>
      if index = list then { node with data := node.data.restate restated } else node := by
  have same : list.toNat = index.toNat ↔ index = list :=
    ⟨fun equal => congrArg NodeIndex.mk (UInt32.toNat_inj.1 equal.symm), fun equal => equal ▸ rfl⟩
  rw [get?, get?, restate]
  by_cases inside : index.toNat < tree.nodes.size
  · rw [Array.getElem?_append_left (by simpa using inside), Array.getElem?_modify]
    simp only [same]
    split
    next => rfl
    next => exact Option.map_id'.symm
  · have beyond : tree.size + nodes.length ≤ index.toNat := by
      by_contra near
      exact restatement.fresh index (Nat.le_of_not_lt inside) (Nat.lt_of_not_le near) mentioned
    rw [Array.getElem?_eq_none (by simpa [size] using beyond),
      Array.getElem?_eq_none (Nat.le_of_not_lt inside), Option.map_none]

theorem Restatement.samePlace (restatement : tree.Restatement list restated nodes inserted)
    (mentioned : tree.Mentions index) :
    tree.SamePlace (tree.restate list restated nodes) index := by
  refine ⟨[], ?_⟩
  rw [data?, restatement.get?_restate mentioned, data?, Option.map_map, Option.map_map,
    Option.map_map]
  refine congrArg (Option.map · _) (funext fun node => ?_)
  dsimp only [Function.comp]
  split
  next => exact node.data.restate_restate restated []
  next => rfl

end Tree

/-! ## Walks over restated lists -/

namespace Walker

variable {config : Config} {tree other : Tree} {list : NodeIndex} {levels levelsAfter : Nat}

/-- Visits some statements, which produce no value. -/
def visitList (visit : Visit) (statements : List NodeIndex) : Walker (Option NodeId) := do
  visitAll visit statements
  return none

theorem visitAll_cons_eq (visit : Visit) (statement : NodeIndex) (rest : List NodeIndex) :
    visitAll visit (statement :: rest) = (do
      let _ ← visit statement
      visitAll visit rest) :=
  funext fun walk => visitAll_cons visit statement rest walk

theorem visitAll_append_eq (visit : Visit) (first second : List NodeIndex) :
    visitAll visit (first ++ second) = (do
      let _ ← visitList visit first
      visitAll visit second) :=
  funext fun walk => visitAll_append visit first second walk

/-- A visit of a root or a block does nothing but visit its statements. -/
theorem visit_eq_visitList {index : NodeIndex} {node : TreeNode} {statements : List NodeIndex}
    (found : tree.get? index = some node) (has : node.data.statements? = some statements) :
    visit config tree (levels + 1) index = visitList (visit config tree levels) statements := by
  rw [visit, found]
  obtain ⟨data, span⟩ := node
  cases data <;> cases has <;> rfl

theorem visit_dangling {index : NodeIndex} (dangles : tree.get? index = none) :
    visit config tree levels index = (do
      skip
      return none) := by
  cases levels with
  | zero => rw [visit, dangles]; rfl
  | succ levels => rw [visit, dangles]

/-- What is inserted is skipped. -/
theorem skipsMore_inserted {entry : NodeIndex} (whole : tree.Whole levels entry)
    (nothing : tree.data? entry = none ∨ tree.data? entry = some .other) :
    SkipsMore 1 (pure none) (visit config tree levels entry) := by
  have skipped : visit config tree levels entry = (do
      skip
      return none) := by
    rcases nothing with dangles | isOther
    · exact visit_dangling (Option.map_eq_none_iff.1 dangles)
    · cases levels with
      | zero => exact absurd (whole.symm.trans isOther) (Option.some_ne_none _).symm
      | succ levels =>
          obtain ⟨⟨data, span⟩, found, rfl⟩ := Option.map_eq_some_iff.1 isOther
          rw [visit, found]
          rfl
  rw [skipped]
  exact fun walk ahead => rfl

section

variable {count : Nat} (visits : ∀ fewer ≤ levels, ∀ later index, tree.Mentions index →
  tree.Whole fewer index → other.Whole later index →
  SkipsMore (count * tree.timesWalked list fewer index) (visit config tree fewer index)
    (visit config other later index))
include visits

/-- The statements of a block may stand in its place. -/
theorem skipsMore_unwrapped {block : NodeIndex} {own : List NodeIndex}
    (blockEq : tree.data? block = some (.block own)) (unlisted : list ≠ block)
    (whole : tree.Whole levels block)
    (wholeAfter : ∀ statement ∈ own, other.Whole levelsAfter statement) :
    SkipsMore (count * tree.timesWalked list levels block) (visit config tree levels block)
      (visitList (visit config other levelsAfter) own) := by
  cases levels with
  | zero => exact absurd (whole.symm.trans blockEq) (Option.some_ne_none _).symm
  | succ levels =>
      have evaluated : (NodeData.block own).evaluated tree = own :=
        NodeData.evaluated_eq_statements tree rfl
      have wholeOwn := whole _ blockEq
      obtain ⟨node, found, dataEq⟩ := Option.map_eq_some_iff.1 blockEq
      have has : node.data.statements? = some own := by rw [dataEq, NodeData.statements?]
      rw [Tree.timesWalked, blockEq, visit_eq_visitList found has]
      dsimp only
      rw [if_neg unlisted.symm, Nat.zero_add, ← List.sum_map_mul_left, evaluated]
      rw [evaluated] at wholeOwn
      refine SkipsMore.before (.forIn fun statement member => ?_) fun _ => .pure none
      refine visits levels (Nat.le_succ levels) levelsAfter statement ?_ (wholeOwn statement member)
        (wholeAfter statement member)
      exact .of_mem_children found (NodeData.mem_children has member)

/-- Statements may be put into a block. -/
theorem skipsMore_wrapped {block : NodeIndex} {own : List NodeIndex}
    (blockEq : other.data? block = some (.block own))
    (mentioned : ∀ statement ∈ own, tree.Mentions statement)
    (whole : ∀ statement ∈ own, tree.Whole levels statement)
    (wholeAfter : other.Whole levelsAfter block) :
    SkipsMore (own.map fun index => count * tree.timesWalked list levels index).sum
      (visitList (visit config tree levels) own) (visit config other levelsAfter block) := by
  cases levelsAfter with
  | zero => exact absurd (wholeAfter.symm.trans blockEq) (Option.some_ne_none _).symm
  | succ levelsAfter =>
      have evaluated : (NodeData.block own).evaluated other = own :=
        NodeData.evaluated_eq_statements other rfl
      have wholeOwn := wholeAfter _ blockEq
      obtain ⟨node, found, dataEq⟩ := Option.map_eq_some_iff.1 blockEq
      have has : node.data.statements? = some own := by rw [dataEq, NodeData.statements?]
      rw [visit_eq_visitList found has]
      rw [evaluated] at wholeOwn
      exact SkipsMore.before (.forIn fun statement member =>
        visits levels (Nat.le_refl levels) levelsAfter statement (mentioned statement member)
          (whole statement member) (wholeOwn statement member)) fun _ => .pure none

/-- A list that is restated is walked as before, and what is inserted is skipped, if that holds of
the statements that are kept. -/
theorem skipsMore_restated {statements restated : List NodeIndex} {inserted : Nat}
    (restates : tree.Restates other statements restated inserted)
    (mentioned : ∀ statement ∈ statements, tree.Mentions statement)
    (unlisted : list ∉ statements)
    (whole : ∀ statement ∈ statements, tree.Whole levels statement)
    (wholeAfter : ∀ statement ∈ restated, other.Whole levelsAfter statement) :
    SkipsMore
      (inserted + (statements.map fun index => count * tree.timesWalked list levels index).sum)
      (visitAll (visit config tree levels) statements)
      (visitAll (visit config other levelsAfter) restated) := by
  induction restates with
  | nil => exact .pure _
  | @keep statement statements restated inserted _ inductionHypothesis =>
      rw [visitAll_cons_eq, visitAll_cons_eq, List.map_cons, List.sum_cons, Nat.add_left_comm]
      rw [List.forall_mem_cons] at mentioned whole wholeAfter
      rw [List.mem_cons, not_or] at unlisted
      have first := visits levels (Nat.le_refl levels) levelsAfter statement mentioned.1 whole.1
        wholeAfter.1
      exact first.bind fun _ =>
        inductionHypothesis mentioned.2 unlisted.2 whole.2 wholeAfter.2
  | @unwrap block own statements restated inserted blockEq _ inductionHypothesis =>
      rw [visitAll_cons_eq, visitAll_append_eq, List.map_cons, List.sum_cons, Nat.add_left_comm]
      rw [List.forall_mem_cons] at mentioned whole
      rw [List.forall_mem_append] at wholeAfter
      rw [List.mem_cons, not_or] at unlisted
      exact (skipsMore_unwrapped visits blockEq unlisted.1 whole.1 wholeAfter.1).bind fun _ =>
        inductionHypothesis mentioned.2 unlisted.2 whole.2 wholeAfter.2
  | @wrap block own statements restated inserted blockEq _ inductionHypothesis =>
      rw [visitAll_cons_eq, visitAll_append_eq, List.map_append, List.sum_append, Nat.add_left_comm]
      rw [List.forall_mem_append] at mentioned whole
      rw [List.forall_mem_cons] at wholeAfter
      rw [List.mem_append, not_or] at unlisted
      exact (skipsMore_wrapped visits blockEq mentioned.1 whole.1 wholeAfter.1).bind fun _ =>
        inductionHypothesis mentioned.2 unlisted.2 whole.2 wholeAfter.2
  | @insert entry statements restated inserted nothing _ inductionHypothesis =>
      rw [visitAll_cons_eq, Nat.add_right_comm, Nat.add_comm _ 1]
      rw [List.forall_mem_cons] at wholeAfter
      exact (skipsMore_inserted wholeAfter.1 nothing).bind fun _ =>
        inductionHypothesis mentioned unlisted whole wholeAfter.2

end

/-- A visit of a node does the same as in a tree in which a list is restated, but for what is
skipped whenever the list is walked. -/
theorem skipsMore_visit (config : Config) {restated : List NodeIndex} {nodes : List TreeNode}
    {inserted : Nat} (restatement : tree.Restatement list restated nodes inserted)
    {index : NodeIndex} (mentioned : tree.Mentions index) (whole : tree.Whole levels index)
    (wholeAfter : (tree.restate list restated nodes).Whole levelsAfter index) :
    SkipsMore (inserted * tree.timesWalked list levels index) (visit config tree levels index)
      (visit config (tree.restate list restated nodes) levelsAfter index) := by
  -- What stands in a block lies deeper than what stands in its place, so the levels that are left
  -- differ; there are fewer in the tree that is restated from one node to the next.
  induction levels using Nat.strong_induction_on generalizing levelsAfter index with
  | h levels inductionHypothesis =>
  have foundAfter := restatement.get?_restate mentioned
  cases found : tree.get? index with
  | none =>
      rw [found] at foundAfter
      have never : tree.timesWalked list levels index = 0 := by
        cases levels with
        | zero => rfl
        | succ levels => rw [Tree.timesWalked, Tree.data?, found]; rfl
      rw [never, visit_dangling found, visit_dangling foundAfter]
      exact takesNoNotice_skip.after fun _ => .pure none
  | some node =>
      have dataEq : tree.data? index = some node.data := congrArg (Option.map _) found
      rw [found, Option.map_some] at foundAfter
      have dataAfter := congrArg (Option.map TreeNode.data) foundAfter
      cases levels with
      | zero => exact absurd (whole.symm.trans dataEq) (Option.some_ne_none _).symm
      | succ levels =>
      cases levelsAfter with
      | zero => exact absurd (wholeAfter.symm.trans dataAfter) (Option.some_ne_none _).symm
      | succ levelsAfter =>
      have wholeBelow := whole _ dataEq
      have wholeBelowAfter := wholeAfter _ dataAfter
      have mentionedBelow : ∀ child ∈ node.data.evaluated tree, tree.Mentions child :=
        fun child member => .of_mem_evaluated found member
      rw [Tree.timesWalked, dataEq]
      dsimp only
      by_cases listed : index = list
      · subst listed
        obtain ⟨data, statements, listEq, has, restates⟩ := restatement.restates
        obtain rfl : data = node.data := Option.some.inj (listEq.symm.trans dataEq)
        rw [if_pos rfl] at foundAfter wholeBelowAfter
        have hasAfter := NodeData.statements?_restate has restated
        have unlisted := whole.not_mem_evaluated dataEq
        rw [NodeData.evaluated_eq_statements _ has] at wholeBelow mentionedBelow unlisted ⊢
        rw [NodeData.evaluated_eq_statements _ hasAfter] at wholeBelowAfter
        rw [visit_eq_visitList found has, visit_eq_visitList foundAfter hasAfter, if_pos rfl,
          Nat.mul_add, Nat.mul_one, ← List.sum_map_mul_left]
        refine SkipsMore.before (skipsMore_restated ?_ restates mentionedBelow unlisted wholeBelow
          wholeBelowAfter) fun _ => .pure none
        exact fun fewer le later child mentioned whole wholeAfter =>
          inductionHypothesis fewer (Nat.lt_succ_of_le le) mentioned whole wholeAfter
      · rw [if_neg listed] at foundAfter wholeBelowAfter
        have places : ∀ child ∈ node.data.children,
            tree.SamePlace (tree.restate list restated nodes) child :=
          fun child member => restatement.samePlace (.of_mem_children found member)
        rw [NodeData.evaluated_eq_of_samePlace places] at wholeBelowAfter
        rw [visit, visit, found, foundAfter, if_neg listed, Nat.zero_add, ← List.sum_map_mul_left]
        have names : (tree.restate list restated nodes).name = tree.name := rfl
        refine skipsMore_visitNode names config index places fun child member => ?_
        exact inductionHypothesis levels (Nat.lt_succ_self levels) (mentionedBelow child member)
          (wholeBelow child member) (wholeBelowAfter child member)

end Walker

/-! ## Analyses -/

namespace Walk

variable (walk : Walk) (more : Nat)

theorem applyAccess_skipMore (access : Access) :
    (walk.skipMore more).applyAccess access = (walk.applyAccess access).skipMore more :=
  List.foldl_hom (Walk.skipMore · more) fun _ _ => rfl

theorem escalate_skipMore (reason : EscapeReason) (position : Option Position)
    (allocation : NodeId) :
    (walk.skipMore more).escalate reason position allocation =
      (walk.escalate reason position allocation).skipMore more := by
  have records : (walk.skipMore more).records = walk.records := rfl
  rw [escalate, escalate, records]
  cases walk.records.find? allocation with
  | none => rfl
  | some record =>
      dsimp only
      split <;> rfl

theorem applySink_skipMore (sink : Sink) :
    (walk.skipMore more).applySink sink = (walk.applySink sink).skipMore more :=
  List.foldl_hom (Walk.skipMore · more) fun later allocation =>
    escalate_skipMore
      { later with
        graph := { later.graph with
          values := later.graph.values.addEdge ⟨allocation, sink.target, sink.kind⟩ } }
      more sink.reason sink.position allocation

theorem escalateTruncated_skipMore :
    (walk.skipMore more).escalateTruncated = walk.escalateTruncated.skipMore more := by
  rw [escalateTruncated, escalateTruncated]
  show (if walk.truncated.isEmpty then _ else _) = _
  split
  next => rfl
  next => exact List.foldl_hom (Walk.skipMore · more) fun _ _ => escalate_skipMore ..

/-- Settling takes no notice of how many tree nodes have been skipped. -/
theorem settle_skipMore : (walk.skipMore more).settle = walk.settle.skipMore more := by
  have accesses (resolved : Walk) :
      (resolved.skipMore more).accesses.foldl applyAccess (resolved.skipMore more) =
        (resolved.accesses.foldl applyAccess resolved).skipMore more :=
    Array.foldl_hom (Walk.skipMore · more) fun later access => later.applyAccess_skipMore more access
  have sinks (accessed : Walk) :
      (accessed.skipMore more).sinks.foldl applySink (accessed.skipMore more) =
        (accessed.sinks.foldl applySink accessed).skipMore more :=
    Array.foldl_hom (Walk.skipMore · more) fun later sink => later.applySink_skipMore more sink
  have resolved : (walk.skipMore more).resolveAliases = walk.resolveAliases.skipMore more := rfl
  rw [settle, settle, resolved, accesses, sinks, escalateTruncated_skipMore]

end Walk

namespace Analysis

/-- The analysis as it would be if so many more tree nodes had been skipped. -/
def skipMore (analysis : Analysis) (more : Nat) : Analysis :=
  { analysis with
    stats := { analysis.stats with skippedNodes := analysis.stats.skippedNodes + more } }

theorem ofWalk_skipMore (config : Config) (walk : Walk) (more : Nat) :
    ofWalk config (walk.skipMore more) = (ofWalk config walk).skipMore more := by
  have graph : (walk.skipMore more).graph = walk.graph := rfl
  have records : (walk.skipMore more).records = walk.records := rfl
  rw [ofWalk, ofWalk, graph, records]
  simp only [skipMore, Walk.skipMore]

/-- Objects are placed where they were. -/
theorem placement_skipMore (config : Config) (analysis : Analysis) (more : Nat) :
    Placement.ofAnalysis? config (analysis.skipMore more) =
      Placement.ofAnalysis? config analysis := by
  rw [Placement.ofAnalysis?, Placement.ofAnalysis?, skipMore]
  exact congrArg (Option.map · _) rfl

/-- Whether statements stand in blocks of their own does not matter for an analysis that cuts off
nothing, and entries that mean nothing are skipped as often as they are met: apart from their
number, the analysis finds the same, and all objects are placed where they were. -/
theorem ofTree_restate (config : Config) {tree : Tree} {list : NodeIndex}
    {restated : List NodeIndex} {nodes : List TreeNode} {inserted : Nat}
    (restatement : tree.Restatement list restated nodes inserted)
    (whole : tree.Whole depthLimit tree.root)
    (wholeAfter : (tree.restate list restated nodes).Whole depthLimit tree.root) :
    ofTree config (tree.restate list restated nodes) =
        (ofTree config tree).skipMore (inserted * tree.timesWalked list depthLimit tree.root) ∧
      Placement.ofTree? config (tree.restate list restated nodes) = Placement.ofTree? config tree := by
  have skips := Walker.skipsMore_visit config restatement (.inl rfl) whole wholeAfter Walk.initial 0
  rw [Nat.zero_add] at skips
  have walks : Walk.ofTree config (tree.restate list restated nodes) depthLimit =
      (Walk.ofTree config tree depthLimit).skipMore
        (inserted * tree.timesWalked list depthLimit tree.root) := by
    rw [Walk.ofTree_eq, Walk.ofTree_eq]
    exact congrArg Prod.snd skips
  have analyses : ofTree config (tree.restate list restated nodes) =
      (ofTree config tree).skipMore (inserted * tree.timesWalked list depthLimit tree.root) := by
    rw [ofTree, ofTree, walks, Walk.settle_skipMore, ofWalk_skipMore]
  refine ⟨analyses, ?_⟩
  rw [Placement.ofTree?, Placement.ofTree?, analyses, placement_skipMore]

/-- A block that keeps a point and, in a block of its own, returns it; it is met twice. -/
def twiceReturned : Tree where
  root := ⟨0⟩
  strings := .ofList ["point", "Point"]
  nodes := #[⟨.root [⟨1⟩, ⟨1⟩], none⟩, ⟨.block [⟨2⟩, ⟨5⟩], none⟩, ⟨.assignment ⟨3⟩ ⟨4⟩, none⟩,
    ⟨.var ⟨0⟩, none⟩, ⟨.objectInstantiation ⟨1⟩ [], none⟩, ⟨.block [⟨6⟩], none⟩,
    ⟨.returnStmt (some ⟨3⟩), none⟩]

/-- The assignment gets a block of its own, the return loses its block, and two entries that mean
nothing are put around them. -/
def twiceRestated : Tree :=
  twiceReturned.restate ⟨1⟩ [⟨99⟩, ⟨7⟩, ⟨6⟩, ⟨8⟩] [⟨.block [⟨2⟩], none⟩, ⟨.other, none⟩]

theorem restatement_twiceReturned :
    twiceReturned.Restatement ⟨1⟩ [⟨99⟩, ⟨7⟩, ⟨6⟩, ⟨8⟩]
      [⟨.block [⟨2⟩], none⟩, ⟨.other, none⟩] 2 where
  restates := by
    have dangling : twiceRestated.data? ⟨99⟩ = none := rfl
    have wrapped : twiceRestated.data? ⟨7⟩ = some (.block [⟨2⟩]) := rfl
    have unwrapped : twiceReturned.data? ⟨5⟩ = some (.block [⟨6⟩]) := rfl
    have meaningless : twiceRestated.data? ⟨8⟩ = some .other := rfl
    exact ⟨_, _, rfl, rfl,
      .insert (.inl dangling) (.wrap wrapped (.unwrap unwrapped (.insert (.inr meaningless) .nil)))⟩
  fresh := by
    have below : ∀ node ∈ twiceReturned.nodes, ∀ child ∈ node.data.children,
        child.toNat < twiceReturned.size := by decide
    rintro index above - (rfl | ⟨node, member, child⟩)
    · exact absurd above (by decide)
    · exact Nat.not_lt_of_le above (below node member index child)

/-- The list is walked twice, so four entries are skipped; both points are found where they were,
and they are returned. -/
theorem ofTree_restate_twiceReturned :
    twiceReturned.Whole depthLimit twiceReturned.root ∧
      twiceRestated.Whole depthLimit twiceReturned.root ∧
      (ofTree {} twiceReturned).records.values.map (·.state) = [.globalEscape, .globalEscape] ∧
      (ofTree {} twiceReturned).stats.skippedNodes = 0 ∧
      ofTree {} twiceRestated = (ofTree {} twiceReturned).skipMore 4 ∧
      Placement.ofTree? {} twiceRestated = Placement.ofTree? {} twiceReturned := by
  have fits : twiceReturned.Fits depthLimit twiceReturned.root := by decide
  have fitsAfter : twiceRestated.Fits depthLimit twiceReturned.root := by decide
  have walked : twiceReturned.timesWalked ⟨1⟩ depthLimit twiceReturned.root = 2 := by decide
  have returned : (ofTree {} twiceReturned).records.values.map (·.state) =
      [.globalEscape, .globalEscape] := by cbv
  have skipped : (ofTree {} twiceReturned).stats.skippedNodes = 0 := by cbv
  have same := ofTree_restate {} restatement_twiceReturned fits.whole fitsAfter.whole
  rw [walked] at same
  exact ⟨fits.whole, fitsAfter.whole, returned, skipped, same⟩

end Analysis

end EscapePlan
