import EscapePlan.Proofs.Restating.Omissions
import EscapePlan.Proofs.Tree.Construction

/-!
# Trees that are built

A tree that is built by calls that refer to what earlier ones have answered is well formed.  Nodes
refer to nodes before them, so that none refers to itself through others and none is missing, and
ids stand for names, of which no two are the same.  So an analysis leaves out of it what there is no
rule for and what lies as deep as the limit, and nothing else.

An index has thirty-two bits, and a builder appends nodes beyond the last position that an index can
name.  Nodes still refer to nodes before them then, but the index of the last node is that of an
earlier one as well.
-/

namespace EscapePlan

namespace Tree

/-- Nodes refer to nodes before them. -/
def Ordered (tree : Tree) : Prop :=
  ∀ (position : Nat) (node : TreeNode), tree.nodes[position]? = some node →
    ∀ child ∈ node.data.children, child.toNat < position

variable {tree : Tree}

/-- If nodes refer to nodes before them, none refers to itself, directly or through others. -/
theorem Ordered.wellFounded_child (ordered : tree.Ordered) : WellFounded tree.Child := by
  refine Subrelation.wf (fun {child parent} below => ?_) (measure NodeIndex.toNat).wf
  obtain ⟨data, dataEq, member⟩ := below
  obtain ⟨node, found, rfl⟩ := Option.map_eq_some_iff.1 dataEq
  exact ordered parent.toNat node found child member

/-- If nodes refer to nodes before them and the root is there, whatever a tree mentions is there. -/
theorem Ordered.exists_get? (ordered : tree.Ordered) (rooted : tree.root.toNat < tree.size)
    {index : NodeIndex} (mentioned : tree.Mentions index) :
    ∃ node, tree.get? index = some node := by
  suffices inside : index.toNat < tree.size from ⟨_, Array.getElem?_eq_getElem inside⟩
  rcases mentioned with rfl | ⟨node, member, below⟩
  · exact rooted
  · obtain ⟨position, inside, rfl⟩ := Array.mem_iff_getElem.1 member
    have less := ordered position _ (Array.getElem?_eq_getElem inside) index below
    exact Nat.lt_trans less inside

/-- Nothing is left out of a tree that has whatever it mentions but what there is no rule for and
what lies as deep as the limit. -/
theorem cut_or_other_of_mem_omissions
    (present : ∀ index, tree.Mentions index → ∃ node, tree.get? index = some node)
    {omission : Omission} (member : omission ∈ tree.omissions) :
    omission = .cut ∨ omission = .other := by
  cases omission with
  | dangling => exact absurd member (dangling_notMem_omissionsBelow present (.inl rfl))
  | cut => exact .inl rfl
  | other => exact .inr rfl

end Tree

namespace Construction

/-- The tree that calls come to when the construction is ended with some statements. -/
def build (calls : List Call) (statements : List NodeIndex) : Tree :=
  TreeBuilder.finish statements (run calls).builder

/-- A tree is well formed and ends with the root of some statements, its nodes stand where calls
have set the line, and nothing is left out of it but for its rules or its depth. -/
structure WellBuilt (calls : List Call) (statements : List NodeIndex) (tree : Tree) : Prop where
  ordered : tree.Ordered
  acyclic : WellFounded tree.Child
  present : ∀ index, tree.Mentions index → ∃ node, tree.get? index = some node
  last : tree.nodes.back? = some ⟨.root statements, stamp calls⟩
  root_eq : tree.root = NodeIndex.ofNat (tree.size - 1)
  /-- The root is at the last position if there is an index for that. -/
  root : tree.size ≤ UInt32.size →
    tree.root.toNat + 1 = tree.size ∧ tree.data? tree.root = some (.root statements)
  resolves : ∀ node ∈ tree.nodes, ∀ id ∈ node.data.names,
    ∃ text, tree.strings.resolve? id = some text
  nodup : tree.strings.toList.Nodup
  stamped : ∀ (position : Nat) (node : TreeNode), tree.nodes[position]? = some node →
    ∃ made, AppendedAfter calls position made ∧ node.span = stamp (calls.take made)
  skipped : ∀ config, (Analysis.ofTree config tree).stats.skippedNodes = tree.omissions.length
  omitted : ∀ omission ∈ tree.omissions, omission = .cut ∨ omission = .other

variable {calls : List Call} {statements : List NodeIndex}

theorem span_run (proper : Proper calls) : (run calls).builder.span = stamp calls := by
  have span := span_take proper (Nat.le_refl calls.length)
  rwa [List.take_length] at span

/-- The root is appended after all else. -/
theorem builds_root (proper : Proper calls)
    (answered : ∀ statement ∈ statements, .node statement ∈ (run calls).answers) :
    (run calls).builder.Builds (TreeBuilder.push (.root statements)) TreeBuilder.Holds :=
  have sound := sound_run proper
  TreeBuilder.builds_push sound.orderly ⟨sound.holds answered, nofun⟩

theorem nodes_build (calls : List Call) (statements : List NodeIndex) :
    (build calls statements).nodes =
      (run calls).builder.nodes.push ⟨.root statements, (run calls).builder.span⟩ :=
  rfl

theorem size_build (calls : List Call) (statements : List NodeIndex) :
    (build calls statements).size = (run calls).builder.nodes.size + 1 :=
  Array.size_push _

theorem root_build (calls : List Call) (statements : List NodeIndex) :
    (build calls statements).root = NodeIndex.ofNat (run calls).builder.nodes.size :=
  rfl

/-- The root is found under its index if an index can name its position. -/
theorem data?_root_build (fits : (build calls statements).size ≤ UInt32.size) :
    (build calls statements).root.toNat + 1 = (build calls statements).size ∧
      (build calls statements).data? (build calls statements).root = some (.root statements) := by
  rw [size_build] at fits
  have position : (build calls statements).root.toNat = (run calls).builder.nodes.size :=
    UInt32.toNat_ofNat_of_lt' fits
  constructor
  · rw [position, size_build]
  · rw [Tree.data?, Tree.get?, position, nodes_build, Array.getElem?_push_size]
    rfl

/-- A node of a tree that is built is one that a call has appended, or the root. -/
theorem stamped_build (proper : Proper calls) {position : Nat} {node : TreeNode}
    (found : (build calls statements).nodes[position]? = some node) :
    ∃ made, AppendedAfter calls position made ∧ node.span = stamp (calls.take made) := by
  rcases TreeBuilder.getElem?_push found with ⟨-, old⟩ | ⟨rfl, rfl⟩
  · exact stamped_run proper old
  · refine ⟨calls.length, ⟨Nat.le_refl _, ?_, fun less => absurd less (Nat.lt_irrefl _)⟩, ?_⟩
    · rw [List.take_length]
    · rw [List.take_length]
      exact span_run proper

/-- A tree is well formed if it is built by calls that refer to nothing but what earlier calls have
answered, and is ended with statements that calls have answered. -/
theorem wellBuilt_build (proper : Proper calls)
    (answered : ∀ statement ∈ statements, .node statement ∈ (run calls).answers) :
    WellBuilt calls statements (build calls statements) :=
  have builds := builds_root proper answered
  have ordered : (build calls statements).Ordered := builds.orderly.children_lt
  have present := fun index => ordered.exists_get? builds.answers
  { ordered
    acyclic := ordered.wellFounded_child
    present
    last := by rw [nodes_build, Array.back?_push, span_run proper]
    root_eq := by rw [root_build, size_build, Nat.add_sub_cancel]
    root := data?_root_build
    resolves := fun node member => by
      obtain ⟨position, inside, rfl⟩ := Array.mem_iff_getElem.1 member
      exact builds.orderly.knows position _ (Array.getElem?_eq_getElem inside)
    nodup := builds.orderly.nodup
    stamped := fun _ _ => stamped_build proper
    skipped := fun config => Analysis.skippedNodes_ofTree config _
    omitted := fun _ => Tree.cut_or_other_of_mem_omissions present }

/-- A function that makes a point.  A node without a rule stands on both branches, and the nodes in
between are on no line. -/
def pointCalls : List Call :=
  [.atLine 3, .newObject "Point" [], .assignVariable "p" ⟨0⟩, .other, .atLine 0, .intern "p",
    .push (.var ⟨1⟩), .returnStmt (some ⟨4⟩), .ifStmt ⟨4⟩ [⟨3⟩] (some [⟨5⟩, ⟨3⟩]), .atLine 9,
    .function "f" ["p"] [⟨2⟩, ⟨8⟩]]

theorem wellBuilt_build_pointCalls :
    Proper pointCalls ∧
      (∀ statement ∈ [⟨10⟩], .node statement ∈ (run pointCalls).answers) ∧
      (build pointCalls [⟨10⟩]).nodes.toList.map (·.span) =
        List.replicate 4 (some ⟨3, 1⟩) ++ List.replicate 5 none ++
          List.replicate 3 (some ⟨9, 1⟩) ∧
      (build pointCalls [⟨10⟩]).strings.toList = ["Point", "p", "f"] ∧
      (build pointCalls [⟨10⟩]).omissions = [.other, .other] ∧
      (Analysis.ofTree {} (build pointCalls [⟨10⟩])).stats.skippedNodes = 2 ∧
      WellBuilt pointCalls [⟨10⟩] (build pointCalls [⟨10⟩]) := by
  have proper : Proper pointCalls := by decide +kernel
  have answered : ∀ statement ∈ [⟨10⟩], .node statement ∈ (run pointCalls).answers := by
    decide +kernel
  have leftOut : (build pointCalls [⟨10⟩]).omissions = [.other, .other] := by cbv
  have skipped : (Analysis.ofTree {} (build pointCalls [⟨10⟩])).stats.skippedNodes = 2 := by cbv
  exact ⟨proper, answered, by decide +kernel, by decide +kernel, leftOut, skipped,
    wellBuilt_build proper answered⟩

end Construction

end EscapePlan
