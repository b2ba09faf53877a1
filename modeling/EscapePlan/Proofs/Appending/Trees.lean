import Mathlib
import EscapePlan.Proofs.Appending.Walks
import EscapePlan.Proofs.Relabeling.Visits

/-!
# Trees with more statements

Statements are appended to those of the root.  A walk over the tree does what it did before, and
then goes on; so no object looks safer than it did.
-/

namespace EscapePlan

/-! ## More statements -/

/-- A root or a block with more statements. -/
def NodeData.andThen (more : List NodeIndex) : NodeData → NodeData
  | .root statements => .root (statements ++ more)
  | .block statements => .block (statements ++ more)
  | data => data

/-- The statements of a root or a block. -/
def NodeData.statements? : NodeData → Option (List NodeIndex)
  | .root statements => some statements
  | .block statements => some statements
  | _ => none

theorem NodeData.mem_children {data : NodeData} {statements : List NodeIndex}
    (has : data.statements? = some statements) {child : NodeIndex} (member : child ∈ statements) :
    child ∈ data.children := by
  cases data <;> cases has <;> exact member

theorem NodeData.statements?_andThen {data : NodeData} {statements : List NodeIndex}
    (has : data.statements? = some statements) (more : List NodeIndex) :
    (data.andThen more).statements? = some (statements ++ more) := by
  cases data <;> cases has <;> rfl

namespace Tree

/-- A tree with more statements at the end of its root, more nodes and more strings. -/
def append (tree : Tree) (statements : List NodeIndex) (nodes : List TreeNode)
    (strings : List String) : Tree where
  root := tree.root
  strings := .ofList (tree.strings.toList ++ strings)
  nodes :=
    (tree.nodes.modify tree.root.toNat fun node =>
      { node with data := node.data.andThen statements }) ++ nodes.toArray

/-- Statements can be appended to a tree: its root has statements and is no child, no child is
missing, and every id whose text matters stands for a text. -/
structure Extensible (tree : Tree) : Prop where
  exists_statements : ∃ data statements, tree.data? tree.root = some data ∧
    data.statements? = some statements
  child_ne_root : ∀ node ∈ tree.nodes, tree.root ∉ node.data.children
  child_known : ∀ node ∈ tree.nodes, ∀ child ∈ node.data.children, (tree.get? child).isSome
  text_known : ∀ node ∈ tree.nodes, ∀ id ∈ node.data.texts, (tree.strings.resolve? id).isSome

variable {tree : Tree} {statements : List NodeIndex} {nodes : List TreeNode} {strings : List String}

/-- The nodes that were there are still there, but for the root. -/
theorem get?_append {index : NodeIndex} {node : TreeNode} (found : tree.get? index = some node)
    (other : index ≠ tree.root) :
    (tree.append statements nodes strings).get? index = some node := by
  have places : tree.root.toNat ≠ index.toNat := by
    intro same
    exact other (congrArg NodeIndex.mk (UInt32.toNat_inj.1 same.symm))
  have known : index.toNat < tree.nodes.size := (Array.getElem?_eq_some_iff.1 found).1
  rw [get?, append, Array.getElem?_append_left (by simpa using known), Array.getElem?_modify,
    if_neg places]
  exact found

theorem get?_root_append {node : TreeNode} (found : tree.get? tree.root = some node) :
    (tree.append statements nodes strings).get? tree.root =
      some { node with data := node.data.andThen statements } := by
  have known : tree.root.toNat < tree.nodes.size := (Array.getElem?_eq_some_iff.1 found).1
  rw [get?] at found
  rw [get?, append, Array.getElem?_append_left (by simpa using known), Array.getElem?_modify,
    if_pos rfl, found]
  rfl

/-- A name that is known is still the same. -/
theorem name_append {id : StrId} (known : (tree.strings.resolve? id).isSome) :
    (tree.append statements nodes strings).name id = tree.name id := by
  have inside : id.toNat < tree.strings.toList.length := by
    rcases Option.isSome_iff_exists.1 known with ⟨text, found⟩
    exact (Array.getElem?_eq_some_iff.1 found).1
  rw [name, name, append, StringPool.resolve?_eq, StringPool.resolve?_eq, StringPool.toList_ofList,
    List.getElem?_append_left inside]

/-- What a node of the tree refers to is there, and it is not the root. -/
theorem Extensible.known (extensible : tree.Extensible) {index : NodeIndex} {node : TreeNode}
    (found : tree.get? index = some node) {child : NodeIndex}
    (member : child ∈ node.data.children) : (tree.get? child).isSome ∧ child ≠ tree.root := by
  have listed : node ∈ tree.nodes := Array.mem_of_getElem? found
  refine ⟨extensible.child_known node listed child member, ?_⟩
  rintro rfl
  exact extensible.child_ne_root node listed member

/-- What lies below the root is the same as before. -/
theorem Extensible.relabels (extensible : tree.Extensible) :
    Relabels (.refl StrId) (fun index => (tree.get? index).isSome ∧ index ≠ tree.root) tree
      (tree.append statements nodes strings) where
  get?_eq index known := by
    rcases Option.isSome_iff_exists.1 known.1 with ⟨node, found⟩
    rw [get?_append found known.2, found, Option.map_some, TreeNode.rename,
      NodeData.rename_refl]
  closed _ _ _ found _ member := extensible.known found member
  text_eq _ node _ found id member :=
    name_append (extensible.text_known node (Array.mem_of_getElem? found) id member)

end Tree

/-! ## Walks that go on -/

namespace Walker

/-- Visits some statements, one after the other. -/
abbrev visitAll (visit : Visit) (statements : List NodeIndex) : Walker PUnit :=
  forIn statements PUnit.unit fun statement _ => do
    let _ ← visit statement
    return .yield PUnit.unit

theorem visitAll_cons (visit : Visit) (statement : NodeIndex) (rest : List NodeIndex) (walk : Walk) :
    visitAll visit (statement :: rest) walk = visitAll visit rest (visit statement walk).2 := by
  rw [visitAll, List.forIn_cons]
  rfl

theorem visitAll_append (visit : Visit) (first second : List NodeIndex) (walk : Walk) :
    visitAll visit (first ++ second) walk = visitAll visit second (visitAll visit first walk).2 := by
  induction first generalizing walk with
  | nil => rfl
  | cons statement rest inductionHypothesis =>
      rw [List.cons_append, visitAll_cons, visitAll_cons]
      exact inductionHypothesis (visit statement walk).2

/-- A visit of a root or a block visits its statements. -/
theorem visit_statements {config : Config} {tree : Tree} {levels : Nat} {index : NodeIndex}
    {node : TreeNode} {statements : List NodeIndex} (found : tree.get? index = some node)
    (has : node.data.statements? = some statements) (walk : Walk) :
    (visit config tree (levels + 1) index walk).2 =
      (visitAll (visit config tree levels) statements walk).2 := by
  rw [visit, found]
  obtain ⟨data, span⟩ := node
  cases data <;> cases has <;> rfl

end Walker

namespace Walk

open Walker

variable {config : Config} {walk : Walk}

/-- What was listed is still listed. -/
theorem Added.mem {α : Type} {corresponds : α → α → Prop} {start now : Array α}
    (added : Added corresponds start.toList start.toList now.toList now.toList) :
    ∀ item ∈ start, item ∈ now := by
  rcases added.diagonal with ⟨more, same, -⟩
  intro item listed
  rw [← Array.mem_toList_iff, same, List.mem_append]
  exact .inl (Array.mem_toList_iff.2 listed)

/-- A walk that has gone in step with itself has noted what it had noted. -/
theorem extends_of_inStep {frame : Frame} {stage : Stage} {start : Walk} (sound : start.Sound)
    (inStep : InStep config (.diagonal start fun _ => True) frame stage walk walk) :
    start.Extends walk where
  kinds id kind known := by
    rcases Option.map_eq_some_iff.1 known with ⟨node, found, rfl⟩
    have shared : (Outset.diagonal start fun _ => True).shares id id :=
      ⟨rfl, kind?_lt known, trivial⟩
    exact (inStep.kind?_eq (.shared shared found found rfl rfl)).1
  edges := inStep.kept_one
  records id record found := by
    have known : id ∈ start.records.keys := Table.mem_keys_iff.2 ⟨record, found⟩
    rw [inStep.records_one id (kind?_lt (sound.kind?_of_known known))]
    exact found
  varKeys id key found := by
    rcases inStep.noted.mentions.diagonal with ⟨more, mentions, -⟩
    rw [varKey?, ← Array.find?_toList] at found ⊢
    rcases Option.map_eq_some_iff.1 found with ⟨mention, foundMention, rfl⟩
    have kept : walk.mentions.toList.find? (·.1 = id) = some mention := by
      rw [mentions, List.find?_append]
      exact congrArg (Option.or · _) foundMention
    rw [kept]
    rfl
  mentions := inStep.noted.mentions.mem
  flows := inStep.noted.flows.mem
  sinks := inStep.noted.sinks.mem
  accesses := inStep.noted.accesses.mem
  sites := inStep.noted.sites.mem
  truncated scope listed := by
    rcases inStep.noted.truncated.diagonal with ⟨more, same, -⟩
    rw [← List.mem_reverse, same, List.mem_append, List.mem_reverse]
    exact .inl listed

/-- A walk that goes in step with itself from its first step on may begin to do so at any point. -/
theorem InStep.again {stage : Stage} {frame : Frame} (sound : walk.Sound)
    (inStep : InStep config (.diagonal initial fun _ => False) frame stage walk walk) :
    ∃ frame, InStep config (.diagonal walk fun _ => True) frame .initial walk walk := by
  have ready : walk.Ready := by
    refine ⟨inStep.known_one, inStep.phis_one, fun id beyond => ?_⟩
    cases found : walk.records.find? id with
    | none => rfl
    | some record =>
        have known := sound.kind?_of_known (Table.mem_keys_iff.2 ⟨record, found⟩)
        exact absurd (kind?_lt known) (Nat.not_lt_of_le beyond)
  refine ⟨_, Outset.inStep (.diagonal walk fun _ => True) ready ready ?_ fun name => ?_⟩
  · rintro source target _ _ ⟨rfl, -⟩ ⟨rfl, -⟩ kind
    rfl
  · show PairedResults _ _ (walk.graph.scopes.find? name) (walk.graph.scopes.find? name)
    have bound := inStep.bindings name
    generalize walk.graph.scopes.find? name = found at bound
    cases found with
    | none => exact .none
    | some id =>
        cases bound with
        | some paired =>
          rcases paired with ⟨common, twins⟩
          rcases Option.map_eq_some_iff.1 (inStep.bare_eq twins).1 with ⟨node, foundNode, -⟩
          have below : id < walk.graph.values.size :=
            (Array.getElem?_eq_some_iff.1 foundNode).1
          have shared : (Outset.diagonal walk fun _ => True).shares id id := ⟨rfl, below, trivial⟩
          exact .some ⟨_, .shared shared foundNode foundNode rfl rfl⟩

/-- A walk over a tree that goes on with statements of any tree extends it. -/
theorem extends_visitAll (config : Config) (tree other : Tree) (limit levels : Nat)
    (statements : List NodeIndex) :
    (ofTree config tree limit).Extends
      (visitAll (visit config other levels) statements (ofTree config tree limit)).2 := by
  have sound := (ofTree_accounts config tree limit).sound
  rcases inStep_ofTree config tree limit with ⟨stage, inStep⟩
  rcases inStep.again sound with ⟨frame, again⟩
  have visits := visitsAlike_visit other.alike_refl config
    (.diagonal (ofTree config tree limit) fun _ => True) levels
  rcases lockstep_statements visits (List.forall₂_refl statements) _ _ again with
    ⟨later, -, inStepLater, -⟩
  exact extends_of_inStep sound inStepLater

/-- A walk over a tree with more statements is the walk over the tree, gone on with them. -/
theorem ofTree_append (config : Config) {tree : Tree} (extensible : tree.Extensible)
    (statements : List NodeIndex) (nodes : List TreeNode) (strings : List String) (limit : Nat) :
    ofTree config (tree.append statements nodes strings) (limit + 1) =
      (visitAll (visit config (tree.append statements nodes strings) limit) statements
        (ofTree config tree (limit + 1))).2 := by
  rcases extensible.exists_statements with ⟨data, own, dataEq, has⟩
  rcases Option.map_eq_some_iff.1 dataEq with ⟨node, found, rfl⟩
  have first : (visitAll (visit config (tree.append statements nodes strings) limit) own
      initial).2 = ofTree config tree (limit + 1) := by
    have same := ofTree_relabel tree.renames_refl.relabels rfl trivial config (limit + 1)
    rw [same, ofTree_eq, visit_statements found has]
    have follows := @follows_statements (.refl StrId) (visit config tree limit)
      (visit config (tree.append statements nodes strings) limit) own ?_ initial
    · rw [initial_relabel] at follows
      exact congrArg Prod.snd follows
    · intro child member
      exact follows_visit extensible.relabels config limit child
        (extensible.known found (NodeData.mem_children has member))
  rw [ofTree_eq, show (tree.append statements nodes strings).root = tree.root from rfl,
    visit_statements (Tree.get?_root_append found) (NodeData.statements?_andThen has statements), visitAll_append, first]

end Walk

namespace Analysis

/-- Code that is appended makes no allocation look safer: each is found again, its state is at least
as high in the order that is chosen, and none of its fields is missing. -/
theorem retains_append (config : Config) {tree : Tree} (extensible : tree.Extensible)
    (statements : List NodeIndex) (nodes : List TreeNode) (strings : List String) {id : NodeId}
    {record : EscapeRecord} (found : (ofTree config tree).records.find? id = some record) :
    ∃ later, (ofTree config (tree.append statements nodes strings)).records.find? id = some later ∧
      record.Retains config.unknownIsBottom later := by
  have sound := (Walk.ofTree_accounts config tree depthLimit).sound
  have soundAfter :=
    (Walk.ofTree_accounts config (tree.append statements nodes strings) depthLimit).sound
  have goesOn : (Walk.ofTree config tree depthLimit).Extends
      (Walk.ofTree config (tree.append statements nodes strings) depthLimit) := by
    obtain ⟨levels, depth⟩ : ∃ levels, depthLimit = levels + 1 := ⟨511, rfl⟩
    rw [depth, Walk.ofTree_append config extensible]
    exact Walk.extends_visitAll config tree _ (levels + 1) levels statements
  exact goesOn.exists_final sound soundAfter (Walk.ofTree_orderly config tree depthLimit)
    (Walk.ofTree_orderly config (tree.append statements nodes strings) depthLimit) found

/-- A point with one coordinate is kept in a variable. -/
def keptPoint : Tree where
  root := ⟨0⟩
  strings := .ofList ["point", "Point", "x"]
  nodes := #[⟨.root [⟨1⟩, ⟨4⟩], none⟩, ⟨.assignment ⟨2⟩ ⟨3⟩, none⟩, ⟨.var ⟨0⟩, none⟩,
    ⟨.objectInstantiation ⟨1⟩ [], none⟩, ⟨.propertyAccess ⟨2⟩ ⟨2⟩, none⟩]

theorem extensible_keptPoint : keptPoint.Extensible where
  exists_statements := ⟨_, _, rfl, rfl⟩
  child_ne_root := by decide
  child_known := by decide
  text_known := by decide

/-- The point stays where it is made, until a statement is appended that returns it. -/
theorem retains_append_returned :
    ((ofTree {} keptPoint).records.find? 0).map (·.state) = some .noEscape ∧
      ((ofTree {} (keptPoint.append [⟨5⟩] [⟨.returnStmt (some ⟨2⟩), none⟩] [])).records.find? 0).map
        (·.state) = some .globalEscape ∧
      ∃ record later, (ofTree {} keptPoint).records.find? 0 = some record ∧
        (ofTree {} (keptPoint.append [⟨5⟩] [⟨.returnStmt (some ⟨2⟩), none⟩] [])).records.find? 0 =
          some later ∧ record.Retains true later := by
  have kept : ((ofTree {} keptPoint).records.find? 0).map (·.state) = some .noEscape := by cbv
  have returned : ((ofTree {} (keptPoint.append [⟨5⟩] [⟨.returnStmt (some ⟨2⟩), none⟩]
      [])).records.find? 0).map (·.state) = some .globalEscape := by cbv
  rcases Option.map_eq_some_iff.1 kept with ⟨record, found, -⟩
  rcases retains_append {} extensible_keptPoint [⟨5⟩] [⟨.returnStmt (some ⟨2⟩), none⟩] [] found with
    ⟨later, foundLater, retains⟩
  exact ⟨kept, returned, record, later, found, foundLater, retains⟩

end Analysis

end EscapePlan
