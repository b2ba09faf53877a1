import EscapePlan.Placement.Basic
import EscapePlan.Proofs.Isolation.Cores
import EscapePlan.Proofs.Merging.Settling
import EscapePlan.Proofs.Merging.Visits

/-!
# Ids with the same text

A pool may list a text more than once.  Classes and fields are told apart by their texts, variables
by their ids.  So ids of the same text may stand for each other unless both name variables of one
function body; if both do, there are two variables of the same name.
-/

namespace EscapePlan

namespace Walk

variable {config : Config} {frame : Frame} {stage : Stage} {one two : Walk}

/-- Walks that echo each other lead to the same records. -/
theorem Echoes.records_ofWalk {change : StrId → StrId} {bodies : List Body} {stageTwin : Stage}
    (echoes : Echoes change bodies one two) (soundOne : one.Sound) (soundTwo : two.Sound)
    (inStepOne : InStep config (.diagonal initial fun _ => False) frame stage one one)
    (inStepTwo : InStep config (.diagonal initial fun _ => False) frame stageTwin two two) :
    (Analysis.ofWalk config two.settle).records = (Analysis.ofWalk config one.settle).records := by
  have cores : Echoes change bodies one.core two.core := echoes.congr rfl rfl
  have settled := cores.settle
  rw [← records_core inStepOne soundOne, ← records_core inStepTwo soundTwo,
    Analysis.records_ofWalk, Analysis.records_ofWalk, soundOne.values_core inStepOne.phis_one,
    soundTwo.values_core inStepTwo.phis_one, settled.values_eq, settled.records_eq]

end Walk

/-- Names may be changed that are told apart in every function body, and keep their texts. -/
theorem Analysis.records_rename (config : Config) {tree : Tree} {change : StrId → StrId}
    (discerns : tree.Discerns change) :
    (ofTree config (tree.rename change)).records = (ofTree config tree).records := by
  obtain ⟨_, inStep⟩ := Walk.inStep_ofTree config tree depthLimit
  obtain ⟨_, inStepTwin⟩ := Walk.inStep_ofTree config (tree.rename change) depthLimit
  exact (Walk.echoes_ofTree discerns config depthLimit).records_ofWalk
    (Walk.ofTree_accounts config tree depthLimit).sound
    (Walk.ofTree_accounts config (tree.rename change) depthLimit).sound inStep inStepTwin

/-! ## Merging -/

namespace StrId

/-- One id takes the place of another. -/
def merge (kept dropped id : StrId) : StrId :=
  if id = dropped then kept else id

/-- Ids stay apart if not both of those that are merged are among them. -/
theorem injOn_merge {kept dropped : StrId} {names : Set StrId}
    (apart : ¬ (kept ≠ dropped ∧ kept ∈ names ∧ dropped ∈ names)) :
    Set.InjOn (merge kept dropped) names := by
  have other {id : StrId} (named : id ∈ names) (dropping : dropped ∈ names) (same : kept = id) :
      id = dropped := by
    subst same
    by_contra different
    exact apart ⟨different, named, dropping⟩
  intro first firstNamed second secondNamed same
  rw [merge, merge] at same
  split at same
  next firstDropped =>
    subst firstDropped
    split at same
    next secondDropped => exact secondDropped.symm
    next => exact (other secondNamed firstNamed same).symm
  next =>
    split at same
    next secondDropped =>
      subst secondDropped
      exact other firstNamed secondNamed same.symm
    next => exact same

end StrId

theorem StringPool.resolve?_merge {pool : StringPool} {kept dropped : StrId}
    (sameText : pool.resolve? kept = pool.resolve? dropped) (id : StrId) :
    pool.resolve? (StrId.merge kept dropped id) = pool.resolve? id := by
  rw [StrId.merge]
  split
  next same => rw [same, sameText]
  next => rfl

namespace Tree

variable {tree : Tree} {kept dropped : StrId}

/-- A tree in whose nodes one id has taken the place of another. -/
def merge (kept dropped : StrId) (tree : Tree) : Tree :=
  tree.rename (StrId.merge kept dropped)

/-- Two different ids name variables of one function body. -/
def SharesBody (tree : Tree) (one two : StrId) : Prop :=
  one ≠ two ∧ (one ∈ tree.bodyNames [] tree.root ∧ two ∈ tree.bodyNames [] tree.root ∨
    ∃ index data bound top, tree.data? index = some data ∧ data.body? = some (bound, top) ∧
      one ∈ tree.bodyNames bound top ∧ two ∈ tree.bodyNames bound top)

/-- What stands in a function body are no more than some nodes that it begins with and that have all
their children in it among them. -/
theorem Within.mem_of_closed {top index : NodeIndex} {indices : List NodeIndex}
    (start : top ∈ indices)
    (closed : ∀ index ∈ indices, ((tree.data? index).map NodeData.ownChildren).getD [] ⊆ indices)
    (within_ : tree.Within top index) : index ∈ indices := by
  induction within_ with
  | top => exact start
  | child _ found member inductionHypothesis =>
      have children := closed _ inductionHypothesis
      rw [found] at children
      exact children member

theorem mem_of_mem_bodyNames {bound : List StrId} {top : NodeIndex} {indices : List NodeIndex}
    (start : top ∈ indices)
    (closed : ∀ index ∈ indices, ((tree.data? index).map NodeData.ownChildren).getD [] ⊆ indices)
    {name : StrId} (named : name ∈ tree.bodyNames bound top) :
    name ∈ bound ++ indices.flatMap fun index =>
      ((tree.data? index).map NodeData.ownNames).getD [] := by
  rw [List.mem_append, List.mem_flatMap]
  refine named.imp_right ?_
  rintro ⟨index, data, within_, found, own⟩
  refine ⟨index, within_.mem_of_closed start closed, ?_⟩
  rw [found]
  exact own

theorem discerns_merge (sameText : tree.strings.resolve? kept = tree.strings.resolve? dropped)
    (apart : ¬ tree.SharesBody kept dropped) : tree.Discerns (StrId.merge kept dropped) where
  outermost := StrId.injOn_merge fun ⟨different, both⟩ => apart ⟨different, .inl both⟩
  nested index data bound top found body := StrId.injOn_merge fun ⟨different, both⟩ =>
    apart ⟨different, .inr ⟨index, data, bound, top, found, body, both⟩⟩
  text_eq id := congrArg (·.getD "?") (tree.strings.resolve?_merge sameText id)

end Tree

namespace Analysis

/-- An id may take the place of another one of the same text unless both name variables of one
function body: every record stays as it is, and so does everything that is decided about the
objects. -/
theorem merge_eq (config : Config) {tree : Tree} {kept dropped : StrId}
    (sameText : tree.strings.resolve? kept = tree.strings.resolve? dropped)
    (apart : ¬ tree.SharesBody kept dropped) :
    (ofTree config (tree.merge kept dropped)).records = (ofTree config tree).records ∧
      (Placement.ofTree? config (tree.merge kept dropped)).map (fun placement =>
          (placement.stack, placement.scalar, placement.allocations)) =
        (Placement.ofTree? config tree).map fun placement =>
          (placement.stack, placement.scalar, placement.allocations) := by
  have records : (ofTree config (tree.merge kept dropped)).records = (ofTree config tree).records :=
    records_rename config (Tree.discerns_merge sameText apart)
  refine ⟨records, ?_⟩
  simp only [Placement.ofTree?, Placement.ofAnalysis?, Option.map_map, Function.comp_def,
    Placement.onStack, records]

/-- An object stays in a function that keeps it in a variable, and another function returns its
parameter of the same name. -/
def namesakesTree : Tree where
  root := ⟨0⟩
  strings := .ofList ["point", "point", "Point", "keep", "pass"]
  nodes := #[⟨.root [⟨4⟩, ⟨7⟩], none⟩, ⟨.objectInstantiation ⟨2⟩ [], none⟩, ⟨.var ⟨0⟩, none⟩,
    ⟨.assignment ⟨2⟩ ⟨1⟩, none⟩, ⟨.functionDecl ⟨3⟩ [] ⟨3⟩, none⟩, ⟨.var ⟨1⟩, none⟩,
    ⟨.returnStmt (some ⟨5⟩), none⟩, ⟨.functionDecl ⟨4⟩ [⟨1⟩] ⟨6⟩, none⟩]

theorem merge_eq_namesakes :
    ¬ namesakesTree.SharesBody ⟨0⟩ ⟨1⟩ ∧
      (ofTree {} (namesakesTree.merge ⟨0⟩ ⟨1⟩)).records = (ofTree {} namesakesTree).records := by
  have outermost := @Tree.mem_of_mem_bodyNames namesakesTree [] ⟨0⟩ [⟨0⟩, ⟨4⟩, ⟨7⟩]
    (by decide) (by decide)
  have keeping := @Tree.mem_of_mem_bodyNames namesakesTree [] ⟨3⟩ [⟨3⟩, ⟨2⟩, ⟨1⟩]
    (by decide) (by decide)
  have passing := @Tree.mem_of_mem_bodyNames namesakesTree [⟨1⟩] ⟨6⟩ [⟨6⟩, ⟨5⟩]
    (by decide) (by decide)
  have apart : ¬ namesakesTree.SharesBody ⟨0⟩ ⟨1⟩ := by
    rintro ⟨-, ⟨first, -⟩ | ⟨index, data, bound, top, found, body, first, second⟩⟩
    · exact absurd (outermost first) (by decide)
    · rcases Option.map_eq_some_iff.1 found with ⟨node, foundNode, rfl⟩
      have member := Array.mem_of_getElem? foundNode
      simp only [namesakesTree, List.mem_toArray, List.mem_cons, List.not_mem_nil, or_false]
        at member
      rcases member with rfl | rfl | rfl | rfl | rfl | rfl | rfl | rfl <;> cases body
      · exact absurd (keeping second) (by decide)
      · exact absurd (passing first) (by decide)
  have sameText : namesakesTree.strings.resolve? ⟨0⟩ = namesakesTree.strings.resolve? ⟨1⟩ := rfl
  exact ⟨apart, (merge_eq {} sameText apart).1⟩

/-- An object is given to a variable, and a variable of the same name is returned. -/
def returningTree : Tree where
  root := ⟨0⟩
  strings := .ofList ["point", "point", "Point"]
  nodes := #[⟨.root [⟨3⟩, ⟨5⟩], none⟩, ⟨.objectInstantiation ⟨2⟩ [], none⟩, ⟨.var ⟨0⟩, none⟩,
    ⟨.assignment ⟨2⟩ ⟨1⟩, none⟩, ⟨.var ⟨1⟩, none⟩, ⟨.returnStmt (some ⟨4⟩), none⟩]

/-- Two variables of the same name are different ones if their ids are. -/
theorem states_returningTree :
    returningTree.strings.resolve? ⟨0⟩ = some "point" ∧
      returningTree.strings.resolve? ⟨1⟩ = some "point" ∧
      (ofTree {} returningTree).records.values.map (·.state) = [.noEscape] ∧
      (ofTree {} (returningTree.merge ⟨0⟩ ⟨1⟩)).records.values.map (·.state) = [.globalEscape] :=
  ⟨rfl, rfl, by cbv, by cbv⟩

end Analysis

end EscapePlan
