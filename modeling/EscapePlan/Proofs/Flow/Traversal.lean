import EscapePlan.Proofs.Flow.RenamingSteps

/-!
# Going through the dominator trees

Renaming takes every block that can be reached once, a block before everything below it.  What
can be composed along the trees therefore holds of renaming all regions.

In particular renaming can be seen as a list of blocks that are renamed one after the other.
-/

namespace EscapePlan.Renaming

open ControlFlow EscapePlan.Path

/-- What renaming follows: the children and successors of a block, and whether it is
reachable. -/
def outline (block : Block) : List BlockId × List BlockId × Bool :=
  (block.children, block.successors, block.reachable)

/-- What is done below some roots, with some versions current before them, can be put together
from what is done below each of them, and from renaming a block before what is below it. -/
structure Composes (dominated : ControlFlow)
    (done : List BlockId → Current → Renaming → Renaming → Prop) : Prop where
  nil : ∀ current state, done [] current state state
  append : ∀ {roots others current} {first second third : Renaming},
    done roots current first second → done others current second third →
    Retains first.flow second.flow →
    (∀ root ∈ roots, ∀ other ∈ others, ∀ block,
      Leads dominated.TreeEdge root block → ¬ Leads dominated.TreeEdge other block) →
    done (roots ++ others) current first third
  cons : ∀ {block children current} {state after : Renaming}, block < state.flow.size →
    done children (renameOne block current state).1 (renameOne block current state).2 after →
    (∀ child, child ∈ children ↔ dominated.TreeEdge block child) →
    (∀ child ∈ children, ¬ Leads dominated.TreeEdge child block) →
    done [block] current state after

namespace Composes

variable {flow dominated : ControlFlow} {entry : BlockId}
  {done : List BlockId → Current → Renaming → Renaming → Prop}

/-- What holds below single children holds below several next to each other. -/
theorem foldl (composes : Composes dominated done)
    (trees : DominatorTrees flow flow.entries dominated) (separate : flow.Separate)
    (known : entry ∈ flow.entries) {parent : BlockId} (leads : Leads flow.Edge entry parent)
    {current : Current} {depth : Nat}
    (subtree : ∀ child, dominated.TreeEdge parent child → ∀ state : Renaming,
      Agree outline dominated state.flow →
        done [child] current state (renameTree depth child current state).2)
    {children : List BlockId} (nodup : children.Nodup)
    (below : ∀ child ∈ children, dominated.TreeEdge parent child) {state : Renaming}
    (agree : Agree outline dominated state.flow) :
    done children current state
      (children.foldl (fun state child => (renameTree depth child current state).2) state) := by
  induction children generalizing state with
  | nil => exact composes.nil current state
  | cons child children inductionHypothesis =>
      rcases List.nodup_cons.1 nodup with ⟨fresh, nodup⟩
      have retained := retains_renameTree depth child current state
      have first := subtree child (below child List.mem_cons_self) state agree
      have rest := inductionHypothesis nodup
        (fun other member => below other (List.mem_cons_of_mem _ member))
        (agree.trans (retained.agree.of_view outline))
      refine composes.append first rest retained ?_
      intro root member other otherMember block rootLeads otherLeads
      rw [List.mem_singleton.1 member] at rootLeads
      have same := trees.siblings_eq separate known leads (below child List.mem_cons_self)
        (below other (List.mem_cons_of_mem _ otherMember)) rootLeads otherLeads
      exact fresh (same ▸ otherMember)

/-- It holds of a subtree; the depth that is left is enough for the rest of the tree. -/
theorem renameTree (composes : Composes dominated done)
    (trees : DominatorTrees flow flow.entries dominated) (coherent : flow.Coherent)
    (separate : flow.Separate) (known : entry ∈ flow.entries) {depth : Nat} {block : BlockId}
    (leads : Leads flow.Edge entry block)
    (enough : flow.size ≤ depth + flow.rank entry block) (current : Current) {state : Renaming}
    (agree : Agree outline dominated state.flow) :
    done [block] current state (Renaming.renameTree depth block current state).2 := by
  have inside := coherent.entry_lt entry known
  induction depth generalizing block current state with
  | zero =>
      have shallow := rank_lt_size coherent inside leads
      omega
  | succ depth inductionHypothesis =>
      have blockKnown : block < state.flow.size := by
        rw [agree.size_eq, trees.agree.size_eq]
        exact leads_lt coherent inside leads
      have later := agree.trans ((retains_renameOne block current state).agree.of_view outline)
      have childrenEq : (renameOne block current state).2.flow.childrenOf block =
          dominated.childrenOf block := later.getD_eq (·.1) block
      rw [renameTree_succ]
      simp only [childrenEq]
      refine composes.cons blockKnown (composes.foldl trees separate known leads ?_
        (trees.nodup_childrenOf block) (fun child member => member) later) (fun child => .rfl)
        (fun child member => trees.not_leads_parent separate known leads member)
      intro child below state agree
      rcases trees.immediate_of_treeEdge separate known leads below with ⟨reached, immediate⟩
      have deeper := rank_lt_rank coherent inside reached immediate.dominates immediate.strict
      exact inductionHypothesis reached (by omega) _ agree

/-- It holds of regions that are renamed one after the other, each from its entry with nothing
current. -/
theorem entries (composes : Composes dominated done)
    (trees : DominatorTrees flow flow.entries dominated) (coherent : flow.Coherent)
    (separate : flow.Separate) {entries : List BlockId} (nodup : entries.Nodup)
    (known : ∀ entry ∈ entries, entry ∈ flow.entries) {state : Renaming}
    (agree : Agree outline dominated state.flow) :
    done entries .empty state
      (entries.foldl (fun later entry => (Renaming.renameTree flow.size entry .empty later).2)
        state) := by
  induction entries generalizing state with
  | nil => exact composes.nil .empty state
  | cons entry entries inductionHypothesis =>
      rcases List.nodup_cons.1 nodup with ⟨fresh, nodup⟩
      have entryKnown := known entry List.mem_cons_self
      have retained := retains_renameTree flow.size entry .empty state
      have first := composes.renameTree trees coherent separate entryKnown
        (.refl flow.Edge entry) (Nat.le_add_right _ _) .empty agree
      have rest := inductionHypothesis nodup
        (fun other member => known other (List.mem_cons_of_mem _ member))
        (agree.trans (retained.agree.of_view outline))
      refine composes.append first rest retained ?_
      intro root member other otherMember block rootLeads otherLeads
      rw [List.mem_singleton.1 member] at rootLeads
      have otherKnown := known other (List.mem_cons_of_mem _ otherMember)
      have here := (trees.dominates_of_tree separate entryKnown (.refl _ entry) rootLeads).1
      have there := (trees.dominates_of_tree separate otherKnown (.refl _ other) otherLeads).1
      have same := separate.entry_unique entry entryKnown other otherKnown block here there
      exact fresh (same ▸ otherMember)

theorem renameRegions (composes : Composes dominated done)
    (trees : DominatorTrees flow flow.entries dominated) (coherent : flow.Coherent)
    (separate : flow.Separate) {state : Renaming} (agree : Agree outline dominated state.flow) :
    done flow.entries .empty state (Renaming.renameRegions state).2 := by
  have entriesEq : state.flow.entries = flow.entries := agree.entries.trans trees.agree.entries
  have sizeEq : state.flow.size = flow.size := agree.size_eq.trans trees.agree.size_eq
  have reachable : ∀ entry ∈ flow.entries, state.flow.isReachable entry = true := by
    intro entry member
    have same : state.flow.isReachable entry = dominated.isReachable entry :=
      agree.any_eq (·.2.2) entry
    rw [same, trees.isReachable_iff]
    exact ⟨entry, member, .refl flow.Edge entry⟩
  rw [renameRegions_run, entriesEq, List.foldl_ext _ _ _ ?same]
  case same =>
    intro later entry member
    rw [if_pos (reachable entry member), sizeEq]
  exact composes.entries trees coherent separate coherent.entries_nodup
    (fun _ member => member) agree

end Composes

/-! ## Every block once -/

/-- Blocks are renamed one after the other, each with some versions current before it. -/
inductive Visits : List BlockId → Renaming → Renaming → Prop where
  | nil (state : Renaming) : Visits [] state state
  | cons {block : BlockId} {rest : List BlockId} {state after : Renaming} (current : Current) :
      Visits rest (renameOne block current state).2 after → Visits (block :: rest) state after

theorem Visits.append {blocks others : List BlockId} {first second third : Renaming}
    (one : Visits blocks first second) (two : Visits others second third) :
    Visits (blocks ++ others) first third := by
  induction one with
  | nil => exact two
  | cons current _ inductionHypothesis => exact .cons current (inductionHypothesis two)

/-- A list of blocks holds what lies below some roots, each block once. -/
structure Lists (below : BlockId → BlockId → Prop) (roots blocks : List BlockId) : Prop where
  nodup : blocks.Nodup
  mem_iff : ∀ block, block ∈ blocks ↔ ∃ root ∈ roots, Leads below root block

section

variable {below : BlockId → BlockId → Prop} {roots others blocks more : List BlockId}

theorem Lists.append (one : Lists below roots blocks) (two : Lists below others more)
    (disjoint : ∀ root ∈ roots, ∀ other ∈ others, ∀ block,
      Leads below root block → ¬ Leads below other block) :
    Lists below (roots ++ others) (blocks ++ more) where
  nodup := by
    refine List.nodup_append.2 ⟨one.nodup, two.nodup, ?_⟩
    rintro block first other second rfl
    rcases (one.mem_iff block).1 first with ⟨root, member, leads⟩
    rcases (two.mem_iff block).1 second with ⟨other, otherMember, otherLeads⟩
    exact disjoint root member other otherMember block leads otherLeads
  mem_iff block := by
    rw [List.mem_append, one.mem_iff, two.mem_iff]
    simp only [List.mem_append, or_and_right, exists_or]

theorem Lists.cons {block : BlockId} {children : List BlockId} (lists : Lists below children blocks)
    (mem_children : ∀ child, child ∈ children ↔ below block child)
    (acyclic : ∀ child ∈ children, ¬ Leads below child block) :
    Lists below [block] (block :: blocks) where
  nodup := by
    refine List.nodup_cons.2 ⟨fun member => ?_, lists.nodup⟩
    rcases (lists.mem_iff block).1 member with ⟨child, listed, back⟩
    exact acyclic child listed back
  mem_iff other := by
    rw [List.mem_cons, lists.mem_iff]
    constructor
    · rintro (rfl | ⟨child, listed, leads⟩)
      · exact ⟨other, List.mem_cons_self, .refl below other⟩
      · exact ⟨block, List.mem_cons_self, leads.cons ((mem_children child).1 listed)⟩
    · rintro ⟨root, member, earlier, steps⟩
      rw [List.mem_singleton.1 member] at steps
      rcases first_step steps rfl with ⟨rfl, -⟩ | ⟨child, inner, taken, way, -⟩
      · exact .inl rfl
      · exact .inr ⟨child, (mem_children child).2 taken, inner, way⟩

end

theorem composes_visits (dominated : ControlFlow) :
    Composes dominated fun roots _ before after =>
      ∃ blocks, Visits blocks before after ∧ Lists dominated.TreeEdge roots blocks where
  nil _ state := ⟨[], .nil state, .nil, by simp⟩
  append one two _ disjoint := by
    rcases one with ⟨blocks, visits, lists⟩
    rcases two with ⟨more, later, others⟩
    exact ⟨blocks ++ more, visits.append later, lists.append others disjoint⟩
  cons _ rest mem_children acyclic := by
    rcases rest with ⟨blocks, visits, lists⟩
    exact ⟨_, .cons _ visits, lists.cons mem_children acyclic⟩

/-- Renaming visits every block that can be reached, once. -/
theorem exists_visits_renameRegions {flow dominated : ControlFlow}
    (trees : DominatorTrees flow flow.entries dominated) (coherent : flow.Coherent)
    (separate : flow.Separate) {state : Renaming} (agree : Agree outline dominated state.flow) :
    ∃ blocks, Visits blocks state (renameRegions state).2 ∧ blocks.Nodup ∧
      ∀ block, block ∈ blocks ↔ flow.Reached block := by
  rcases (composes_visits dominated).renameRegions trees coherent separate agree with
    ⟨blocks, visits, lists⟩
  refine ⟨blocks, visits, lists.nodup, fun block => (lists.mem_iff block).trans ?_⟩
  constructor
  · rintro ⟨entry, known, leads⟩
    exact ⟨entry, known, (trees.dominates_of_tree separate known (.refl _ entry) leads).1⟩
  · rintro ⟨entry, known, leads⟩
    exact ⟨entry, known, trees.leads_tree coherent known leads⟩

end EscapePlan.Renaming
