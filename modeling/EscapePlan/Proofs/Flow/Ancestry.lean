import EscapePlan.Proofs.Flow.Dominance

/-!
# Going up a dominator tree

Going up from a block meets its dominators, from the nearest on, and ends at the entry of
the region.  So what the computed trees say about dominance is what the paths say.
-/

namespace EscapePlan.ControlFlow

open EscapePlan.Path

variable {flow current : ControlFlow} {entry block : BlockId}

namespace DominatorTrees

theorem idom?_of_leads (trees : DominatorTrees flow flow.entries current)
    (known : entry ∈ flow.entries) (leads : Leads flow.Edge entry block) :
    (block = entry ∧ current.idom? block = none) ∨
      ∃ dominator, current.idom? block = some dominator ∧
        IsImmediateDominator flow.Edge entry dominator block := by
  by_cases same : block = entry
  · exact .inl ⟨same, same ▸ trees.idom?_entry entry known⟩
  · exact .inr (trees.idom?_some entry known block leads same)

/-- A climb meets dominators only, each one below those that come after it. -/
theorem ancestry_dominates (trees : DominatorTrees flow flow.entries current)
    (known : entry ∈ flow.entries) (leads : Leads flow.Edge entry block) (steps : Nat) :
    (∀ upper ∈ current.ancestry steps block, Dominates flow.Edge entry upper block) ∧
      (current.ancestry steps block).Pairwise fun lower upper =>
        Dominates flow.Edge entry upper lower ∧ upper ≠ lower := by
  induction steps generalizing block with
  | zero => exact ⟨by simp [ancestry], .nil⟩
  | succ steps inductionHypothesis =>
      rw [ancestry]
      rcases trees.idom?_of_leads known leads with ⟨-, none⟩ | ⟨parent, found, immediate⟩
      · rw [none]
        exact ⟨by simp [Dominates.refl], List.pairwise_singleton _ _⟩
      · rw [found]
        rcases inductionHypothesis (immediate.dominates.leads leads) with ⟨above, chain⟩
        constructor
        · intro upper member
          rcases List.mem_cons.1 member with rfl | climbed
          · exact .refl upper
          · exact (above upper climbed).trans immediate.dominates
        · refine List.pairwise_cons.2 ⟨fun upper member => ?_, chain⟩
          refine ⟨(above upper member).trans immediate.dominates, ?_⟩
          intro same
          rw [same] at member
          exact immediate.strict (immediate.dominates.antisymm
            (immediate.dominates.leads leads) (above block member))

/-- A climb that is long enough meets every dominator. -/
theorem mem_ancestry (trees : DominatorTrees flow flow.entries current)
    (coherent : flow.Coherent) (known : entry ∈ flow.entries)
    (leads : Leads flow.Edge entry block) {upper : BlockId}
    (dominates : Dominates flow.Edge entry upper block) {steps : Nat}
    (enough : flow.rank entry block < steps) : upper ∈ current.ancestry steps block := by
  have inside := coherent.entry_lt entry known
  induction steps generalizing block with
  | zero => contradiction
  | succ steps inductionHypothesis =>
      rw [ancestry]
      by_cases same : upper = block
      · rw [same]
        exact List.mem_cons_self
      · rcases trees.idom?_of_leads known leads with ⟨root, none⟩ | ⟨parent, found, immediate⟩
        · have backward : Dominates flow.Edge entry block upper := root ▸ dominates_start upper
          exact absurd (dominates.antisymm (dominates.leads leads) backward) same
        · rw [found]
          have climbed := immediate.dominates.leads leads
          have shallower :=
            rank_lt_rank coherent inside leads immediate.dominates immediate.strict
          exact List.mem_cons_of_mem _
            (inductionHypothesis climbed (immediate.last upper dominates same) (by omega))

/-- A climb that is long enough ends where there is nothing above. -/
theorem exists_last_ancestry (trees : DominatorTrees flow flow.entries current)
    (coherent : flow.Coherent) (known : entry ∈ flow.entries)
    (leads : Leads flow.Edge entry block) {steps : Nat}
    (enough : flow.rank entry block < steps) :
    ∃ last, (current.ancestry steps block).getLast? = some last ∧ current.idom? last = none := by
  have inside := coherent.entry_lt entry known
  induction steps generalizing block with
  | zero => contradiction
  | succ steps inductionHypothesis =>
      rw [ancestry]
      rcases trees.idom?_of_leads known leads with ⟨-, none⟩ | ⟨parent, found, immediate⟩
      · exact ⟨block, by rw [none]; rfl, none⟩
      · have lower := rank_lt_rank coherent inside leads immediate.dominates immediate.strict
        rcases inductionHypothesis (immediate.dominates.leads leads) (by omega) with
          ⟨last, lastEq, root⟩
        refine ⟨last, ?_, root⟩
        rw [found, List.getLast?_cons, lastEq]
        rfl

/-! ## What the trees say -/

/-- A climb of as many steps as `dominates` takes comes to an end. -/
theorem exists_last (trees : DominatorTrees flow flow.entries current)
    (coherent : flow.Coherent) (block : BlockId) :
    ∃ last, (current.ancestry (flow.size + 1) block).getLast? = some last ∧
      current.idom? last = none := by
  by_cases reached : ∃ entry ∈ flow.entries, Leads flow.Edge entry block
  · rcases reached with ⟨entry, known, leads⟩
    have late := rank_lt_size coherent (coherent.entry_lt entry known) leads
    exact trees.exists_last_ancestry coherent known leads (Nat.lt_succ_of_lt late)
  · have root := trees.idom?_none block fun entry known leads => reached ⟨entry, known, leads⟩
    exact ⟨block, by rw [ancestry, root]; rfl, root⟩

theorem dominates_iff (trees : DominatorTrees flow flow.entries current)
    (coherent : flow.Coherent) (known : entry ∈ flow.entries)
    (leads : Leads flow.Edge entry block) {other : BlockId} :
    current.dominates other block = true ↔ Dominates flow.Edge entry other block := by
  have late := rank_lt_size coherent (coherent.entry_lt entry known) leads
  rw [dominates, List.contains_iff_mem, trees.agree.size_eq]
  constructor
  · exact (trees.ancestry_dominates known leads _).1 other
  · intro above
    exact trees.mem_ancestry coherent known leads above (Nat.lt_succ_of_lt late)

theorem idom?_eq_some_iff (trees : DominatorTrees flow flow.entries current)
    (known : entry ∈ flow.entries) (leads : Leads flow.Edge entry block) {dominator : BlockId} :
    current.idom? block = some dominator ↔
      IsImmediateDominator flow.Edge entry dominator block := by
  rcases trees.idom?_of_leads known leads with ⟨root, none⟩ | ⟨parent, found, immediate⟩
  · rw [none]
    refine ⟨fun equal => by contradiction, fun immediate => ?_⟩
    have backward : Dominates flow.Edge entry block dominator := root ▸ dominates_start dominator
    exact absurd (immediate.dominates.antisymm (immediate.dominates.leads leads) backward)
      immediate.strict
  · rw [found]
    constructor
    · intro equal
      cases equal
      exact immediate
    · intro other
      rw [immediate.unique leads other]

theorem idom?_eq_none_iff (trees : DominatorTrees flow flow.entries current) :
    current.idom? block = none ↔
      block ∈ flow.entries ∨ ∀ entry ∈ flow.entries, ¬ Leads flow.Edge entry block := by
  constructor
  · intro none
    by_cases reached : ∃ entry ∈ flow.entries, Leads flow.Edge entry block
    · rcases reached with ⟨entry, known, leads⟩
      rcases trees.idom?_of_leads known leads with ⟨root, -⟩ | ⟨parent, found, -⟩
      · exact .inl (root ▸ known)
      · rw [none] at found
        contradiction
    · exact .inr fun entry known leads => reached ⟨entry, known, leads⟩
  · rintro (known | unreached)
    · exact trees.idom?_entry block known
    · exact trees.idom?_none block unreached

end DominatorTrees

end EscapePlan.ControlFlow
