import EscapePlan.Flow.PhiPlacement
import EscapePlan.Proofs.Flow.Shape
import Mathlib.Data.List.Nodup
import Mathlib.Data.List.Perm.Subperm
import Mathlib.Logic.Relation
import Mathlib.Tactic.Tauto

/-!
# The placed phis

The blocks that get a phi of a variable are closed under dominance frontiers, and each of
them comes from a block that defines the variable, one frontier after the other.
-/

namespace EscapePlan.ControlFlow

namespace Spread

variable {frontier : BlockId → List BlockId} {size : Nat} {sites old : List BlockId}

/-! ## Visiting a frontier -/

/-- Blocks with phis have had them before or get them now, and those that get them have been in
the work list. -/
structure Accounts (old : List BlockId) (spread : Spread) : Prop where
  withPhi_eq : spread.withPhi = spread.placed ++ old
  placed_subset : ∀ block ∈ spread.placed, block ∈ spread.seen
  nodup : old.Nodup → spread.withPhi.Nodup

/-- What visiting some blocks does: they all have phis afterwards, and those that get them now
and have not been in the work list before enter it. -/
structure Visited (old joins fresh : List BlockId) (before after : Spread) : Prop where
  work_eq : after.work = fresh ++ before.work
  seen_eq : after.seen = fresh ++ before.seen
  nodup : fresh.Nodup
  fresh_subset : ∀ block ∈ fresh, block ∈ joins ∧ block ∈ after.placed ∧ block ∉ before.seen
  mem_withPhi : ∀ block, block ∈ after.withPhi ↔ block ∈ before.withPhi ∨ block ∈ joins
  placed_subset : ∀ block ∈ after.placed, block ∈ before.placed ∨ block ∈ joins
  subset_placed : ∀ block ∈ before.placed, block ∈ after.placed
  accounts : Accounts old after

theorem Accounts.place {before : Spread} (accounts : Accounts old before) {join : BlockId}
    (absent : join ∉ before.withPhi) (work : List BlockId) {seen : List BlockId}
    (listed : join ∈ seen) (grown : ∀ block ∈ before.seen, block ∈ seen) :
    Accounts old ⟨work, seen, join :: before.withPhi, join :: before.placed⟩ where
  withPhi_eq := congrArg (join :: ·) accounts.withPhi_eq
  placed_subset block member := by
    cases member with
    | head => exact listed
    | tail _ earlier => exact grown block (accounts.placed_subset block earlier)
  nodup unique := List.nodup_cons.2 ⟨absent, accounts.nodup unique⟩

theorem visited_visit {before : Spread} (accounts : Accounts old before) (join : BlockId) :
    ∃ fresh, Visited old [join] fresh before (before.visit join) := by
  rw [visit]
  split
  next present =>
    rw [List.contains_iff_mem] at present
    refine ⟨[], ⟨rfl, rfl, .nil, by simp, ?_, fun _ => .inl, fun _ => id, accounts⟩⟩
    intro block
    rw [List.mem_singleton]
    exact ⟨.inl, fun either => either.elim id fun same => same ▸ present⟩
  next absent =>
    rw [List.contains_iff_mem] at absent
    have swapped : ∀ (listed : List BlockId) block,
        block ∈ join :: listed ↔ block ∈ listed ∨ block ∈ [join] := by
      intro listed block
      rw [List.mem_cons, List.mem_singleton]
      exact Or.comm
    have placed : ∀ block ∈ join :: before.placed, block ∈ before.placed ∨ block ∈ [join] :=
      fun block => (swapped before.placed block).1
    simp only []
    split
    next seen =>
      rw [List.contains_iff_mem] at seen
      exact ⟨[], ⟨rfl, rfl, .nil, by simp, swapped _, placed, fun _ => List.mem_cons_of_mem join,
        accounts.place absent _ seen fun _ => id⟩⟩
    next unseen =>
      refine ⟨[join], ⟨rfl, rfl, by simp, ?_, swapped _, placed, fun _ => List.mem_cons_of_mem join,
        accounts.place absent _ List.mem_cons_self fun _ => List.mem_cons_of_mem join⟩⟩
      intro block member
      rw [List.mem_singleton.1 member]
      exact ⟨List.mem_cons_self, List.mem_cons_self, by simpa using unseen⟩

theorem visited_foldl {before : Spread} (accounts : Accounts old before) (joins : List BlockId) :
    ∃ fresh, Visited old joins fresh before (joins.foldl visit before) := by
  induction joins generalizing before with
  | nil => exact ⟨[], ⟨rfl, rfl, .nil, by simp, by simp, fun _ => .inl, fun _ => id, accounts⟩⟩
  | cons join joins inductionHypothesis =>
      rcases visited_visit accounts join with ⟨first, visited⟩
      rcases inductionHypothesis visited.accounts with ⟨rest, others⟩
      refine ⟨rest ++ first, ?_⟩
      have unseen : ∀ block ∈ rest, block ∉ first ∧ block ∉ before.seen := by
        intro block member
        have absent := (others.fresh_subset block member).2.2
        rw [visited.seen_eq, List.mem_append, not_or] at absent
        exact absent
      constructor
      · rw [List.foldl_cons, others.work_eq, visited.work_eq, List.append_assoc]
      · rw [List.foldl_cons, others.seen_eq, visited.seen_eq, List.append_assoc]
      · refine List.nodup_append.2 ⟨others.nodup, visited.nodup, ?_⟩
        intro block later other earlier same
        exact (unseen block later).1 (same ▸ earlier)
      · intro block member
        rcases List.mem_append.1 member with later | earlier
        · rcases others.fresh_subset block later with ⟨listed, placed, -⟩
          exact ⟨List.mem_cons_of_mem _ listed, placed, (unseen block later).2⟩
        · rcases visited.fresh_subset block earlier with ⟨listed, placed, absent⟩
          exact ⟨List.mem_singleton.1 listed ▸ List.mem_cons_self, others.subset_placed block placed,
            absent⟩
      · intro block
        rw [List.foldl_cons, others.mem_withPhi, visited.mem_withPhi, List.mem_singleton,
          List.mem_cons (l := joins), or_assoc]
      · intro block member
        rcases others.placed_subset block member with earlier | listed
        · refine (visited.placed_subset block earlier).imp_right fun same => ?_
          exact List.mem_singleton.1 same ▸ List.mem_cons_self
        · exact .inr (List.mem_cons_of_mem _ listed)
      · intro block member
        exact others.subset_placed block (visited.subset_placed block member)
      · exact others.accounts

/-! ## Following all frontiers -/

/-- One block leads to another from frontier to frontier, in one step at least. -/
abbrev Spreads (frontier : BlockId → List BlockId) : BlockId → BlockId → Prop :=
  Relation.TransGen fun block join => join ∈ frontier block

/-- What holds while the frontiers are followed: the frontier of a block that has left the work
list is done, and the steps that remain are enough for what can still enter it. -/
structure Invariant (frontier : BlockId → List BlockId) (size : Nat) (sites old : List BlockId)
    (steps : Nat) (spread : Spread) : Prop where
  nodup : spread.seen.Nodup
  seen_lt : ∀ block ∈ spread.seen, block < size
  work_subset : ∀ block ∈ spread.work, block ∈ spread.seen
  sites_subset : ∀ site ∈ sites, site ∈ spread.seen
  closed : ∀ block ∈ spread.seen,
    block ∈ spread.work ∨ ∀ join ∈ frontier block, join ∈ spread.withPhi
  origin : ∀ block ∈ spread.seen, block ∈ sites ∨ block ∈ spread.placed
  spreads : ∀ block ∈ spread.placed, ∃ site ∈ sites, Spreads frontier site block
  accounts : Accounts old spread
  enough : size + spread.work.length ≤ steps + spread.seen.length

theorem Invariant.length_le {steps : Nat} {spread : Spread}
    (invariant : Invariant frontier size sites old steps spread) : spread.seen.length ≤ size := by
  have subset : spread.seen ⊆ List.range size := by
    intro block member
    exact List.mem_range.2 (invariant.seen_lt block member)
  have fewer := (invariant.nodup.subperm subset).length_le
  rwa [List.length_range] at fewer

/-- What is in the frontier of a block that has been in the work list comes from a site. -/
theorem Invariant.spreads_of_frontier {steps : Nat} {spread : Spread} {block join : BlockId}
    (invariant : Invariant frontier size sites old steps spread) (seen : block ∈ spread.seen)
    (listed : join ∈ frontier block) : ∃ site ∈ sites, Spreads frontier site join := by
  rcases invariant.origin block seen with site | placed
  · exact ⟨block, site, .single listed⟩
  · rcases invariant.spreads block placed with ⟨site, member, steps⟩
    exact ⟨site, member, steps.tail listed⟩

theorem Invariant.step {steps : Nat} {spread : Spread} {block : BlockId} {work : List BlockId}
    (known : ∀ block, ∀ join ∈ frontier block, join < size)
    (invariant : Invariant frontier size sites old (steps + 1) spread)
    (next : spread.work = block :: work) :
    Invariant frontier size sites old steps
      ((frontier block).foldl visit { spread with work }) := by
  have popped : block ∈ spread.seen :=
    invariant.work_subset block (next ▸ List.mem_cons_self)
  have accounts : Accounts old { spread with work } :=
    ⟨invariant.accounts.withPhi_eq, invariant.accounts.placed_subset, invariant.accounts.nodup⟩
  rcases visited_foldl accounts (frontier block) with ⟨fresh, visited⟩
  have seen : ∀ other, other ∈ ((frontier block).foldl visit { spread with work }).seen ↔
      other ∈ fresh ∨ other ∈ spread.seen := by
    intro other
    rw [visited.seen_eq, List.mem_append]
  constructor
  · rw [visited.seen_eq, List.nodup_append]
    refine ⟨visited.nodup, invariant.nodup, ?_⟩
    intro other new old before same
    exact (visited.fresh_subset other new).2.2 (same ▸ before)
  · intro other member
    rcases (seen other).1 member with new | old
    · exact known block other (visited.fresh_subset other new).1
    · exact invariant.seen_lt other old
  · intro other member
    rw [seen]
    rw [visited.work_eq, List.mem_append] at member
    rcases member with new | old
    · exact .inl new
    · exact .inr (invariant.work_subset other (next ▸ List.mem_cons_of_mem _ old))
  · intro site member
    exact (seen site).2 (.inr (invariant.sites_subset site member))
  · intro other member
    rw [visited.work_eq, List.mem_append]
    rcases (seen other).1 member with new | old
    · exact .inl (.inl new)
    · rcases invariant.closed other old with pending | done
      · rw [next, List.mem_cons] at pending
        rcases pending with rfl | later
        · exact .inr fun join listed => (visited.mem_withPhi join).2 (.inr listed)
        · exact .inl (.inr later)
      · exact .inr fun join listed => (visited.mem_withPhi join).2 (.inl (done join listed))
  · intro other member
    rcases (seen other).1 member with new | old
    · exact .inr (visited.fresh_subset other new).2.1
    · exact (invariant.origin other old).imp_right (visited.subset_placed other)
  · intro other member
    rcases visited.placed_subset other member with earlier | listed
    · exact invariant.spreads other earlier
    · exact invariant.spreads_of_frontier popped listed
  · exact visited.accounts
  · have enough := invariant.enough
    rw [next, List.length_cons] at enough
    rw [visited.work_eq, visited.seen_eq, List.length_append, List.length_append]
    simp only
    omega

theorem Invariant.run {steps : Nat} {spread : Spread}
    (known : ∀ block, ∀ join ∈ frontier block, join < size)
    (invariant : Invariant frontier size sites old steps spread) :
    ∃ unused, Invariant frontier size sites old unused (run frontier steps spread) ∧
      (run frontier steps spread).work = [] := by
  induction steps generalizing spread with
  | zero =>
      refine ⟨0, invariant, List.length_eq_zero_iff.1 ?_⟩
      have fewer := invariant.length_le
      have enough := invariant.enough
      rw [Spread.run]
      omega
  | succ steps inductionHypothesis =>
      rw [Spread.run]
      split
      next finished => exact ⟨_, invariant, finished⟩
      next block work next => exact inductionHypothesis (invariant.step known next)

end Spread

/-! ## The phis of one variable -/

variable {flow : ControlFlow} {var : VarId}

theorem mem_definingBlocks {block : BlockId} :
    block ∈ flow.definingBlocks var ↔
      ∃ found, flow.block? block = some found ∧ found.reachable = true ∧
        found.defines var = true := by
  rw [definingBlocks, List.mem_filter, Option.any_eq_true, List.mem_range]
  constructor
  · rintro ⟨-, found, equal, holds⟩
    rw [Bool.and_eq_true] at holds
    exact ⟨found, equal, holds⟩
  · rintro ⟨found, equal, reachable, defines⟩
    refine ⟨?_, found, equal, by simp [reachable, defines]⟩
    apply Nat.lt_of_not_le
    intro unknown
    rw [block?_eq_none_iff.2 unknown] at equal
    contradiction

theorem mem_blocksWithPhi {block : BlockId} :
    block ∈ flow.blocksWithPhi var ↔ ∃ phi ∈ flow.phis, phi.block = block ∧ phi.var = var := by
  simp only [blocksWithPhi, List.mem_map, List.mem_filter, Array.mem_toList_iff, decide_eq_true_eq]
  constructor
  · rintro ⟨phi, ⟨member, same⟩, inBlock⟩
    exact ⟨phi, member, inBlock, same⟩
  · rintro ⟨phi, member, inBlock, same⟩
    exact ⟨phi, ⟨member, same⟩, inBlock⟩

theorem invariant_phiBlocks (flow : ControlFlow) (var : VarId)
    (known : ∀ block, ∀ join ∈ flow.frontier block, join < flow.size) :
    ∃ unused, ∃ spread : Spread,
      Spread.Invariant flow.frontier flow.size (flow.definingBlocks var) (flow.blocksWithPhi var)
          unused spread ∧
        spread.work = [] ∧ flow.phiBlocks var = spread.placed.reverse := by
  have nodup : (flow.definingBlocks var).Nodup := List.nodup_range.filter _
  have start : Spread.Invariant flow.frontier flow.size (flow.definingBlocks var)
      (flow.blocksWithPhi var) flow.size
      ⟨(flow.definingBlocks var).reverse, flow.definingBlocks var, flow.blocksWithPhi var, []⟩ := by
    constructor
    · exact nodup
    · intro block member
      exact List.mem_range.1 (List.mem_filter.1 member).1
    · intro block member
      exact List.mem_reverse.1 member
    · intro site member
      exact member
    · intro block member
      exact .inl (List.mem_reverse.2 member)
    · intro block member
      exact .inl member
    · exact fun block member => absurd member List.not_mem_nil
    · exact ⟨rfl, fun block member => absurd member List.not_mem_nil, id⟩
    · simp
  rcases start.run known with ⟨unused, invariant, finished⟩
  exact ⟨unused, _, invariant, finished, rfl⟩

/-- Where the dominance of a definition or of a phi that is placed ends, there is a phi. -/
theorem mem_phiBlocks_of_frontier
    (known : ∀ block, ∀ join ∈ flow.frontier block, join < flow.size) {block join : BlockId}
    (defines : block ∈ flow.definingBlocks var ∨ block ∈ flow.phiBlocks var)
    (ends : join ∈ flow.frontier block) :
    join ∈ flow.phiBlocks var ∨ join ∈ flow.blocksWithPhi var := by
  rcases invariant_phiBlocks flow var known with ⟨unused, spread, invariant, finished, phis⟩
  rw [phis, List.mem_reverse] at defines ⊢
  have seen : block ∈ spread.seen :=
    defines.elim (invariant.sites_subset block) (invariant.accounts.placed_subset block)
  rcases invariant.closed block seen with pending | done
  · rw [finished] at pending
    contradiction
  · have withPhi := done join ends
    rwa [invariant.accounts.withPhi_eq, List.mem_append] at withPhi

/-- A phi comes from a block that defines its variable. -/
theorem spreads_of_mem_phiBlocks
    (known : ∀ block, ∀ join ∈ flow.frontier block, join < flow.size) {block : BlockId}
    (placed : block ∈ flow.phiBlocks var) :
    block < flow.size ∧
      ∃ site ∈ flow.definingBlocks var, Spread.Spreads flow.frontier site block := by
  rcases invariant_phiBlocks flow var known with ⟨unused, spread, invariant, finished, phis⟩
  rw [phis, List.mem_reverse] at placed
  exact ⟨invariant.seen_lt block (invariant.accounts.placed_subset block placed),
    invariant.spreads block placed⟩

/-- A block gets one phi of a variable at most, and none if it has one. -/
theorem nodup_phiBlocks (known : ∀ block, ∀ join ∈ flow.frontier block, join < flow.size)
    (unique : (flow.blocksWithPhi var).Nodup) :
    (flow.phiBlocks var).Nodup ∧ ∀ block ∈ flow.phiBlocks var, block ∉ flow.blocksWithPhi var := by
  rcases invariant_phiBlocks flow var known with ⟨unused, spread, invariant, finished, phis⟩
  have nodup := invariant.accounts.nodup unique
  rw [invariant.accounts.withPhi_eq, List.nodup_append] at nodup
  simp only [phis, List.nodup_reverse, List.mem_reverse]
  exact ⟨nodup.1, fun block placed old => nodup.2.2 block placed block old rfl⟩

theorem find?_foldl_insert (definitions : List Definition) (table : Table Unit)
    (listed : table.find? var = some () ∨ ∃ definition ∈ definitions, definition.var = var) :
    (definitions.foldl (fun table definition => table.insert definition.var ()) table).find? var =
      some () := by
  induction definitions generalizing table with
  | nil => simpa using listed
  | cons definition definitions inductionHypothesis =>
      apply inductionHypothesis
      rw [Table.find?_insert]
      split
      next => exact .inl rfl
      next different =>
        rcases listed with old | ⟨found, member, same⟩
        · exact .inl old
        · rcases List.mem_cons.1 member with rfl | later
          · exact absurd same.symm different
          · exact .inr ⟨found, later, same⟩

theorem mem_definedVariables {block : BlockId} (defines : block ∈ flow.definingBlocks var) :
    var ∈ flow.definedVariables := by
  rcases mem_definingBlocks.1 defines with ⟨found, equal, -, definesVar⟩
  rcases List.any_eq_true.1 definesVar with ⟨definition, member, same⟩
  refine Table.mem_keys_iff.2 ⟨(), find?_foldl_insert _ _ (.inr ⟨definition, ?_, ?_⟩)⟩
  · refine List.mem_flatMap.2 ⟨found, ?_, member⟩
    rw [Array.mem_toList_iff]
    exact Array.mem_of_getElem? equal
  · simpa using same

theorem mem_newPhis (known : ∀ block, ∀ join ∈ flow.frontier block, join < flow.size)
    {block : BlockId} : (block, var) ∈ flow.newPhis ↔ block ∈ flow.phiBlocks var := by
  rw [newPhis, List.mem_flatMap]
  constructor
  · rintro ⟨other, -, member⟩
    rcases List.mem_map.1 member with ⟨found, placed, equal⟩
    cases equal
    exact placed
  · intro placed
    rcases spreads_of_mem_phiBlocks known placed with ⟨-, site, defines, -⟩
    exact ⟨var, mem_definedVariables defines, List.mem_map_of_mem placed⟩

/-! ## Attaching phis to blocks -/

/-- A block apart from its phis. -/
def withoutPhis (block : Block) : Block :=
  { block with phis := [] }

/-- All phis there are stand for some blocks and variables, and each block lists its own. -/
structure HoldsPhis (sites : List (BlockId × VarId)) (flow : ControlFlow) : Prop where
  sites_eq : flow.phis.toList.map (fun phi => (phi.block, phi.var)) = sites
  mem_phiPlaces : ∀ block place, place ∈ flow.phiPlaces block ↔
    ∃ phi, flow.phis[place]? = some phi ∧ phi.block = block
  nodup_phiPlaces : ∀ block, (flow.phiPlaces block).Nodup

theorem holdsPhis_nil {flow : ControlFlow} (fresh : flow.phis = #[])
    (places : ∀ block, flow.phiPlaces block = []) : HoldsPhis [] flow := by
  constructor
  · rw [fresh]
    rfl
  · intro block place
    simp [fresh, places]
  · intro block
    rw [places]
    exact .nil

/-- Which phis there are can be told from them and their places. -/
theorem HoldsPhis.of_same {sites : List (BlockId × VarId)} {other : ControlFlow}
    (holds : HoldsPhis sites flow) (phis : other.phis = flow.phis)
    (places : ∀ block, other.phiPlaces block = flow.phiPlaces block) : HoldsPhis sites other where
  sites_eq := by
    rw [phis]
    exact holds.sites_eq
  mem_phiPlaces block := by
    rw [phis, places]
    exact holds.mem_phiPlaces block
  nodup_phiPlaces block := by
    rw [places]
    exact holds.nodup_phiPlaces block

theorem agree_attachPhi (flow : ControlFlow) (block : BlockId) (var : VarId) (node : NodeId) :
    Agree withoutPhis flow (flow.attachPhi block var node) := by
  rw [attachPhi]
  split
  next =>
    constructor
    · apply (Agree.modifyBlock _ flow block).blocks
      intro found
      rfl
    · rfl
  next => exact .refl flow

theorem phiPlaces_attachPhi {block : BlockId} (known : block < flow.size) (var : VarId)
    (node : NodeId) (other : BlockId) :
    (flow.attachPhi block var node).phiPlaces other =
      if block = other then flow.phiPlaces other ++ [flow.phis.size] else flow.phiPlaces other := by
  rw [attachPhi, if_pos known, phiPlaces]
  refine (getD_modifyBlock flow (·.phis) _ block other).trans ?_
  split
  next same =>
    subst same
    rcases exists_block?_of_lt known with ⟨found, equal⟩
    simp [phiPlaces, equal]
  next => rfl

theorem phis_attachPhi {block : BlockId} (known : block < flow.size) (var : VarId)
    (node : NodeId) :
    (flow.attachPhi block var node).phis = flow.phis.push ⟨block, var, node, 0, []⟩ := by
  rw [attachPhi, if_pos known]

theorem HoldsPhis.attachPhi {sites : List (BlockId × VarId)} (holds : HoldsPhis sites flow)
    {block : BlockId} (known : block < flow.size) (var : VarId) (node : NodeId) :
    HoldsPhis (sites ++ [(block, var)]) (flow.attachPhi block var node) := by
  have places : ∀ other place, place ∈ flow.phiPlaces other → place < flow.phis.size := by
    intro other place member
    rcases (holds.mem_phiPlaces other place).1 member with ⟨phi, found, -⟩
    exact (Array.getElem?_eq_some_iff.1 found).1
  constructor
  · rw [phis_attachPhi known, Array.toList_push, List.map_append, holds.sites_eq]
    rfl
  · intro other place
    rw [phiPlaces_attachPhi known, phis_attachPhi known, Array.getElem?_push]
    by_cases last : place = flow.phis.size
    · subst last
      rw [if_pos rfl]
      by_cases same : block = other
      · simp [same]
      · have absent : flow.phis.size ∉ flow.phiPlaces other :=
          fun member => Nat.lt_irrefl _ (places other _ member)
        simp [same, absent]
    · rw [if_neg last, ← holds.mem_phiPlaces]
      split
      next => simp [last]
      next => rfl
  · intro other
    rw [phiPlaces_attachPhi known]
    split
    next =>
      refine List.nodup_append.2 ⟨holds.nodup_phiPlaces other, by simp, ?_⟩
      intro place old last new same
      rw [same, List.mem_singleton.1 new] at old
      exact Nat.lt_irrefl _ (places other _ old)
    next => exact holds.nodup_phiPlaces other

end EscapePlan.ControlFlow
