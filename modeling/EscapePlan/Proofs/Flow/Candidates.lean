import EscapePlan.Flow.Dominance
import EscapePlan.Proofs.Flow.Search
import EscapePlan.Proofs.Flow.Shape
import Mathlib.Algebra.Order.BigOperators.Group.List
import Mathlib.Algebra.Order.Ring.Nat
import Mathlib.Logic.Relation

/-!
# Coming to immediate dominators

The chains of candidates form a tree, in which candidates only move up: what all
predecessors of a block lead to is always on the chain from its candidate.  This holds
because blocks are taken in reverse postorder.  A block that moves up takes a part of
its chain away from the blocks below it, and with them goes the predecessor that a search
enters a block from, since that one comes before the block in the same order.

So the candidates come to rest.  No candidate is ever above a dominator, and once no
candidate changes, every candidate is a dominator.
-/

namespace EscapePlan.ControlFlow

open EscapePlan.Path Relation

/-! ## The order of a region -/

/-- What a search tells of a region: it lists each block once, a block after its dominators,
and after another one from which control goes there directly. -/
structure Region (flow : ControlFlow) (entry : BlockId) (order : List BlockId) : Prop where
  nodup : order.Nodup
  mem_iff : ∀ block, block ∈ order ↔ Leads flow.Edge entry block
  precedes : ∀ dominator block, Leads flow.Edge entry block →
    Dominates flow.Edge entry dominator block → dominator ≠ block →
      order.idxOf dominator < order.idxOf block
  exists_earlier : ∀ block ∈ order, block ≠ entry → ∃ earlier ∈ order,
    flow.Edge earlier block ∧ order.idxOf earlier < order.idxOf block

theorem searchEdge_eq {flow : ControlFlow} (coherent : flow.Coherent) :
    Search.Edge flow.size flow.successors = flow.Edge := by
  funext source target
  apply propext
  constructor
  · intro step
    exact step.1
  · intro step
    exact ⟨step, coherent.target_lt source target step⟩

/-- What comes before an item of a list without repetition has a smaller place. -/
theorem idxOf_lt_of_mem {order later earlier : List BlockId} {block other : BlockId}
    (nodup : order.Nodup) (equal : order = later ++ block :: earlier) (member : other ∈ later) :
    order.idxOf other < order.idxOf block := by
  have fresh : block ∉ later := by
    intro again
    rw [equal, List.nodup_append] at nodup
    exact nodup.2.2 block again block List.mem_cons_self rfl
  rw [equal, List.idxOf_append_of_mem member, List.idxOf_append_of_notMem fresh,
    List.idxOf_cons_self]
  exact List.idxOf_lt_length_of_mem member

theorem mem_order_explore {flow : ControlFlow} {entry block : BlockId}
    (coherent : flow.Coherent) (known : entry < flow.size) :
    block ∈ (flow.explore entry).order ↔ Leads flow.Edge entry block := by
  rw [explore, Search.mem_order_search known, searchEdge_eq coherent]

theorem nodup_order_explore (flow : ControlFlow) {entry : BlockId} (known : entry < flow.size) :
    (flow.explore entry).order.Nodup := by
  have nodup := (Search.invariant_search flow.successors known).nodup
  rw [List.map_nil, List.nil_append] at nodup
  exact nodup

theorem region_explore {flow : ControlFlow} {entry : BlockId} (coherent : flow.Coherent)
    (known : entry < flow.size) : flow.Region entry (flow.explore entry).order := by
  have nodup := nodup_order_explore flow known
  have listed := fun block => @mem_order_explore flow entry block coherent known
  refine ⟨nodup, listed, ?_, ?_⟩
  · intro dominator block leads dominates different
    rcases List.append_of_mem ((listed block).2 leads) with ⟨later, earlier, equal⟩
    rw [← searchEdge_eq coherent] at dominates
    exact idxOf_lt_of_mem nodup equal
      (Search.precedes_search known equal dominates different)
  · intro block member different
    rcases List.append_of_mem member with ⟨later, earlier, equal⟩
    rcases Search.entered_search known equal different with ⟨previous, before, taken⟩
    rw [searchEdge_eq coherent] at taken
    exact ⟨previous, equal ▸ List.mem_append_left _ before, taken,
      idxOf_lt_of_mem nodup equal before⟩

/-- The numbers in postorder run against the order of the search. -/
theorem postorderNumber?_of_mem {order : List BlockId} {block : BlockId} (member : block ∈ order) :
    postorderNumber? order block = some (order.length - (order.idxOf block + 1)) :=
  if_pos member

/-! ## Chains of candidates -/

/-- The chain of candidates from a block comes to another one. -/
def Climbs (candidates : Candidates) : BlockId → BlockId → Prop :=
  ReflTransGen fun lower upper => candidates.find? lower = some upper

/-- Candidates belong to blocks of a region, have candidates themselves, and come before the
blocks they are candidates of; only the entry is its own. -/
structure Rising (entry : BlockId) (order : List BlockId) (candidates : Candidates) : Prop where
  entry_eq : candidates.find? entry = some entry
  mem_order : ∀ block upper, candidates.find? block = some upper → block ∈ order
  upper_known : ∀ block upper, candidates.find? block = some upper →
    ∃ next, candidates.find? upper = some next
  idxOf_lt : ∀ block upper, candidates.find? block = some upper → block ≠ entry →
    order.idxOf upper < order.idxOf block

variable {flow : ControlFlow} {entry block first second upper : BlockId} {order : List BlockId}
  {candidates : Candidates}

namespace Rising

theorem eq_of_climbs_entry (rising : Rising entry order candidates)
    (climbs : Climbs candidates entry upper) : upper = entry := by
  induction climbs with
  | refl => rfl
  | tail _ taken inductionHypothesis =>
      rw [inductionHypothesis, rising.entry_eq] at taken
      exact (Option.some.inj taken).symm

theorem idxOf_le (rising : Rising entry order candidates) (climbs : Climbs candidates block upper) :
    order.idxOf upper ≤ order.idxOf block := by
  induction climbs with
  | refl => exact Nat.le_refl _
  | @tail middle upper _ taken inductionHypothesis =>
      by_cases same : middle = entry
      · rw [same, rising.entry_eq] at taken
        rw [← Option.some.inj taken, ← same]
        exact inductionHypothesis
      · exact Nat.le_trans (Nat.le_of_lt (rising.idxOf_lt middle upper taken same))
          inductionHypothesis

theorem known (rising : Rising entry order candidates) (climbs : Climbs candidates block upper)
    (start : ∃ next, candidates.find? block = some next) :
    ∃ next, candidates.find? upper = some next := by
  induction climbs with
  | refl => exact start
  | tail _ taken _ => exact rising.upper_known _ _ taken

/-- A block whose chain comes to one with a candidate has one itself. -/
theorem known_of_climbs (climbs : Climbs candidates block upper)
    (last : ∃ next, candidates.find? upper = some next) :
    ∃ next, candidates.find? block = some next := by
  rcases climbs.cases_head with rfl | ⟨next, taken, -⟩
  · exact last
  · exact ⟨next, taken⟩

theorem mem_of_known (rising : Rising entry order candidates)
    (known : ∃ next, candidates.find? block = some next) : block ∈ order := by
  rcases known with ⟨next, found⟩
  exact rising.mem_order block next found

theorem climbs_antisymm (rising : Rising entry order candidates)
    (known : ∃ next, candidates.find? first = some next)
    (forward : Climbs candidates first second) (backward : Climbs candidates second first) :
    first = second :=
  (List.idxOf_inj (rising.mem_of_known known)).1
    (Nat.le_antisymm (rising.idxOf_le backward) (rising.idxOf_le forward))

end Rising

/-- Of two blocks on one chain, one is on the chain from the other. -/
theorem climbs_total (toFirst : Climbs candidates block first)
    (toSecond : Climbs candidates block second) :
    Climbs candidates first second ∨ Climbs candidates second first := by
  refine ReflTransGen.total_of_right_unique ?_ toFirst toSecond
  intro lower one other oneEq otherEq
  exact Option.some.inj (oneEq.symm.trans otherEq)

/-- The first block where the chains from some blocks meet. -/
structure IsMeet (candidates : Candidates) (blocks : List BlockId) (meet : BlockId) : Prop where
  climbs : ∀ block ∈ blocks, Climbs candidates block meet
  first : ∀ upper, (∀ block ∈ blocks, Climbs candidates block upper) →
    Climbs candidates meet upper

theorem IsMeet.singleton (candidates : Candidates) (block : BlockId) :
    IsMeet candidates [block] block where
  climbs other member := by
    rw [List.mem_singleton.1 member]
    exact .refl
  first upper climbs := climbs block List.mem_cons_self

theorem IsMeet.concat {blocks : List BlockId} {meet nearer : BlockId}
    (isMeet : IsMeet candidates blocks meet) (nearest : IsMeet candidates [block, meet] nearer) :
    IsMeet candidates (blocks ++ [block]) nearer where
  climbs other member := by
    rcases List.mem_append.1 member with old | new
    · exact (isMeet.climbs other old).trans (nearest.climbs meet (by simp))
    · rw [List.mem_singleton.1 new]
      exact nearest.climbs block (by simp)
  first upper climbs := by
    apply nearest.first
    intro other member
    rcases List.mem_cons.1 member with rfl | last
    · exact climbs other (by simp)
    · rw [List.mem_singleton.1 last]
      exact isMeet.first upper fun other member => climbs other (List.mem_append_left _ member)

/-- Candidates lie below the dominators of their blocks. -/
def Bounded (flow : ControlFlow) (entry : BlockId) (candidates : Candidates) : Prop :=
  ∀ block upper, candidates.find? block = some upper → block ≠ entry → ∀ dominator,
    Dominates flow.Edge entry dominator block → dominator ≠ block →
      Dominates flow.Edge entry dominator upper

/-! ## Where two chains meet -/

theorem meet?_of_lt {steps : Nat} {next : BlockId} (firstKnown : first ∈ order)
    (secondKnown : second ∈ order) (before : order.idxOf second < order.idxOf first)
    (found : candidates.find? first = some next) :
    meet? order candidates (steps + 1) first second =
      meet? order candidates steps next second := by
  have different : first ≠ second := by
    rintro rfl
    exact Nat.lt_irrefl _ before
  have inside := List.idxOf_lt_length_of_mem firstKnown
  rw [meet?, if_neg different, postorderNumber?_of_mem firstKnown,
    postorderNumber?_of_mem secondKnown]
  simp only [Option.bind_eq_bind, Option.bind_some, found]
  rw [if_pos (by omega)]

theorem meet?_of_gt {steps : Nat} {next : BlockId} (firstKnown : first ∈ order)
    (secondKnown : second ∈ order) (before : order.idxOf first < order.idxOf second)
    (found : candidates.find? second = some next) :
    meet? order candidates (steps + 1) first second =
      meet? order candidates steps first next := by
  have different : first ≠ second := by
    rintro rfl
    exact Nat.lt_irrefl _ before
  have inside := List.idxOf_lt_length_of_mem secondKnown
  rw [meet?, if_neg different, postorderNumber?_of_mem firstKnown,
    postorderNumber?_of_mem secondKnown]
  simp only [Option.bind_eq_bind, Option.bind_some, found]
  rw [if_neg (by omega), if_pos (by omega)]

/-- Going on from one of two blocks to its candidate does not change where the chains
meet, unless the other chain comes to that block. -/
theorem IsMeet.step {next meet : BlockId} (found : candidates.find? first = some next)
    (apart : ¬ Climbs candidates second first) (isMeet : IsMeet candidates [next, second] meet) :
    IsMeet candidates [first, second] meet where
  climbs other member := by
    rcases List.mem_cons.1 member with rfl | last
    · exact .head found (isMeet.climbs next (by simp))
    · exact isMeet.climbs other (List.mem_cons_of_mem _ last)
  first upper climbs := by
    apply isMeet.first
    intro other member
    rcases List.mem_cons.1 member with rfl | last
    · rcases (climbs first (by simp)).cases_head with rfl | ⟨middle, taken, rest⟩
      · exact absurd (climbs second (by simp)) apart
      · cases found.symm.trans taken
        exact rest
    · exact climbs other (List.mem_cons_of_mem _ last)

theorem IsMeet.symm {meet : BlockId} (isMeet : IsMeet candidates [first, second] meet) :
    IsMeet candidates [second, first] meet where
  climbs other member := isMeet.climbs other (by simpa [or_comm] using member)
  first upper climbs := isMeet.first upper fun other member =>
    climbs other (by simpa [or_comm] using member)

/-- Two blocks with candidates have a meet, and what dominates both dominates it. -/
theorem exists_meet? (region : flow.Region entry order) (rising : Rising entry order candidates)
    (bounded : flow.Bounded entry candidates) {steps : Nat}
    (firstKnown : ∃ next, candidates.find? first = some next)
    (secondKnown : ∃ next, candidates.find? second = some next)
    (enough : order.idxOf first + order.idxOf second < steps) :
    ∃ meet, meet? order candidates steps first second = some meet ∧
      IsMeet candidates [first, second] meet ∧
      ∀ dominator, Dominates flow.Edge entry dominator first →
        Dominates flow.Edge entry dominator second → Dominates flow.Edge entry dominator meet := by
  induction steps generalizing first second with
  | zero => exact absurd enough (Nat.not_lt_zero _)
  | succ steps inductionHypothesis =>
      have firstMember := rising.mem_of_known firstKnown
      have secondMember := rising.mem_of_known secondKnown
      have notEntry : ∀ {lower upper : BlockId}, upper ∈ order →
          order.idxOf upper < order.idxOf lower → lower ≠ entry := by
        rintro lower upper member before rfl
        have leads := (region.mem_iff upper).1 member
        have different : lower ≠ upper := fun same => Nat.lt_irrefl _ (same ▸ before)
        exact Nat.lt_asymm before
          (region.precedes lower upper leads (dominates_start upper) different)
      have notAbove : ∀ {lower upper dominator : BlockId}, upper ∈ order →
          order.idxOf upper < order.idxOf lower → Dominates flow.Edge entry dominator upper →
            dominator ≠ lower := by
        rintro lower upper dominator member before dominates rfl
        have leads := (region.mem_iff upper).1 member
        have different : dominator ≠ upper := fun same => Nat.lt_irrefl _ (same ▸ before)
        exact Nat.lt_asymm before (region.precedes dominator upper leads dominates different)
      rcases Nat.lt_trichotomy (order.idxOf first) (order.idxOf second) with before | same | after
      · rcases secondKnown with ⟨next, found⟩
        have lower := rising.idxOf_lt second next found (notEntry firstMember before)
        rcases inductionHypothesis firstKnown (rising.upper_known second next found) (by omega) with
          ⟨meet, meetEq, isMeet, dominated⟩
        refine ⟨meet, ?_, ?_, ?_⟩
        · rw [meet?_of_gt firstMember secondMember before found, meetEq]
        · refine (isMeet.symm.step found fun climbs => ?_).symm
          exact Nat.not_le_of_lt before (rising.idxOf_le climbs)
        · intro dominator dominatesFirst dominatesSecond
          exact dominated dominator dominatesFirst
            (bounded second next found (notEntry firstMember before) dominator dominatesSecond
              (notAbove firstMember before dominatesFirst))
      · obtain rfl := (List.idxOf_inj firstMember).1 same
        refine ⟨first, by rw [meet?, if_pos rfl], ?_, fun _ dominates _ => dominates⟩
        refine ⟨fun other member => ?_, fun upper climbs => climbs first (by simp)⟩
        rw [show other = first by simpa using member]
        exact .refl
      · rcases firstKnown with ⟨next, found⟩
        have lower := rising.idxOf_lt first next found (notEntry secondMember after)
        rcases inductionHypothesis (rising.upper_known first next found) secondKnown (by omega) with
          ⟨meet, meetEq, isMeet, dominated⟩
        refine ⟨meet, ?_, ?_, ?_⟩
        · rw [meet?_of_lt firstMember secondMember after found, meetEq]
        · refine isMeet.step found fun climbs => ?_
          exact Nat.not_le_of_lt after (rising.idxOf_le climbs)
        · intro dominator dominatesFirst dominatesSecond
          exact dominated dominator
            (bounded first next found (notEntry secondMember after) dominator dominatesFirst
              (notAbove secondMember after dominatesSecond)) dominatesSecond

/-! ## Improving one candidate -/

theorem exists_foldlM_meet? (region : flow.Region entry order)
    (rising : Rising entry order candidates) (bounded : flow.Bounded entry candidates)
    (rest : List BlockId) {blocks : List BlockId} {start : BlockId}
    (restKnown : ∀ block ∈ rest, ∃ next, candidates.find? block = some next)
    (startKnown : ∃ next, candidates.find? start = some next)
    (isMeet : IsMeet candidates blocks start) :
    ∃ meet, rest.foldlM (fun candidate predecessor =>
        meet? order candidates (2 * order.length) predecessor candidate) start = some meet ∧
      IsMeet candidates (blocks ++ rest) meet ∧
      (∃ next, candidates.find? meet = some next) ∧
      ∀ dominator, Dominates flow.Edge entry dominator start →
        (∀ block ∈ rest, Dominates flow.Edge entry dominator block) →
          Dominates flow.Edge entry dominator meet := by
  induction rest generalizing blocks start with
  | nil =>
      refine ⟨start, rfl, ?_, startKnown, fun _ dominates _ => dominates⟩
      rw [List.append_nil]
      exact isMeet
  | cons block rest inductionHypothesis =>
      have blockKnown := restKnown block List.mem_cons_self
      have blockLt := List.idxOf_lt_length_of_mem (rising.mem_of_known blockKnown)
      have startLt := List.idxOf_lt_length_of_mem (rising.mem_of_known startKnown)
      have enough : order.idxOf block + order.idxOf start < 2 * order.length := by omega
      rcases exists_meet? region rising bounded blockKnown startKnown enough with ⟨nearer, nearerEq, nearest, dominatedNearer⟩
      have nearerKnown := rising.known (nearest.climbs block (by simp)) blockKnown
      rcases inductionHypothesis (fun other member => restKnown other (List.mem_cons_of_mem _ member))
        nearerKnown (isMeet.concat nearest) with ⟨meet, meetEq, isMeetAll, known, dominated⟩
      refine ⟨meet, ?_, ?_, known, ?_⟩
      · rw [List.foldlM_cons, nearerEq]
        exact meetEq
      · rwa [List.append_assoc] at isMeetAll
      · intro dominator dominatesStart dominatesRest
        refine dominated dominator ?_ fun other member =>
          dominatesRest other (List.mem_cons_of_mem _ member)
        exact dominatedNearer dominator (dominatesRest block List.mem_cons_self) dominatesStart

/-- The predecessors of a block that have candidates. -/
def ready (flow : ControlFlow) (candidates : Candidates) (block : BlockId) : List BlockId :=
  (flow.predecessors block).filter fun block => (candidates.find? block).isSome

theorem mem_ready (coherent : flow.Coherent) {predecessor : BlockId} :
    predecessor ∈ flow.ready candidates block ↔
      flow.Edge predecessor block ∧ ∃ next, candidates.find? predecessor = some next := by
  rw [ready, List.mem_filter, coherent.mem_predecessors, Option.isSome_iff_exists]

/-- A strict dominator of a block dominates its predecessors. -/
theorem dominates_predecessor {dominator predecessor : BlockId} (taken : flow.Edge predecessor block)
    (dominates : Dominates flow.Edge entry dominator block) (strict : dominator ≠ block) :
    Dominates flow.Edge entry dominator predecessor := by
  intro earlier steps
  exact (List.mem_cons.1 (dominates _ (steps.step taken))).resolve_left strict

theorem improve_of_ready {first : BlockId} {rest : List BlockId}
    (readyEq : flow.ready candidates block = first :: rest) :
    flow.improve order candidates block =
      (rest.foldlM (fun candidate predecessor =>
        meet? order candidates (2 * order.length) predecessor candidate) first).map
          (candidates.insert block) := by
  rw [ready] at readyEq
  rw [improve, readyEq]
  exact Option.map_eq_bind.symm

theorem exists_improve (coherent : flow.Coherent) (region : flow.Region entry order)
    (rising : Rising entry order candidates) (bounded : flow.Bounded entry candidates)
    {predecessor : BlockId} (taken : flow.Edge predecessor block)
    (known : ∃ next, candidates.find? predecessor = some next) :
    ∃ meet, flow.improve order candidates block = some (candidates.insert block meet) ∧
      IsMeet candidates (flow.ready candidates block) meet ∧
      (∃ next, candidates.find? meet = some next) ∧
      ∀ dominator, Dominates flow.Edge entry dominator block → dominator ≠ block →
        Dominates flow.Edge entry dominator meet := by
  have member := (mem_ready coherent).2 ⟨taken, known⟩
  have readyIff := @mem_ready flow block candidates coherent
  cases readyEq : flow.ready candidates block with
  | nil =>
      rw [readyEq] at member
      contradiction
  | cons first rest =>
      rw [readyEq] at readyIff
      rcases exists_foldlM_meet? region rising bounded rest
        (fun other member => (readyIff.1 (List.mem_cons_of_mem _ member)).2)
        (readyIff.1 List.mem_cons_self).2 (IsMeet.singleton candidates first) with
        ⟨meet, meetEq, isMeet, meetKnown, dominated⟩
      refine ⟨meet, ?_, isMeet, meetKnown, ?_⟩
      · rw [improve_of_ready readyEq, meetEq]
        rfl
      · intro dominator dominates strict
        exact dominated dominator
          (dominates_predecessor (readyIff.1 List.mem_cons_self).1 dominates strict)
          fun other member => dominates_predecessor
            (readyIff.1 (List.mem_cons_of_mem _ member)).1 dominates strict

/-! ## What a change leaves of the chains -/

section Change

variable {changed meet : BlockId}

theorem find?_insert_of_ne (different : block ≠ changed) :
    (candidates.insert changed meet).find? block = candidates.find? block := by
  rw [Table.find?_insert, if_neg different]

theorem find?_insert_self (candidates : Candidates) (changed meet : BlockId) :
    (candidates.insert changed meet).find? changed = some meet := by
  rw [Table.find?_insert, if_pos rfl]

/-- A chain that begins before a block is not concerned by a change of that block. -/
theorem climbs_insert_of_lt (rising : Rising entry order candidates)
    (before : order.idxOf block < order.idxOf changed) (climbs : Climbs candidates block upper) :
    Climbs (candidates.insert changed meet) block upper := by
  induction climbs with
  | refl => exact .refl
  | @tail middle upper rest taken inductionHypothesis =>
      refine inductionHypothesis.tail ?_
      have lower := rising.idxOf_le rest
      rw [find?_insert_of_ne ?_, taken]
      rintro rfl
      omega

/-- A chain that ends where a block stands or after it is not concerned either. -/
theorem climbs_insert_of_le (rising : Rising entry order candidates) (notEntry : changed ≠ entry)
    (after : order.idxOf changed ≤ order.idxOf upper) (climbs : Climbs candidates block upper) :
    Climbs (candidates.insert changed meet) block upper := by
  induction climbs using ReflTransGen.head_induction_on with
  | refl => exact .refl
  | @head lower next taken rest inductionHypothesis =>
      refine .head ?_ inductionHypothesis
      rw [find?_insert_of_ne ?_, taken]
      rintro rfl
      have above := rising.idxOf_lt lower next taken notEntry
      have further := rising.idxOf_le rest
      omega

theorem find?_insert_eq_some : (candidates.insert changed meet).find? block = some upper ↔
    (block = changed ∧ upper = meet) ∨
      (block ≠ changed ∧ candidates.find? block = some upper) := by
  by_cases same : block = changed
  · subst same
    rw [find?_insert_self]
    simp [eq_comm]
  · rw [find?_insert_of_ne same]
    simp [same]

theorem known_insert (known : ∃ next, candidates.find? block = some next) :
    ∃ next, (candidates.insert changed meet).find? block = some next := by
  rw [Table.find?_insert]
  split
  next => exact ⟨meet, rfl⟩
  next => exact known

theorem mem_ready_insert (coherent : flow.Coherent) {predecessor : BlockId}
    (ready : predecessor ∈ flow.ready candidates block) :
    predecessor ∈ flow.ready (candidates.insert changed meet) block := by
  rw [mem_ready coherent] at ready ⊢
  exact ⟨ready.1, known_insert ready.2⟩

/-- A block moves up if its new candidate comes before it and is on the chain from its old
one, if it has one. -/
structure MovesUp (entry : BlockId) (order : List BlockId) (candidates : Candidates)
    (changed meet : BlockId) : Prop where
  member : changed ∈ order
  notEntry : changed ≠ entry
  above : order.idxOf meet < order.idxOf changed
  known : ∃ next, candidates.find? meet = some next
  up : ∀ old, candidates.find? changed = some old → Climbs candidates old meet

theorem MovesUp.rising (moves : MovesUp entry order candidates changed meet)
    (rising : Rising entry order candidates) :
    Rising entry order (candidates.insert changed meet) where
  entry_eq := (find?_insert_of_ne (Ne.symm moves.notEntry)).trans rising.entry_eq
  mem_order block upper found := by
    rcases find?_insert_eq_some.1 found with ⟨rfl, -⟩ | ⟨-, old⟩
    · exact moves.member
    · exact rising.mem_order block upper old
  upper_known block upper found := by
    rcases find?_insert_eq_some.1 found with ⟨-, rfl⟩ | ⟨-, old⟩
    · exact known_insert moves.known
    · exact known_insert (rising.upper_known block upper old)
  idxOf_lt block upper found different := by
    rcases find?_insert_eq_some.1 found with ⟨rfl, rfl⟩ | ⟨-, old⟩
    · exact moves.above
    · exact rising.idxOf_lt block upper old different

/-- If a block moves up, chains lose blocks only. -/
theorem MovesUp.climbs_of_insert (moves : MovesUp entry order candidates changed meet)
    (rising : Rising entry order candidates)
    (start : ∃ next, candidates.find? block = some next)
    (climbs : Climbs (candidates.insert changed meet) block upper) :
    Climbs candidates block upper := by
  induction climbs using ReflTransGen.head_induction_on with
  | refl => exact .refl
  | @head lower next taken _ inductionHypothesis =>
      rcases find?_insert_eq_some.1 taken with ⟨rfl, rfl⟩ | ⟨-, old⟩
      · rcases start with ⟨before, found⟩
        exact .head found ((moves.up before found).trans (inductionHypothesis moves.known))
      · exact .head old (inductionHypothesis (rising.upper_known lower next old))

end Change

/-! ## One round -/

/-- No candidate of a block is lower than one it had before. -/
def Lifts (order : List BlockId) (before after : Candidates) : Prop :=
  ∀ block upper, before.find? block = some upper →
    ∃ higher, after.find? block = some higher ∧ order.idxOf higher ≤ order.idxOf upper

theorem Lifts.refl (order : List BlockId) (candidates : Candidates) :
    Lifts order candidates candidates :=
  fun _ upper found => ⟨upper, found, Nat.le_refl _⟩

theorem Lifts.trans {one two three : Candidates} (first : Lifts order one two)
    (second : Lifts order two three) : Lifts order one three := by
  intro block upper found
  rcases first block upper found with ⟨higher, foundHigher, le⟩
  rcases second block higher foundHigher with ⟨highest, foundHighest, further⟩
  exact ⟨highest, foundHighest, Nat.le_trans further le⟩

/-- What holds in a round before the block at a place is improved: what all predecessors of
a block lead to is on the chain from its candidate, and the candidate is on the chain
from the block's gate, a predecessor that comes earlier, unless only the gate has been
improved in this round. -/
structure Round (flow : ControlFlow) (entry : BlockId) (order : List BlockId)
    (gate : BlockId → BlockId) (place : Nat) (candidates : Candidates) : Prop
    extends Rising entry order candidates where
  bounded : flow.Bounded entry candidates
  reached : ∀ block ∈ order, order.idxOf block < place →
    ∃ upper, candidates.find? block = some upper
  closed : ∀ block upper, candidates.find? block = some upper → block ≠ entry → ∀ higher,
    (∀ predecessor ∈ flow.ready candidates block, Climbs candidates predecessor higher) →
      Climbs candidates upper higher
  gated : ∀ block upper, candidates.find? block = some upper → block ≠ entry →
    (order.idxOf block < place ∨ place ≤ order.idxOf upper) →
      Climbs candidates (gate block) upper

/-- A block's gate is a predecessor that comes earlier. -/
def IsGate (flow : ControlFlow) (order : List BlockId) (gate : BlockId → BlockId)
    (block : BlockId) : Prop :=
  gate block ∈ order ∧ flow.Edge (gate block) block ∧
    order.idxOf (gate block) < order.idxOf block

theorem Region.exists_gates (region : flow.Region entry order) :
    ∃ gate : BlockId → BlockId, ∀ block ∈ order, block ≠ entry →
      flow.IsGate order gate block := by
  have earlier : ∀ block, ∃ earlier, block ∈ order → block ≠ entry → earlier ∈ order ∧
      flow.Edge earlier block ∧ order.idxOf earlier < order.idxOf block := by
    intro block
    by_cases inside : block ∈ order ∧ block ≠ entry
    · rcases region.exists_earlier block inside.1 inside.2 with ⟨earlier, gate⟩
      exact ⟨earlier, fun _ _ => gate⟩
    · exact ⟨block, fun listed different => absurd ⟨listed, different⟩ inside⟩
  choose gate isGate using earlier
  exact ⟨gate, isGate⟩

/-- The candidate of a block is on the chains from all its predecessors. -/
def Stable (flow : ControlFlow) (candidates : Candidates) (block : BlockId) : Prop :=
  ∃ upper, candidates.find? block = some upper ∧
    ∀ predecessor ∈ flow.ready candidates block, Climbs candidates predecessor upper

variable {gate : BlockId → BlockId} {place : Nat}

theorem MovesUp.lifts {changed meet : BlockId}
    (moves : MovesUp entry order candidates changed meet)
    (rising : Rising entry order candidates) :
    Lifts order candidates (candidates.insert changed meet) := by
  intro block upper found
  by_cases same : block = changed
  · subst same
    exact ⟨meet, find?_insert_self candidates block meet, rising.idxOf_le (moves.up upper found)⟩
  · exact ⟨upper, (find?_insert_of_ne same).trans found, Nat.le_refl _⟩

section Step

variable {meet : BlockId} (coherent : flow.Coherent)
  (gates : ∀ block ∈ order, block ≠ entry → flow.IsGate order gate block)
  (round : Round flow entry order gate place candidates) (placeEq : order.idxOf block = place)

include coherent gates round placeEq

theorem Round.closed_insert (moves : MovesUp entry order candidates block meet)
    (isMeet : IsMeet candidates (flow.ready candidates block) meet) {other higher : BlockId}
    (found : (candidates.insert block meet).find? other = some upper) (different : other ≠ entry)
    (climbs : ∀ predecessor ∈ flow.ready (candidates.insert block meet) other,
      Climbs (candidates.insert block meet) predecessor higher) :
    Climbs (candidates.insert block meet) upper higher := by
  have climbsBefore : ∀ predecessor ∈ flow.ready candidates other,
      Climbs candidates predecessor higher := fun predecessor ready =>
    moves.climbs_of_insert round.toRising ((mem_ready coherent).1 ready).2
      (climbs predecessor (mem_ready_insert coherent ready))
  rcases find?_insert_eq_some.1 found with ⟨rfl, rfl⟩ | ⟨-, old⟩
  · exact climbs_insert_of_lt round.toRising moves.above (isMeet.first higher climbsBefore)
  · have climbsUpper := round.closed other upper old different higher climbsBefore
    by_cases before : order.idxOf upper < order.idxOf block
    · exact climbs_insert_of_lt round.toRising before climbsUpper
    · -- The block may have moved away from the chain, but then so has the gate.
      have later := Nat.le_of_not_lt before
      have upperKnown := round.upper_known other upper old
      have oldGate := round.gated other upper old different (.inr (placeEq ▸ later))
      have otherGate := (gates other (round.mem_order other upper old) different).2.1
      have newGate := climbs _ (mem_ready_insert coherent
        ((mem_ready coherent).2 ⟨otherGate, Rising.known_of_climbs oldGate upperKnown⟩))
      have keptGate : Climbs (candidates.insert block meet) (gate other) upper :=
        climbs_insert_of_le round.toRising moves.notEntry later oldGate
      rcases climbs_total keptGate newGate with forward | backward
      · exact forward
      · have downward := moves.climbs_of_insert round.toRising
          (round.known climbsUpper upperKnown) backward
        rw [round.climbs_antisymm upperKnown climbsUpper downward]
        exact .refl

omit coherent in
theorem Round.gated_insert (moves : MovesUp entry order candidates block meet)
    (gateClimbs : Climbs candidates (gate block) meet) {other : BlockId}
    (found : (candidates.insert block meet).find? other = some upper) (different : other ≠ entry)
    (side : order.idxOf other < place + 1 ∨ place + 1 ≤ order.idxOf upper) :
    Climbs (candidates.insert block meet) (gate other) upper := by
  rcases find?_insert_eq_some.1 found with ⟨rfl, rfl⟩ | ⟨changed, old⟩
  · exact climbs_insert_of_lt round.toRising (gates other moves.member different).2.2 gateClimbs
  · have member := round.mem_order other upper old
    have apart : order.idxOf other ≠ order.idxOf block :=
      fun equal => changed ((List.idxOf_inj member).1 equal)
    rcases side with before | after
    · have gateBefore := (gates other member different).2.2
      refine climbs_insert_of_lt round.toRising (by omega) ?_
      exact round.gated other upper old different (.inl (by omega))
    · refine climbs_insert_of_le round.toRising moves.notEntry (by omega) ?_
      exact round.gated other upper old different (.inr (by omega))

/-- Improving a block goes on with a round. -/
theorem Round.step (region : flow.Region entry order) (member : block ∈ order)
    (notEntry : block ≠ entry) :
    ∃ meet, flow.improve order candidates block = some (candidates.insert block meet) ∧
      Round flow entry order gate (place + 1) (candidates.insert block meet) ∧
      Lifts order candidates (candidates.insert block meet) ∧
      IsMeet candidates (flow.ready candidates block) meet := by
  rcases gates block member notEntry with ⟨gateMember, gateEdge, gateBefore⟩
  have gateKnown := round.reached (gate block) gateMember (placeEq ▸ gateBefore)
  rcases exists_improve coherent region round.toRising round.bounded gateEdge gateKnown with
    ⟨meet, improved, isMeet, meetKnown, dominated⟩
  have gateClimbs := isMeet.climbs _ ((mem_ready coherent).2 ⟨gateEdge, gateKnown⟩)
  have moves : MovesUp entry order candidates block meet := {
    member
    notEntry
    above := Nat.lt_of_le_of_lt (round.idxOf_le gateClimbs) gateBefore
    known := meetKnown
    up := fun old found => round.closed block old found notEntry meet isMeet.climbs }
  refine ⟨meet, improved, ?_, moves.lifts round.toRising, isMeet⟩
  exact {
    toRising := moves.rising round.toRising
    bounded := by
      intro other upper found different dominator dominates strict
      rcases find?_insert_eq_some.1 found with ⟨rfl, rfl⟩ | ⟨-, old⟩
      · exact dominated dominator dominates strict
      · exact round.bounded other upper old different dominator dominates strict
    reached := by
      intro other otherMember before
      by_cases same : other = block
      · exact ⟨meet, same ▸ find?_insert_self candidates block meet⟩
      · have apart : order.idxOf other ≠ order.idxOf block :=
          fun equal => same ((List.idxOf_inj otherMember).1 equal)
        exact known_insert (round.reached other otherMember (by omega))
    closed := fun _ _ found different _ climbs =>
      round.closed_insert coherent gates placeEq moves isMeet found different climbs
    gated := fun _ _ found different side =>
      round.gated_insert gates placeEq moves gateClimbs found different side }

end Step

/-- A round passes over the entry. -/
theorem Round.skip (round : Round flow entry order gate place candidates)
    (placeEq : order.idxOf entry = place) :
    Round flow entry order gate (place + 1) candidates where
  toRising := round.toRising
  bounded := round.bounded
  reached block blockMember before := by
    by_cases same : block = entry
    · exact ⟨entry, same ▸ round.entry_eq⟩
    · have apart : order.idxOf block ≠ order.idxOf entry :=
        fun equal => same ((List.idxOf_inj blockMember).1 equal)
      exact round.reached block blockMember (by omega)
  closed := round.closed
  gated block upper found different side := by
    have apart : order.idxOf block ≠ order.idxOf entry :=
      fun equal => different ((List.idxOf_inj (round.mem_order block upper found)).1 equal)
    exact round.gated block upper found different (by omega)

theorem stable_congr {other : Candidates} (same : ∀ block, other.find? block = candidates.find? block)
    (stable : flow.Stable other block) : flow.Stable candidates block := by
  rcases stable with ⟨upper, found, climbs⟩
  have climbsEq : Climbs other = Climbs candidates := by
    unfold Climbs
    simp only [same]
  refine ⟨upper, same block ▸ found, fun predecessor ready => ?_⟩
  rw [← climbsEq]
  apply climbs
  rw [ControlFlow.ready] at ready ⊢
  simpa only [same] using ready

/-- Candidates that have risen to what they were have not changed in between. -/
theorem Lifts.find?_eq {before middle after : Candidates}
    (middleRising : Rising entry order middle) (first : Lifts order before middle)
    (second : Lifts order middle after) (same : ∀ block, after.find? block = before.find? block)
    (block : BlockId) : middle.find? block = before.find? block := by
  cases found : before.find? block with
  | none =>
      cases later : middle.find? block with
      | none => rfl
      | some upper =>
          rcases second block upper later with ⟨higher, foundHigher, -⟩
          rw [same, found] at foundHigher
          contradiction
  | some upper =>
      rcases first block upper found with ⟨higher, foundHigher, up⟩
      rcases second block higher foundHigher with ⟨last, foundLast, further⟩
      rw [same, found] at foundLast
      cases foundLast
      have member := middleRising.mem_of_known (middleRising.upper_known block higher foundHigher)
      rw [foundHigher, (List.idxOf_inj member).1 (Nat.le_antisymm up further)]

/-- A round improves all candidates; if it changes none, every candidate is on the chains
from the predecessors of its block. -/
theorem Round.run (coherent : flow.Coherent) (region : flow.Region entry order)
    (gates : ∀ block ∈ order, block ≠ entry → flow.IsGate order gate block)
    (todo : List BlockId) {done : List BlockId} (orderEq : order = done ++ todo)
    (round : Round flow entry order gate done.length candidates) :
    ∃ next, (todo.filter (· ≠ entry)).foldlM (flow.improve order) candidates = some next ∧
      Round flow entry order gate order.length next ∧ Lifts order candidates next ∧
      ((∀ block, next.find? block = candidates.find? block) →
        ∀ block ∈ todo, block ≠ entry → flow.Stable candidates block) := by
  induction todo generalizing done candidates with
  | nil =>
      rw [List.append_nil] at orderEq
      exact ⟨candidates, rfl, orderEq ▸ round, .refl order candidates, by simp⟩
  | cons block todo inductionHypothesis =>
      have member : block ∈ order := orderEq ▸ List.mem_append_right _ List.mem_cons_self
      have fresh : block ∉ done := by
        have nodup := region.nodup
        rw [orderEq, List.nodup_append] at nodup
        exact fun again => nodup.2.2 block again block List.mem_cons_self rfl
      have placeEq : order.idxOf block = done.length := by
        rw [orderEq, List.idxOf_append_of_notMem fresh, List.idxOf_cons_self]
        rfl
      have split : order = (done ++ [block]) ++ todo := by simpa using orderEq
      have placeNext : (done ++ [block]).length = done.length + 1 := List.length_append
      by_cases same : block = entry
      · rcases inductionHypothesis split (placeNext ▸ round.skip (same ▸ placeEq))
          with ⟨next, run, last, lifts, rests⟩
        refine ⟨next, ?_, last, lifts, fun unchanged other otherMember different => ?_⟩
        · rw [List.filter_cons_of_neg (by simpa using same), run]
        · exact rests unchanged other
            ((List.mem_cons.1 otherMember).resolve_left fun equal => different (equal.trans same))
            different
      · rcases round.step coherent gates placeEq region member same with
          ⟨meet, improved, stepped, lifted, isMeet⟩
        rcases inductionHypothesis split (placeNext ▸ stepped) with ⟨next, run, last, lifts, rests⟩
        refine ⟨next, ?_, last, lifted.trans lifts, fun unchanged other otherMember different => ?_⟩
        · rw [List.filter_cons_of_pos (by simpa using same), List.foldlM_cons, improved]
          exact run
        · have kept := Lifts.find?_eq stepped.toRising lifted lifts unchanged
          rcases List.mem_cons.1 otherMember with rfl | later
          · refine ⟨meet, ?_, isMeet.climbs⟩
            rw [← kept, find?_insert_self]
          · refine stable_congr kept (rests (fun block => ?_) other later different)
            rw [unchanged, kept]

/-- After a round the next one may begin. -/
theorem Round.again (round : Round flow entry order gate order.length candidates) :
    Round flow entry order gate 0 candidates where
  toRising := round.toRising
  bounded := round.bounded
  reached _ _ before := absurd before (Nat.not_lt_zero _)
  closed := round.closed
  gated block upper found different _ := by
    refine round.gated block upper found different (.inl ?_)
    exact List.idxOf_lt_length_of_mem (round.mem_order block upper found)

/-- Before the first round only the entry has a candidate. -/
theorem Round.initial (flow : ControlFlow) (gate : BlockId → BlockId) (member : entry ∈ order) :
    Round flow entry order gate 0 (Table.empty.insert entry entry) := by
  have only : ∀ {block upper : BlockId},
      (Table.empty.insert entry entry : Candidates).find? block = some upper →
        block = entry ∧ upper = entry := by
    intro block upper found
    rw [Table.find?_insert] at found
    split at found
    next same => exact ⟨same, (Option.some.inj found).symm⟩
    next => contradiction
  have entryEq := find?_insert_self Table.empty entry entry
  constructor
  · constructor
    · exact entryEq
    · intro block upper found
      exact (only found).1 ▸ member
    · intro block upper found
      exact ⟨entry, (only found).2 ▸ entryEq⟩
    · intro block upper found different
      exact absurd (only found).1 different
  · intro block upper found different
    exact absurd (only found).1 different
  · intro block _ before
    exact absurd before (Nat.not_lt_zero _)
  · intro block upper found different
    exact absurd (only found).1 different
  · intro block upper found different
    exact absurd (only found).1 different

/-! ## Coming to rest -/

/-- How far a candidate can still rise. -/
def height (order : List BlockId) (candidates : Candidates) (block : BlockId) : Nat :=
  ((candidates.find? block).map order.idxOf).getD order.length

theorem height_le (rising : Rising entry order candidates) (block : BlockId) :
    height order candidates block ≤ order.length := by
  rw [height]
  cases found : candidates.find? block with
  | none => exact Nat.le_refl _
  | some upper =>
      exact Nat.le_of_lt (List.idxOf_lt_length_of_mem
        (rising.mem_of_known (rising.upper_known block upper found)))

theorem sum_height_le (rising : Rising entry order candidates) :
    (order.map (height order candidates)).sum ≤ order.length * order.length := by
  have le := List.sum_le_card_nsmul (order.map (height order candidates)) order.length
    fun value listed => by
      rcases List.mem_map.1 listed with ⟨block, -, rfl⟩
      exact height_le rising block
  rwa [List.length_map] at le

theorem Lifts.height_le {before after : Candidates} (rising : Rising entry order after)
    (lifts : Lifts order before after) (block : BlockId) :
    height order after block ≤ height order before block := by
  cases found : before.find? block with
  | none =>
      have bound := ControlFlow.height_le rising block
      rw [height.eq_1 order before, found]
      exact bound
  | some upper =>
      rcases lifts block upper found with ⟨higher, foundHigher, le⟩
      rw [height, height, found, foundHigher]
      exact le

/-- Candidates of the same height are the same. -/
theorem find?_eq_of_height_eq {before after : Candidates} (rising : Rising entry order before)
    (afterRising : Rising entry order after)
    (same : height order after block = height order before block) :
    after.find? block = before.find? block := by
  have inside : ∀ {candidates : Candidates} {upper : BlockId}, Rising entry order candidates →
      candidates.find? block = some upper → upper ∈ order :=
    fun rising found => rising.mem_of_known (rising.upper_known _ _ found)
  rw [height, height] at same
  cases found : before.find? block with
  | none =>
      cases foundAfter : after.find? block with
      | none => rfl
      | some higher =>
          have lt := List.idxOf_lt_length_of_mem (inside afterRising foundAfter)
          rw [found, foundAfter] at same
          simp only [Option.map_some, Option.map_none, Option.getD_some, Option.getD_none] at same
          omega
  | some upper =>
      cases foundAfter : after.find? block with
      | none =>
          have lt := List.idxOf_lt_length_of_mem (inside rising found)
          rw [found, foundAfter] at same
          simp only [Option.map_some, Option.map_none, Option.getD_some, Option.getD_none] at same
          omega
      | some higher =>
          rw [found, foundAfter] at same
          simp only [Option.map_some, Option.getD_some] at same
          rw [(List.idxOf_inj (inside afterRising foundAfter)).1 same]

/-- A round that changes something leaves less room to rise. -/
theorem Lifts.sum_height_lt {before after : Candidates} (rising : Rising entry order before)
    (afterRising : Rising entry order after) (lifts : Lifts order before after)
    (changes : after ≠ before) :
    (order.map (height order after)).sum < (order.map (height order before)).sum := by
  refine List.sum_lt_sum _ _ (fun block _ => lifts.height_le afterRising block) ?_
  by_contra equal
  push Not at equal
  refine changes (Table.ext_find? fun block => ?_)
  by_cases member : block ∈ order
  · refine find?_eq_of_height_eq rising afterRising ?_
    exact Nat.le_antisymm (lifts.height_le afterRising block) (equal block member)
  · have unknown : ∀ {candidates : Candidates}, Rising entry order candidates →
        candidates.find? block = none := by
      intro candidates rising
      cases found : candidates.find? block with
      | none => rfl
      | some upper => exact absurd (rising.mem_order block upper found) member
    rw [unknown afterRising, unknown rising]

/-- On chains of stable candidates, there are only dominators. -/
theorem dominates_of_climbs (coherent : flow.Coherent) (region : flow.Region entry order)
    (rising : Rising entry order candidates)
    (stable : ∀ block ∈ order, block ≠ entry → flow.Stable candidates block)
    (climbs : Climbs candidates block upper) : Dominates flow.Edge entry upper block := by
  intro earlier steps
  generalize equal : block :: earlier = path at steps
  induction steps generalizing block upper earlier with
  | start =>
      cases equal
      exact List.mem_singleton.2 (rising.eq_of_climbs_entry climbs)
  | @step predecessor target earlier steps taken inductionHypothesis =>
      cases equal
      rcases climbs.cases_head with rfl | ⟨next, found, rest⟩
      · exact List.mem_cons_self
      · by_cases same : target = entry
        · subst same
          exact List.mem_cons.2 (.inl (rising.eq_of_climbs_entry climbs))
        · have leads : Leads flow.Edge entry predecessor := ⟨_, steps⟩
          rcases stable target (rising.mem_order target next found) same with
            ⟨candidate, candidateEq, onChains⟩
          obtain rfl := Option.some.inj (found.symm.trans candidateEq)
          have predecessorKnown : ∃ upper, candidates.find? predecessor = some upper := by
            by_cases root : predecessor = entry
            · exact ⟨entry, root ▸ rising.entry_eq⟩
            · rcases stable predecessor ((region.mem_iff predecessor).2 leads) root with
                ⟨upper, upperEq, -⟩
              exact ⟨upper, upperEq⟩
          have onward := onChains predecessor
            ((mem_ready coherent).2 ⟨taken, predecessorKnown⟩)
          exact List.mem_cons_of_mem _ (inductionHypothesis (onward.trans rest) _ rfl)

/-- The computation of immediate dominators ends, looks up nothing that is not there, and
finds them. -/
theorem exists_immediateDominators? (coherent : flow.Coherent) (known : entry < flow.size) :
    ∃ dominators, flow.immediateDominators? entry = some dominators ∧
      ∀ block, Leads flow.Edge entry block → block ≠ entry →
        ∃ dominator, dominators.find? block = some dominator ∧
          IsImmediateDominator flow.Edge entry dominator block := by
  have region := region_explore coherent known
  rw [immediateDominators?]
  generalize (flow.explore entry).order = order at region
  have member : entry ∈ order := (region.mem_iff entry).2 (.refl _ entry)
  rcases region.exists_gates with ⟨gate, gates⟩
  have proceeds : ∀ candidates, Round flow entry order gate 0 candidates →
      ∃ next, flow.improveAll entry order candidates = some next ∧
        Round flow entry order gate 0 next ∧
        (next ≠ candidates → (order.map (height order next)).sum <
          (order.map (height order candidates)).sum) := by
    intro candidates round
    rcases Round.run coherent region gates order (List.nil_append order).symm round with
      ⟨next, run, last, lifts, -⟩
    exact ⟨next, run, last.again, lifts.sum_height_lt round.toRising last.toRising⟩
  have start := Round.initial flow gate member
  rcases Iteration.exists_untilStable proceeds start
    (Nat.lt_succ_of_le (sum_height_le start.toRising)) with
    ⟨dominators, lastEq, round, unchanged⟩
  refine ⟨dominators, lastEq, fun block leads different => ?_⟩
  have stable : ∀ block ∈ order, block ≠ entry → flow.Stable dominators block := by
    rcases Round.run coherent region gates order (List.nil_append order).symm round with
      ⟨next, run, -, -, rests⟩
    rw [improveAll] at unchanged
    cases unchanged.symm.trans run
    exact rests fun _ => rfl
  rcases stable block ((region.mem_iff block).2 leads) different with ⟨dominator, found, -⟩
  refine ⟨dominator, found, ?_, ?_, ?_⟩
  · exact dominates_of_climbs coherent region round.toRising stable (.single found)
  · rintro rfl
    exact Nat.lt_irrefl _ (round.idxOf_lt dominator dominator found different)
  · intro other dominates strict
    exact round.bounded block dominator found different other dominates strict

end EscapePlan.ControlFlow
