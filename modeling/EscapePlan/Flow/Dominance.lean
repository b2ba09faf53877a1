import EscapePlan.Flow.Basic
import EscapePlan.Flow.Search
import EscapePlan.Iteration

/-!
# Dominators and dominance frontiers

A block dominates another if control cannot get from the region entry to the second
without passing through the first.  While the immediate dominators of a region are
computed, its blocks have candidates for them.  A round takes the blocks in reverse
postorder and gives each one the first block where the chains of candidates from its
predecessors meet; rounds are repeated until one changes nothing.

The frontier of a block holds the blocks where its dominance ends: those with a
predecessor that it dominates and which it does not strictly dominate itself.  A join
goes up the dominator tree from each of its predecessors and enters the frontiers on the
way, until it comes to its own immediate dominator.
-/

namespace EscapePlan.ControlFlow

/-- Explores a region from its entry. -/
def explore (flow : ControlFlow) (entry : BlockId) : Search.Outcome :=
  Search.search flow.size flow.successors entry

/-- The number of a block in postorder, given the reverse postorder. -/
def postorderNumber? (order : List BlockId) (block : BlockId) : Option Nat :=
  if block ∈ order then some (order.length - (order.idxOf block + 1)) else none

/-- Candidates for the immediate dominators of blocks; a region entry is its own. -/
abbrev Candidates := Table BlockId

/-- The first block where the chains of candidates from two blocks meet: the block that
comes first in postorder goes on to its candidate until both are the same.  There is none
if a block without number or candidate is looked up, or if so many steps are not enough. -/
def meet? (order : List BlockId) (candidates : Candidates) :
    Nat → BlockId → BlockId → Option BlockId
  | 0, _, _ => none
  | steps + 1, first, second =>
      if first = second then some first
      else do
        let firstNumber ← postorderNumber? order first
        let secondNumber ← postorderNumber? order second
        if firstNumber < secondNumber then
          meet? order candidates steps (← candidates.find? first) second
        else if secondNumber < firstNumber then
          meet? order candidates steps first (← candidates.find? second)
        else none

/-- Gives a block the candidate that its predecessors lead to.  Predecessors that have no
candidate yet are passed over. -/
def improve (flow : ControlFlow) (order : List BlockId) (candidates : Candidates)
    (block : BlockId) : Option Candidates :=
  match (flow.predecessors block).filter fun block => (candidates.find? block).isSome with
  | [] => return candidates
  | first :: rest => do
      let candidate ← rest.foldlM (fun candidate predecessor =>
        meet? order candidates (2 * order.length) predecessor candidate) first
      return candidates.insert block candidate

/-- Improves the candidates of all blocks of a region but its entry, in reverse
postorder. -/
def improveAll (flow : ControlFlow) (entry : BlockId) (order : List BlockId)
    (candidates : Candidates) : Option Candidates :=
  (order.filter (· ≠ entry)).foldlM (flow.improve order) candidates

/-- The immediate dominators of the blocks of a region; the entry is listed as its own. -/
def immediateDominators? (flow : ControlFlow) (entry : BlockId) : Option Candidates :=
  let order := (flow.explore entry).order
  Iteration.untilStable (flow.improveAll entry order) (order.length * order.length + 1)
    (Table.empty.insert entry entry)

/-- Forgets all dominators. -/
def clearDominators (flow : ControlFlow) : ControlFlow :=
  { flow with
    blocks := flow.blocks.map fun block =>
      { block with idom := none, children := [], reachable := false } }

/-- Marks a block as reachable; unless it is the entry, it gets its immediate
dominator. -/
def settleBlock (entry : BlockId) (dominators : Candidates) (flow : ControlFlow)
    (block : BlockId) : ControlFlow :=
  flow.modifyBlock block fun found =>
    { found with
      reachable := true
      idom := if block = entry then found.idom else dominators.find? block }

/-- Makes a block a child of its immediate dominator. -/
def adopt (flow : ControlFlow) (block : BlockId) : ControlFlow :=
  match flow.idom? block with
  | none => flow
  | some parent =>
      flow.modifyBlock parent fun found => { found with children := found.children ++ [block] }

/-- Computes the dominator tree of one region. -/
def dominateRegion (flow : ControlFlow) (entry : BlockId) : ControlFlow :=
  let order := (flow.explore entry).order
  let dominators := (flow.immediateDominators? entry).getD .empty
  order.foldl adopt (order.foldl (settleBlock entry dominators) flow)

/-- Computes reachability and the dominator trees of all regions. -/
def computeDominators (flow : ControlFlow) : ControlFlow :=
  flow.entries.foldl dominateRegion flow.clearDominators

/-- The blocks from a block up the dominator tree, at most so many. -/
def ancestry (flow : ControlFlow) : Nat → BlockId → List BlockId
  | 0, _ => []
  | steps + 1, block =>
      block ::
        match flow.idom? block with
        | none => []
        | some parent => flow.ancestry steps parent

/-- Whether a block dominates another in the computed trees. -/
def dominates (flow : ControlFlow) (first second : BlockId) : Bool :=
  (flow.ancestry (flow.size + 1) second).contains first

/-- The blocks from a predecessor of a join up the dominator tree, as long as their
dominance ends at the join. -/
def runners (flow : ControlFlow) (join predecessor : BlockId) : List BlockId :=
  let stop := (flow.idom? join).getD join
  (flow.ancestry flow.size predecessor).takeWhile (· ≠ stop)

/-- Puts a block into a frontier, once. -/
def extendFrontier (join : BlockId) (flow : ControlFlow) (block : BlockId) : ControlFlow :=
  flow.modifyBlock block fun found =>
    if found.frontier.contains join then found
    else { found with frontier := found.frontier ++ [join] }

/-- Puts a reachable block into the frontiers it belongs to. -/
def spreadJoin (flow : ControlFlow) (join : BlockId) : ControlFlow :=
  if flow.isReachable join then
    (((flow.predecessors join).filter flow.isReachable).flatMap (flow.runners join)).foldl
      (extendFrontier join) flow
  else flow

/-- Forgets all frontiers. -/
def clearFrontiers (flow : ControlFlow) : ControlFlow :=
  { flow with blocks := flow.blocks.map fun block => { block with frontier := [] } }

/-- Puts all reachable blocks into the frontiers they belong to. -/
def spreadJoins (flow : ControlFlow) : ControlFlow :=
  (List.range flow.size).foldl spreadJoin flow

/-- Computes the dominance frontiers from the dominator trees: joins are spread until
nothing changes, which takes two rounds at most. -/
def computeFrontiers (flow : ControlFlow) : ControlFlow :=
  (Iteration.untilStable (fun flow => some flow.spreadJoins) 2 flow.clearFrontiers).getD
    flow.clearFrontiers

end EscapePlan.ControlFlow
