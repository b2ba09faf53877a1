import EscapePlan.Flow.Dominance

/-!
# Placing phis

A variable needs a phi wherever different definitions of it may meet: in the
iterated dominance frontier of the reachable blocks that define it, since a phi is a
definition in turn.  Blocks that have a phi of the variable already get no other.
-/

namespace EscapePlan.ControlFlow

/-- The variables that are defined somewhere, in ascending order. -/
def definedVariables (flow : ControlFlow) : List VarId :=
  ((flow.blocks.toList.flatMap (·.definitions)).foldl
    (fun table definition => table.insert definition.var ()) (Table.empty : Table Unit)).keys

/-- The reachable blocks that define a variable, in ascending order. -/
def definingBlocks (flow : ControlFlow) (var : VarId) : List BlockId :=
  (List.range flow.size).filter fun block =>
    (flow.block? block).any fun found => found.reachable && found.defines var

/-- The blocks that have a phi of a variable. -/
def blocksWithPhi (flow : ControlFlow) (var : VarId) : List BlockId :=
  (flow.phis.toList.filter (·.var = var)).map (·.block)

/-- The state of placing the phis of one variable. -/
structure Spread where
  /-- Blocks that define the variable and whose frontier is still to be visited; the
  next one is first. -/
  work : List BlockId
  /-- Blocks that have been in the work list. -/
  seen : List BlockId
  withPhi : List BlockId
  /-- Blocks that get a phi, the latest first. -/
  placed : List BlockId
  deriving DecidableEq, Repr, Inhabited

namespace Spread

/-- Places a phi in a block that has none. -/
def visit (spread : Spread) (block : BlockId) : Spread :=
  if spread.withPhi.contains block then spread
  else
    let spread := { spread with
      withPhi := block :: spread.withPhi
      placed := block :: spread.placed }
    if spread.seen.contains block then spread
    else { spread with seen := block :: spread.seen, work := block :: spread.work }

/-- Visits the frontiers of the blocks in the work list.  Every block enters the list
at most once, so as many steps as there are blocks are enough. -/
def run (frontier : BlockId → List BlockId) : Nat → Spread → Spread
  | 0, spread => spread
  | steps + 1, spread =>
      match spread.work with
      | [] => spread
      | block :: work =>
          run frontier steps ((frontier block).foldl visit { spread with work })

end Spread

/-- The blocks that need a new phi of a variable, in the order of placement. -/
def phiBlocks (flow : ControlFlow) (var : VarId) : List BlockId :=
  let sites := flow.definingBlocks var
  (Spread.run flow.frontier flow.size
    ⟨sites.reverse, sites, flow.blocksWithPhi var, []⟩).placed.reverse

/-- All blocks and variables that need a new phi. -/
def newPhis (flow : ControlFlow) : List (BlockId × VarId) :=
  flow.definedVariables.flatMap fun var => (flow.phiBlocks var).map fun block => (block, var)

end EscapePlan.ControlFlow
