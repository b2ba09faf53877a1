/-!
# Depth-first search

`search` explores a graph whose nodes are the numbers below some bound, along a
function that lists the targets of each node.  It answers which nodes were seen and
lists them in the order in which they were left, the last one first.
-/

namespace EscapePlan.Search

/-- The result of a search. -/
structure Outcome where
  /-- For each node, whether it was seen. -/
  seen : Array Bool
  /-- The seen nodes, the one left last first. -/
  order : List Nat
  deriving DecidableEq, Repr, Inhabited

/-- Whether a node was seen. -/
def Outcome.reaches (outcome : Outcome) (node : Nat) : Bool :=
  outcome.seen.getD node false

/-- The targets still to be looked at, and one for each node that is still to be
left. -/
def pending (trail : List (Nat × List Nat)) : Nat :=
  (trail.flatMap (·.2)).length + trail.length

/-- Continues a search.  The trail lists the nodes that were entered and not left
yet, the latest first, each with the targets still to be looked at. -/
def explore (next : Nat → List Nat) :
    List (Nat × List Nat) → Array Bool → List Nat → Outcome
  | [], seen, order => ⟨seen, order⟩
  | (node, []) :: trail, seen, order => explore next trail seen (node :: order)
  | (node, target :: targets) :: trail, seen, order =>
      if known : target < seen.size then
        if seen[target] then
          explore next ((node, targets) :: trail) seen order
        else
          explore next ((target, next target) :: (node, targets) :: trail)
            (seen.set target true) order
      else
        explore next ((node, targets) :: trail) seen order
termination_by trail seen _ => (seen.count false, pending trail)
decreasing_by
  · exact Prod.Lex.right _ (by simp [pending])
  · exact Prod.Lex.right _ (by simp [pending])
  · rename_i unseen
    refine Prod.Lex.left _ _ ?_
    have present : 0 < seen.count false :=
      Array.count_pos_iff.2 (by
        have := Array.getElem_mem known
        rwa [Bool.eq_false_iff.2 unseen] at this)
    have fewer : (seen.set target true).count false = seen.count false - 1 := by
      rw [Array.count_set, Bool.eq_false_iff.2 unseen]
      rfl
    omega
  · exact Prod.Lex.right _ (by simp [pending])

/-- Explores everything that can be reached from a node; nodes are the numbers
below `size`. -/
def search (size : Nat) (next : Nat → List Nat) (start : Nat) : Outcome :=
  if start < size then
    explore next [(start, next start)] ((Array.replicate size false).setIfInBounds start true) []
  else
    ⟨Array.replicate size false, []⟩

end EscapePlan.Search
