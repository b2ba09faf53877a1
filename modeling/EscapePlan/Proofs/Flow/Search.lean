import EscapePlan.Flow.Search
import EscapePlan.Proofs.Flow.Path
import Mathlib.Tactic.Tauto

/-!
# Depth-first search

A search sees exactly the nodes that a path leads to, and lists each of them once.  It
lists a node before every node that all paths reach through it only: while such a node
is on the trail, so is the one it depends on.  It lists before each node another one
from which it was entered.
-/

namespace EscapePlan

namespace Search

/-- The edges that a search follows: targets beyond the bound are ignored. -/
def Edge (size : Nat) (next : Nat → List Nat) (node target : Nat) : Prop :=
  target ∈ next node ∧ target < size

/-- What holds during a search: the trail is a path, the seen nodes are those on the trail
and those that were left, each once, and what a node leads to has been seen unless
it is still to be looked at.  A node that was left depends only on nodes that are
on the trail or were left after it, and was entered from one of them. -/
structure Invariant (size : Nat) (next : Nat → List Nat) (start : Nat)
    (trail : List (Nat × List Nat)) (seen : Array Bool) (order : List Nat) : Prop where
  size_eq : seen.size = size
  seen_iff : ∀ node, seen.getD node false = true ↔ node ∈ trail.map (·.1) ∨ node ∈ order
  nodup : (trail.map (·.1) ++ order).Nodup
  path : trail = [] ∨ Path (Edge size next) start (trail.map (·.1))
  leads : ∀ node ∈ order, Path.Leads (Edge size next) start node
  begun : start ∈ trail.map (·.1) ∨ start ∈ order
  pending : ∀ entry ∈ trail, ∀ target ∈ entry.2, target ∈ next entry.1
  opened : ∀ entry ∈ trail, ∀ target, Edge size next entry.1 target →
    target ∈ entry.2 ∨ seen.getD target false = true
  closed : ∀ node ∈ order, ∀ target, Edge size next node target → seen.getD target false = true
  precedes : ∀ later node earlier, order = later ++ node :: earlier → ∀ dominator,
    Path.Dominates (Edge size next) start dominator node → dominator ≠ node →
      dominator ∈ later ∨ dominator ∈ trail.map (·.1)
  entered : ∀ later node earlier, order = later ++ node :: earlier → node ≠ start →
    ∃ previous, Edge size next previous node ∧
      (previous ∈ later ∨ previous ∈ trail.map (·.1))

variable {size : Nat} {next : Nat → List Nat} {start : Nat} {trail : List (Nat × List Nat)}
  {seen : Array Bool} {order : List Nat} {node target : Nat} {targets : List Nat}

/-- Leaving a node moves it from the trail to the front of the order. -/
theorem Invariant.leave (invariant : Invariant size next start ((node, []) :: trail) seen order) :
    Invariant size next start trail seen (node :: order) where
  size_eq := invariant.size_eq
  seen_iff other := by
    rw [invariant.seen_iff other, List.map_cons, List.mem_cons, List.mem_cons]
    tauto
  nodup := by
    refine (List.perm_middle.nodup_iff).2 ?_
    exact invariant.nodup
  path := by
    rcases invariant.path with empty | path
    · contradiction
    · cases trail with
      | nil => exact .inl rfl
      | cons entry trail =>
          cases path with
          | step path _ => exact .inr path
  leads other member := by
    rcases List.mem_cons.1 member with rfl | old
    · rcases invariant.path with empty | path
      · contradiction
      · exact ⟨_, path⟩
    · exact invariant.leads other old
  begun := by
    rcases invariant.begun with onTrail | left
    · rcases List.mem_cons.1 onTrail with rfl | below
      · exact .inr List.mem_cons_self
      · exact .inl below
    · exact .inr (List.mem_cons_of_mem _ left)
  pending entry member := invariant.pending entry (List.mem_cons_of_mem _ member)
  opened entry member := invariant.opened entry (List.mem_cons_of_mem _ member)
  closed other member target taken := by
    rcases List.mem_cons.1 member with rfl | old
    · rcases invariant.opened (other, []) List.mem_cons_self target taken with pending | seen
      · contradiction
      · exact seen
    · exact invariant.closed other old target taken
  precedes later other earlier equal dominator dominates different := by
    cases later with
    | nil =>
        cases equal
        rcases invariant.path with empty | path
        · contradiction
        · rcases List.mem_cons.1 (dominates _ path) with same | below
          · exact absurd same different
          · exact .inr below
    | cons first later =>
        cases equal
        rcases invariant.precedes later other earlier rfl dominator dominates different with
          after | onTrail
        · exact .inl (List.mem_cons_of_mem _ after)
        · rcases List.mem_cons.1 onTrail with rfl | below
          · exact .inl List.mem_cons_self
          · exact .inr below
  entered later other earlier equal different := by
    cases later with
    | nil =>
        cases equal
        rcases invariant.path with empty | path
        · contradiction
        · cases trail with
          | nil =>
              cases path with
              | start => exact absurd rfl different
          | cons entry trail =>
              cases path with
              | step _ taken => exact ⟨entry.1, taken, .inr List.mem_cons_self⟩
    | cons first later =>
        cases equal
        rcases invariant.entered later other earlier rfl different with ⟨previous, taken, side⟩
        refine ⟨previous, taken, ?_⟩
        rcases side with after | onTrail
        · exact .inl (List.mem_cons_of_mem _ after)
        · rcases List.mem_cons.1 onTrail with rfl | below
          · exact .inl List.mem_cons_self
          · exact .inr below

/-- A target that was seen already, or is no node, needs no look. -/
theorem Invariant.pass
    (invariant : Invariant size next start ((node, target :: targets) :: trail) seen order)
    (known : target < seen.size → seen.getD target false = true) :
    Invariant size next start ((node, targets) :: trail) seen order where
  size_eq := invariant.size_eq
  seen_iff := invariant.seen_iff
  nodup := invariant.nodup
  path := .inr (invariant.path.resolve_left (by simp))
  leads := invariant.leads
  begun := invariant.begun
  pending entry member other waiting := by
    rcases List.mem_cons.1 member with rfl | below
    · exact invariant.pending _ List.mem_cons_self other (List.mem_cons_of_mem _ waiting)
    · exact invariant.pending entry (List.mem_cons_of_mem _ below) other waiting
  opened entry member other taken := by
    rcases List.mem_cons.1 member with rfl | below
    · rcases invariant.opened _ List.mem_cons_self other taken with pending | seen
      · rcases List.mem_cons.1 pending with rfl | pending
        · exact .inr (known (invariant.size_eq ▸ taken.2))
        · exact .inl pending
      · exact .inr seen
    · exact invariant.opened entry (List.mem_cons_of_mem _ below) other taken
  closed := invariant.closed
  precedes := invariant.precedes
  entered := invariant.entered

/-- A target that was not seen extends the trail. -/
theorem Invariant.enter
    (invariant : Invariant size next start ((node, target :: targets) :: trail) seen order)
    (known : target < seen.size)
    (unseen : seen[target] = false) :
    Invariant size next start ((target, next target) :: (node, targets) :: trail)
      (seen.set target true) order := by
  have seenAfter : ∀ other, (seen.set target true).getD other false = true ↔
      other = target ∨ seen.getD other false = true := by
    intro other
    simp only [Array.getD_eq_getD_getElem?, Array.getElem?_set]
    by_cases same : target = other
    · subst same
      simp
    · rw [if_neg same]
      constructor
      · exact Or.inr
      · rintro (equal | old)
        · exact absurd equal.symm same
        · exact old
  have notSeen : ¬ seen.getD target false = true := by
    simp [Array.getD_eq_getD_getElem?, known, unseen]
  have fresh : target ∉ ((node, targets) :: trail).map (·.1) ++ order := by
    intro member
    exact notSeen ((invariant.seen_iff target).2 (List.mem_append.1 member))
  have taken : target ∈ next node :=
    invariant.pending _ List.mem_cons_self target List.mem_cons_self
  have path := invariant.path.resolve_left (by simp)
  constructor
  · rw [Array.size_set, invariant.size_eq]
  · intro other
    rw [seenAfter, invariant.seen_iff other, List.map_cons (l := _ :: _),
      List.mem_cons (b := target)]
    tauto
  · exact List.nodup_cons.2 ⟨fresh, invariant.nodup⟩
  · exact .inr (.step path ⟨taken, invariant.size_eq ▸ known⟩)
  · exact invariant.leads
  · exact invariant.begun.imp_left (List.mem_cons_of_mem _)
  · intro entry member other waiting
    rcases List.mem_cons.1 member with rfl | below
    · exact waiting
    · rcases List.mem_cons.1 below with rfl | deeper
      · exact invariant.pending _ List.mem_cons_self other (List.mem_cons_of_mem _ waiting)
      · exact invariant.pending entry (List.mem_cons_of_mem _ deeper) other waiting
  · intro entry member other step
    rw [seenAfter]
    rcases List.mem_cons.1 member with rfl | below
    · exact .inl step.1
    · rcases List.mem_cons.1 below with rfl | deeper
      · rcases invariant.opened _ List.mem_cons_self other step with pending | seen
        · rcases List.mem_cons.1 pending with rfl | pending
          · exact .inr (.inl rfl)
          · exact .inl pending
        · exact .inr (.inr seen)
      · exact (invariant.opened entry (List.mem_cons_of_mem _ deeper) other step).imp_right .inr
  · intro other member successor step
    exact (seenAfter successor).2 (.inr (invariant.closed other member successor step))
  · intro later other earlier equal dominator dominates different
    exact (invariant.precedes later other earlier equal dominator dominates different).imp_right
      (List.mem_cons_of_mem _)
  · intro later other earlier equal different
    rcases invariant.entered later other earlier equal different with ⟨previous, step, side⟩
    exact ⟨previous, step, side.imp_right (List.mem_cons_of_mem _)⟩

theorem Invariant.explore (invariant : Invariant size next start trail seen order) :
    Invariant size next start [] (Search.explore next trail seen order).seen
      (Search.explore next trail seen order).order := by
  fun_induction Search.explore next trail seen order with
  | case1 => exact invariant
  | case2 _ _ _ _ inductionHypothesis => exact inductionHypothesis invariant.leave
  | case3 _ _ _ _ _ _ known marked inductionHypothesis =>
      refine inductionHypothesis (invariant.pass fun _ => ?_)
      simp [Array.getD_eq_getD_getElem?, known, marked]
  | case4 _ _ _ _ _ _ known unmarked inductionHypothesis =>
      exact inductionHypothesis (invariant.enter known (Bool.eq_false_iff.2 unmarked))
  | case5 _ _ _ _ _ _ unknown inductionHypothesis =>
      exact inductionHypothesis (invariant.pass fun known => absurd known unknown)

theorem Invariant.initial (known : start < size) :
    Invariant size next start [(start, next start)]
      ((Array.replicate size false).setIfInBounds start true) [] where
  size_eq := by simp
  seen_iff node := by
    simp only [Array.getD_eq_getD_getElem?, Array.getElem?_setIfInBounds, Array.size_replicate]
    by_cases same : start = node
    · subst same
      simp [known]
    · by_cases inside : node < size
      · simp [same, inside, Ne.symm same]
      · simp [same, inside, Ne.symm same]
  nodup := by simp
  path := .inr .start
  leads node member := by contradiction
  begun := .inl List.mem_cons_self
  pending entry member target waiting := by
    rw [List.mem_singleton.1 member] at waiting ⊢
    exact waiting
  opened entry member target taken := by
    rw [List.mem_singleton.1 member] at taken ⊢
    exact .inl taken.1
  closed node member := by contradiction
  precedes later node earlier equal := by simp at equal
  entered later node earlier equal := by simp at equal

theorem invariant_search (next : Nat → List Nat) (known : start < size) :
    Invariant size next start [] (search size next start).seen (search size next start).order := by
  unfold search
  rw [if_pos known]
  exact (Invariant.initial known).explore

/-- A search sees a node exactly if a path leads to it. -/
theorem reaches_search (known : start < size) :
    (search size next start).reaches node = true ↔ Path.Leads (Edge size next) start node := by
  have invariant := invariant_search next known
  have seenIff : ∀ node, (search size next start).seen.getD node false = true ↔
      node ∈ (search size next start).order := by
    intro node
    rw [invariant.seen_iff node]
    simp
  rw [Outcome.reaches, seenIff]
  constructor
  · exact invariant.leads node
  · rw [Path.leads_iff_reflTransGen]
    intro reaches
    induction reaches with
    | refl => exact invariant.begun.resolve_left List.not_mem_nil
    | tail _ taken inductionHypothesis =>
        exact (seenIff _).1 (invariant.closed _ inductionHypothesis _ taken)

theorem mem_order_search (known : start < size) :
    node ∈ (search size next start).order ↔ Path.Leads (Edge size next) start node := by
  rw [← reaches_search known, Outcome.reaches, (invariant_search next known).seen_iff node]
  simp

/-- A search lists the dominators of a node before the node. -/
theorem precedes_search (known : start < size) {later earlier : List Nat}
    (order : (search size next start).order = later ++ node :: earlier) {dominator : Nat}
    (dominates : Path.Dominates (Edge size next) start dominator node)
    (different : dominator ≠ node) : dominator ∈ later :=
  ((invariant_search next known).precedes later node earlier order dominator dominates
    different).resolve_right List.not_mem_nil

/-- A search lists before each node but the start one that has an edge to it. -/
theorem entered_search (known : start < size) {later earlier : List Nat}
    (order : (search size next start).order = later ++ node :: earlier) (different : node ≠ start) :
    ∃ previous ∈ later, Edge size next previous node := by
  rcases (invariant_search next known).entered later node earlier order different with
    ⟨previous, taken, side⟩
  exact ⟨previous, side.resolve_right List.not_mem_nil, taken⟩

end Search

end EscapePlan
