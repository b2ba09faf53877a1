import Mathlib.Logic.Relation
import Mathlib.Tactic.ByContra

/-!
# Paths and dominators

A node dominates another if every path to the second passes through the first.  The
dominators of a node lie on one chain: of two of them, the one that a path meets last
is dominated by the other, for otherwise the way to it could be exchanged for one
that avoids the other.
-/

namespace EscapePlan

/-- The paths of a graph that begin at a node.  A path is listed backwards, so that it
grows at the head. -/
inductive Path (edge : Nat → Nat → Prop) (start : Nat) : List Nat → Prop where
  | start : Path edge start [start]
  | step {node target : Nat} {earlier : List Nat} :
      Path edge start (node :: earlier) → edge node target →
      Path edge start (target :: node :: earlier)

namespace Path

variable {edge : Nat → Nat → Prop} {start : Nat}

/-- Some path leads to a node. -/
def Leads (edge : Nat → Nat → Prop) (start node : Nat) : Prop :=
  ∃ earlier, Path edge start (node :: earlier)

/-- Every path to a node passes through another one. -/
def Dominates (edge : Nat → Nat → Prop) (start dominator node : Nat) : Prop :=
  ∀ earlier, Path edge start (node :: earlier) → dominator ∈ node :: earlier

theorem mono {other : Nat → Nat → Prop}
    (weaker : ∀ node target, edge node target → other node target)
    {path : List Nat} (steps : Path edge start path) : Path other start path := by
  induction steps with
  | start => exact .start
  | step _ taken inductionHypothesis => exact .step inductionHypothesis (weaker _ _ taken)

/-- What a path does before its last step. -/
theorem before {later earlier : List Nat} {last node : Nat}
    (steps : Path edge start (last :: later ++ node :: earlier)) :
    Path edge start (later ++ node :: earlier) := by
  cases later with
  | nil =>
      cases steps with
      | step steps _ => exact steps
  | cons _ _ =>
      cases steps with
      | step steps _ => exact steps

/-- What comes before a node of a path is a path to that node. -/
theorem suffix {later earlier : List Nat} {node : Nat}
    (steps : Path edge start (later ++ node :: earlier)) : Path edge start (node :: earlier) := by
  induction later with
  | nil => exact steps
  | cons last later inductionHypothesis => exact inductionHypothesis steps.before

/-- The way to a node of a path may be exchanged for another one. -/
theorem splice {later earlier other : List Nat} {node : Nat}
    (steps : Path edge start (later ++ node :: earlier))
    (detour : Path edge start (node :: other)) :
    Path edge start (later ++ node :: other) := by
  induction later with
  | nil => exact detour
  | cons last later inductionHypothesis =>
      cases later with
      | nil =>
          cases steps with
          | step _ taken => exact .step detour taken
      | cons _ _ =>
          cases steps with
          | step steps taken => exact .step (inductionHypothesis steps) taken

theorem leads_iff_reflTransGen {node : Nat} :
    Leads edge start node ↔ Relation.ReflTransGen edge start node := by
  constructor
  · rintro ⟨earlier, steps⟩
    generalize equal : node :: earlier = path at steps
    induction steps generalizing node earlier with
    | start =>
        cases equal
        exact .refl
    | step _ taken inductionHypothesis =>
        cases equal
        exact .tail (inductionHypothesis _ rfl) taken
  · intro reaches
    induction reaches with
    | refl => exact ⟨[], .start⟩
    | tail _ taken inductionHypothesis =>
        obtain ⟨earlier, steps⟩ := inductionHypothesis
        exact ⟨_, .step steps taken⟩

theorem Leads.step {node target : Nat} (leads : Leads edge start node) (taken : edge node target) :
    Leads edge start target := by
  obtain ⟨earlier, steps⟩ := leads
  exact ⟨_, steps.step taken⟩

/-- A path consists of its start alone, or goes on from the target of its first step. -/
theorem first_step {path : List Nat} {node : Nat} {earlier : List Nat}
    (steps : Path edge start path) (equal : path = node :: earlier) :
    (node = start ∧ earlier = []) ∨
      ∃ next inner, edge start next ∧ Path edge next (node :: inner) ∧
        earlier = inner ++ [start] := by
  induction steps generalizing node earlier with
  | start =>
      cases equal
      exact .inl ⟨rfl, rfl⟩
  | @step last target _ _ taken inductionHypothesis =>
      cases equal
      rcases inductionHypothesis rfl with ⟨rfl, rfl⟩ | ⟨next, inner, first, rest, rfl⟩
      · exact .inr ⟨target, [], taken, .start, rfl⟩
      · exact .inr ⟨next, last :: inner, first, .step rest taken, rfl⟩

theorem Leads.refl (edge : Nat → Nat → Prop) (node : Nat) : Leads edge node node :=
  ⟨[], .start⟩

/-- A path may begin one step earlier. -/
theorem cons {next : Nat} {path : List Nat} (steps : Path edge next path)
    (taken : edge start next) : Path edge start (path ++ [start]) := by
  induction steps with
  | start => exact .step .start taken
  | step _ later inductionHypothesis => exact .step inductionHypothesis later

theorem Leads.cons {next node : Nat} (leads : Leads edge next node) (taken : edge start next) :
    Leads edge start node := by
  rcases leads with ⟨earlier, steps⟩
  exact ⟨earlier ++ [start], steps.cons taken⟩

/-- The last step of a path comes from what is before it. -/
theorem last_step {later earlier : List Nat} {last node : Nat}
    (steps : Path edge start (last :: later ++ node :: earlier)) :
    ∃ previous, (previous = node ∨ previous ∈ later) ∧ edge previous last ∧
      Leads edge start previous := by
  cases later with
  | nil =>
      cases steps with
      | step steps taken => exact ⟨node, .inl rfl, taken, _, steps⟩
  | cons previous later =>
      cases steps with
      | step steps taken => exact ⟨previous, .inr List.mem_cons_self, taken, _, steps⟩

/-- What follows a node of a path is led to by that node. -/
theorem leads_from {later earlier : List Nat} {last node : Nat}
    (steps : Path edge start (later ++ node :: earlier)) (member : last ∈ later ++ [node]) :
    Leads edge node last := by
  induction later generalizing last with
  | nil =>
      rw [List.mem_singleton.1 member]
      exact .refl edge node
  | cons target later inductionHypothesis =>
      rcases List.mem_cons.1 member with rfl | old
      · rcases steps.last_step with ⟨previous, either, taken, -⟩
        refine Leads.step (inductionHypothesis steps.before ?_) taken
        rcases either with rfl | inside
        · exact List.mem_append_right _ List.mem_cons_self
        · exact List.mem_append_left _ inside
      · exact inductionHypothesis steps.before old

/-- Every node of a path leads to its last one. -/
theorem leads_on {earlier : List Nat} {last node : Nat} (steps : Path edge start (last :: earlier))
    (member : node ∈ last :: earlier) : Leads edge node last := by
  rcases List.append_of_mem member with ⟨later, before, equal⟩
  have listed : last ∈ later ++ [node] := by
    cases later with
    | nil =>
        cases equal
        exact List.mem_cons_self
    | cons _ _ =>
        cases equal
        exact List.mem_cons_self
  rw [equal] at steps
  exact leads_from steps listed

/-- Two paths one after the other. -/
theorem Leads.through {middle node : Nat} (first : Leads edge start middle)
    (second : Leads edge middle node) :
    ∃ earlier, Path edge start (node :: earlier) ∧ middle ∈ node :: earlier := by
  rcases second with ⟨way, steps⟩
  generalize equal : node :: way = path at steps
  induction steps generalizing node way with
  | start =>
      cases equal
      rcases first with ⟨earlier, steps⟩
      exact ⟨earlier, steps, List.mem_cons_self⟩
  | step _ taken inductionHypothesis =>
      cases equal
      rcases inductionHypothesis _ rfl with ⟨earlier, before, member⟩
      exact ⟨_, before.step taken, List.mem_cons_of_mem _ member⟩

theorem Leads.trans {middle node : Nat} (first : Leads edge start middle)
    (second : Leads edge middle node) : Leads edge start node := by
  rcases first.through second with ⟨earlier, steps, -⟩
  exact ⟨earlier, steps⟩

/-- Every node of a path is led to. -/
theorem leads_of_mem {path : List Nat} {node : Nat} (steps : Path edge start path)
    (member : node ∈ path) : Leads edge start node := by
  obtain ⟨later, earlier, rfl⟩ := List.append_of_mem member
  exact ⟨earlier, steps.suffix⟩

/-! ## Dominators -/

theorem Dominates.refl (node : Nat) : Dominates edge start node node :=
  fun _ _ => List.mem_cons_self

/-- The start dominates every node. -/
theorem dominates_start (node : Nat) : Dominates edge start start node := by
  intro earlier steps
  generalize node :: earlier = path at steps
  induction steps with
  | start => exact List.mem_cons_self
  | step _ _ inductionHypothesis => exact List.mem_cons_of_mem _ inductionHypothesis

variable {first second node : Nat}

theorem Dominates.trans (outer : Dominates edge start first second)
    (inner : Dominates edge start second node) : Dominates edge start first node := by
  intro earlier steps
  obtain ⟨later, before, equal⟩ := List.append_of_mem (inner earlier steps)
  rw [equal] at steps ⊢
  exact List.mem_append_right _ (outer before steps.suffix)

theorem Dominates.leads (dominates : Dominates edge start first node)
    (leads : Leads edge start node) : Leads edge start first := by
  obtain ⟨earlier, steps⟩ := leads
  exact leads_of_mem steps (dominates earlier steps)

/-- A dominator leads to what it dominates. -/
theorem Dominates.leads_node (dominates : Dominates edge start first node)
    (leads : Leads edge start node) : Leads edge first node := by
  rcases leads with ⟨earlier, steps⟩
  exact leads_on steps (dominates earlier steps)

/-- The last of two nodes on a path to something that both dominate is dominated by
the other one. -/
theorem dominates_of_last {later earlier : List Nat}
    (steps : Path edge start (node :: later ++ second :: earlier))
    (dominates : Dominates edge start first node) (absent : first ∉ node :: later) :
    Dominates edge start first second := by
  intro detour way
  have around := dominates _ (steps.splice way)
  exact (List.mem_append.1 around).resolve_left absent

/-- A node that is led to is led to by a path that does not meet it before. -/
theorem Leads.exists_first (leads : Leads edge start node) :
    ∃ earlier, Path edge start (node :: earlier) ∧ node ∉ earlier := by
  obtain ⟨earlier, steps⟩ := leads
  have member : node ∈ node :: earlier := List.mem_cons_self
  generalize node :: earlier = path at steps member
  induction steps with
  | start =>
      obtain rfl := List.mem_singleton.1 member
      exact ⟨[], .start, List.not_mem_nil⟩
  | @step last target earlier steps taken inductionHypothesis =>
      by_cases before : node ∈ last :: earlier
      · exact inductionHypothesis before
      · obtain rfl := (List.mem_cons.1 member).resolve_right before
        exact ⟨_, .step steps taken, before⟩

/-- Different nodes do not dominate each other. -/
theorem Dominates.antisymm (leads : Leads edge start first)
    (forward : Dominates edge start first second) (backward : Dominates edge start second first) :
    first = second := by
  by_contra different
  obtain ⟨earlier, steps, fresh⟩ := leads.exists_first
  have member := (List.mem_cons.1 (backward earlier steps)).resolve_left (Ne.symm different)
  obtain ⟨later, before, rfl⟩ := List.append_of_mem member
  have whole : Path edge start ((first :: later) ++ second :: before) := steps
  have way := whole.suffix
  have again := (List.mem_cons.1 (forward before way)).resolve_left different
  exact fresh (List.mem_append_right _ (List.mem_cons_of_mem _ again))

/-- The dominators of a node lie on one chain. -/
theorem Dominates.total (leads : Leads edge start node)
    (dominatesFirst : Dominates edge start first node)
    (dominatesSecond : Dominates edge start second node) :
    Dominates edge start first second ∨ Dominates edge start second first := by
  obtain ⟨earlier, steps⟩ := leads
  by_cases headFirst : node = first
  · exact .inr (headFirst ▸ dominatesSecond)
  by_cases headSecond : node = second
  · exact .inl (headSecond ▸ dominatesFirst)
  have member := (List.mem_cons.1 (dominatesFirst earlier steps)).resolve_left (Ne.symm headFirst)
  obtain ⟨later, before, rfl, firstAbsent⟩ := List.eq_append_cons_of_mem member
  by_cases between : second ∈ later
  · obtain ⟨last, rest, rfl⟩ := List.append_of_mem between
    have whole : Path edge start (node :: last ++ second :: (rest ++ first :: before)) := by
      simpa using steps
    refine .inl (dominates_of_last whole dominatesFirst ?_)
    simp only [List.mem_cons, List.mem_append, not_or] at firstAbsent ⊢
    exact ⟨Ne.symm headFirst, firstAbsent.1⟩
  · have whole : Path edge start (node :: later ++ first :: before) := steps
    refine .inr (dominates_of_last whole dominatesSecond ?_)
    simp only [List.mem_cons, not_or]
    exact ⟨Ne.symm headSecond, between⟩

/-- A node dominates another strictly and is dominated by all its other strict dominators. -/
structure IsImmediateDominator (edge : Nat → Nat → Prop) (start dominator node : Nat) : Prop where
  dominates : Dominates edge start dominator node
  strict : dominator ≠ node
  last : ∀ other, Dominates edge start other node → other ≠ node →
    Dominates edge start other dominator

theorem IsImmediateDominator.unique (one : IsImmediateDominator edge start first node)
    (leads : Leads edge start node) (other : IsImmediateDominator edge start second node) :
    first = second :=
  (other.last first one.dominates one.strict).antisymm (one.dominates.leads leads)
    (one.last second other.dominates other.strict)

end Path

end EscapePlan
