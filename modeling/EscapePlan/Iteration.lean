/-!
# Iteration

A step is repeated until it changes nothing.
-/

namespace EscapePlan.Iteration

variable {α : Type} [DecidableEq α]

/-- Repeats a step until it changes nothing, and answers what is left unchanged.  There is
no answer if a step gives none, or if each of so many steps changes something. -/
def untilStable (step : α → Option α) : Nat → α → Option α
  | 0, _ => none
  | rounds + 1, state => do
      let next ← step state
      if next = state then return state else untilStable step rounds next

/-- A step that makes a measure fall whenever it changes something comes to rest, and keeps
what every step keeps. -/
theorem exists_untilStable {step : α → Option α} {holds : α → Prop} {measure : α → Nat}
    (proceeds : ∀ state, holds state → ∃ next, step state = some next ∧ holds next ∧
      (next ≠ state → measure next < measure state)) {rounds : Nat} {state : α}
    (start : holds state) (enough : measure state < rounds) :
    ∃ last, untilStable step rounds state = some last ∧ holds last ∧ step last = some last := by
  induction rounds generalizing state with
  | zero => exact absurd enough (Nat.not_lt_zero _)
  | succ rounds inductionHypothesis =>
      obtain ⟨next, stepEq, kept, falls⟩ := proceeds state start
      by_cases stable : next = state
      · refine ⟨state, ?_, start, stable ▸ stepEq⟩
        simp [untilStable, stepEq, stable]
      · obtain ⟨last, lastEq, lastHolds, lastStable⟩ :=
          inductionHypothesis kept (Nat.lt_of_lt_of_le (falls stable) (Nat.le_of_lt_succ enough))
        refine ⟨last, ?_, lastHolds, lastStable⟩
        simp [untilStable, stepEq, stable, lastEq]

end EscapePlan.Iteration
