import EscapePlan.Proofs.Placement.Decisions
import Mathlib.Algebra.Ring.Nat

/-!
# When sizes cannot be added up

Below the largest budget whatever takes room is within the budget, so the running total never
leaves thirty-two bits.  A frame of the largest size never lacks room, and every object that seeks
a slot gets one; so there is no placement exactly if the sizes of all of these do not fit into
thirty-two bits.
-/

namespace EscapePlan

namespace StackLayout

variable {config : Config} {layout after : StackLayout} {record : EscapeRecord}
  {records : List EscapeRecord}

/-- The sizes of all objects that seek a slot. -/
def demand (config : Config) (records : List EscapeRecord) : Nat :=
  ((records.filter (seeksSlot config)).map fun record => (sizeOf config record).toNat).sum

/-- A frame of the largest size is asked for more than thirty-two bits can tell. -/
def Overflows (config : Config) (records : List EscapeRecord) : Prop :=
  config.maxFrameSize = 4294967295 ∧ UInt32.size ≤ demand config records

instance : Decidable (Overflows config records) :=
  inferInstanceAs (Decidable (_ ∧ _))

theorem demand_cons : demand config (record :: records) =
    (if seeksSlot config record = true then (sizeOf config record).toNat else 0) +
      demand config records := by
  by_cases seeks : seeksSlot config record = true <;> simp [demand, seeks]

/-- Below the largest budget an object for which there is room has a size that can be added. -/
theorem exists_placeOne? (bounded : layout.maxFrameSize < 4294967295) :
    ∃ after, placeOne? config layout record = some after := by
  rw [← Option.ne_none_iff_exists', Ne, placeOne?_eq_none_iff, refusal_eq_none_iff]
  rintro ⟨⟨-, room⟩, exceeds⟩
  have bounded : layout.maxFrameSize.toNat < 4294967295 := UInt32.lt_iff_toNat_lt.1 bounded
  have size : UInt32.size = 4294967296 := rfl
  omega

theorem exists_foldlM_placeOne? (bounded : layout.maxFrameSize < 4294967295)
    (records : List EscapeRecord) :
    ∃ after, records.foldlM (placeOne? config) layout = some after := by
  induction records generalizing layout with
  | nil => exact ⟨layout, rfl⟩
  | cons record rest inductionHypothesis =>
      obtain ⟨next, stepped⟩ := @exists_placeOne? config layout record bounded
      rw [← (turns_of_placeOne? stepped).maxFrameSize_eq] at bounded
      rw [List.foldlM_cons, stepped]
      exact inductionHypothesis bounded

/-- On a frame of the largest size every object that seeks a slot gets one. -/
theorem refusal_eq_none_iff_of_boundless (boundless : layout.maxFrameSize = 4294967295) :
    layout.refusal config record = none ↔ seeksSlot config record = true := by
  rw [refusal_eq_none_iff, boundless]
  exact and_iff_left (Nat.min_le_right ..)

/-- On a frame of the largest size sizes are added up until they exceed thirty-two bits. -/
theorem foldlM_placeOne?_eq_none_iff (boundless : layout.maxFrameSize = 4294967295) :
    records.foldlM (placeOne? config) layout = none ↔
      UInt32.size ≤ layout.used.toNat + demand config records := by
  induction records generalizing layout with
  | nil =>
      have fits := layout.used.toNat_lt_size
      simp only [List.foldlM_nil, Option.pure_def, reduceCtorEq, false_iff, demand]
      simpa using fits
  | cons record rest inductionHypothesis =>
      rw [List.foldlM_cons, demand_cons]
      cases stepped : placeOne? config layout record with
      | none =>
          obtain ⟨accepted, exceeds⟩ := placeOne?_eq_none_iff.1 stepped
          rw [if_pos ((refusal_eq_none_iff_of_boundless boundless).1 accepted)]
          exact iff_of_true rfl (by omega)
      | some next =>
          have turns := turns_of_placeOne? stepped
          have used := turns.used_eq
          simp only [location_turn_eq_stack_iff, refusal_eq_none_iff_of_boundless boundless] at used
          refine (inductionHypothesis (turns.maxFrameSize_eq.trans boundless)).trans ?_
          rw [used, Nat.add_assoc]

/-- Sites cannot be placed exactly if the sizes on a frame of the largest size cannot be added
up. -/
theorem place?_eq_none_iff : place? config records = none ↔ Overflows config records := by
  by_cases boundless : config.maxFrameSize = 4294967295
  · have added := @foldlM_placeOne?_eq_none_iff config (empty config) records boundless
    rw [place?, added, Overflows, and_iff_right boundless]
    exact iff_of_eq (congrArg _ (Nat.zero_add _))
  · have bounded : config.maxFrameSize < 4294967295 := by
      have := config.maxFrameSize.toNat_lt
      rw [← UInt32.toNat_inj] at boundless
      rw [UInt32.lt_iff_toNat_lt]
      simp only [UInt32.reduceToNat] at boundless ⊢
      omega
    obtain ⟨layout, placed⟩ := @exists_foldlM_placeOne? config (empty config) bounded records
    rw [place?, placed]
    exact iff_of_false (Option.some_ne_none _) fun overflows => boundless overflows.1

end StackLayout

namespace Placement

variable {config : Config} {analysis : Analysis} {tree : Tree} {placement : Placement}

@[simp] theorem stack_onStack (analysis : Analysis) (stack : StackLayout) :
    (onStack analysis stack).stack = stack := rfl

@[simp] theorem scalar_onStack (analysis : Analysis) (stack : StackLayout) :
    (onStack analysis stack).scalar = ScalarPlans.plan analysis.records.values := rfl

/-- A placement comes from a frame. -/
theorem exists_onStack (placed : ofAnalysis? config analysis = some placement) :
    ∃ stack, StackLayout.place? config analysis.records.values = some stack ∧
      placement = onStack analysis stack := by
  rw [ofAnalysis?, Option.map_eq_some_iff] at placed
  obtain ⟨stack, placed, same⟩ := placed
  exact ⟨stack, placed, same.symm⟩

/-- The sizes on the frame of a tree cannot be added up. -/
def Overflows (config : Config) (tree : Tree) : Prop :=
  StackLayout.Overflows config (Analysis.ofTree config tree).records.values

theorem ofAnalysis?_eq_none_iff : ofAnalysis? config analysis = none ↔
    StackLayout.Overflows config analysis.records.values := by
  rw [ofAnalysis?, Option.map_eq_none_iff, StackLayout.place?_eq_none_iff]

theorem ofTree?_eq_none_iff : ofTree? config tree = none ↔ Overflows config tree :=
  ofAnalysis?_eq_none_iff

theorem exists_ofTree?_iff : (∃ placement, ofTree? config tree = some placement) ↔
    ¬ Overflows config tree := by
  rw [← ofTree?_eq_none_iff, ← Ne, Option.ne_none_iff_exists']

end Placement

end EscapePlan
