import EscapePlan.Proofs.Flow.Conversion

/-!
# Control flow that grows

Blocks and edges are added to control flow in such an order that what has been found out about a
known block stays true: whether control can get there.  An edge is added to a block that control can
get to already if it can get to the source, or to one that nothing follows yet.
-/

namespace EscapePlan.ControlFlow

open EscapePlan.Path

/-- Control can get to the same known blocks as before. -/
structure Spares (before after : ControlFlow) : Prop where
  size_le : before.size ≤ after.size
  reached_iff : ∀ block < before.size, after.Reached block ↔ before.Reached block

theorem Spares.refl (flow : ControlFlow) : Spares flow flow :=
  ⟨Nat.le_refl _, fun _ _ => Iff.rfl⟩

theorem Spares.trans {first second third : ControlFlow} (one : Spares first second)
    (two : Spares second third) : Spares first third where
  size_le := Nat.le_trans one.size_le two.size_le
  reached_iff block known :=
    (two.reached_iff block (Nat.lt_of_lt_of_le known one.size_le)).trans
      (one.reached_iff block known)

/-- Where control can get depends on nothing but the edges. -/
theorem Spares.of_agree {before after : ControlFlow} (agree : Agree edgeLists before after) :
    Spares before after where
  size_le := Nat.le_of_eq agree.size_eq.symm
  reached_iff _ _ := reached_iff_of_agree agree

variable {flow : ControlFlow} {source target other block : BlockId}

theorem Reached.lt (coherent : flow.Coherent) (reached : flow.Reached block) :
    block < flow.size := by
  rcases reached with ⟨entry, known, leads⟩
  exact leads_lt coherent (coherent.entry_lt entry known) leads

/-! ## New blocks -/

theorem reached_newBlock : flow.newBlock.2.Reached block ↔ flow.Reached block := by
  have same : flow.newBlock.2.Edge = flow.Edge := by
    funext first last
    exact propext (edge_newBlock first last)
  rw [Reached, Reached, same]
  rfl

theorem definitions_newBlock : flow.newBlock.2.definitions block = flow.definitions block :=
  getD_newBlock flow (·.definitions) rfl block

theorem spares_newBlock (flow : ControlFlow) : Spares flow flow.newBlock.2 where
  size_le := Nat.le_of_lt (Nat.lt_of_lt_of_eq (Nat.lt_succ_self _) (size_newBlock flow).symm)
  reached_iff _ _ := reached_newBlock

/-- Control cannot get to a block that stands alone. -/
theorem not_reached_newBlock (coherent : flow.Coherent) : ¬ flow.newBlock.2.Reached flow.size :=
  fun reached => Nat.lt_irrefl _ ((reached_newBlock.1 reached).lt coherent)

/-- Control can get to a new entry, and otherwise to the same blocks as before. -/
theorem reached_newRegion :
    flow.newRegion.2.Reached block ↔ flow.Reached block ∨ block = flow.size := by
  have edges : flow.newRegion.2.Edge = flow.Edge := by
    funext first last
    exact propext (edge_newBlock first last)
  have entries : flow.newRegion.2.entries = flow.entries ++ [flow.size] := rfl
  rw [Reached, Reached, edges, entries]
  constructor
  · rintro ⟨entry, listed, leads⟩
    rcases List.mem_append.1 listed with old | new
    · exact .inl ⟨entry, old, leads⟩
    · rw [List.mem_singleton.1 new] at leads
      rcases leads with ⟨earlier, steps⟩
      rcases steps.first_step rfl with ⟨same, -⟩ | ⟨next, -, taken, -⟩
      · exact .inr same
      · exact absurd (source_lt_of_edge taken) (Nat.lt_irrefl _)
  · rintro (⟨entry, listed, leads⟩ | rfl)
    · exact ⟨entry, List.mem_append_left _ listed, leads⟩
    · exact ⟨flow.size, List.mem_append_right _ List.mem_cons_self, .refl _ _⟩

theorem spares_newRegion (flow : ControlFlow) : Spares flow flow.newRegion.2 where
  size_le := (spares_newBlock flow).size_le
  reached_iff block known := by
    rw [reached_newRegion, or_iff_left (Nat.ne_of_lt known)]

/-! ## New edges -/

/-- What a new edge lets control get to: where it could get already, and what its target leads to if
it can get to its source. -/
theorem reached_addEdge (sourceKnown : source < flow.size) (targetKnown : target < flow.size) :
    (flow.addEdge source target).Reached block ↔
      flow.Reached block ∨ flow.Reached source ∧ Leads flow.Edge target block := by
  have kept {start node : BlockId} (leads : Leads flow.Edge start node) :
      Leads (flow.addEdge source target).Edge start node :=
    leads.imp fun _ steps => steps.mono fun _ _ taken => edge_addEdge_of_edge taken source target
  rw [Reached, Reached, Reached, entries_addEdge]
  constructor
  · rintro ⟨entry, known, earlier, steps⟩
    have found : Leads flow.Edge entry block ∨
        Leads flow.Edge entry source ∧ Leads flow.Edge target block := by
      generalize whole : block :: earlier = path at steps
      induction steps generalizing block earlier with
      | start =>
          cases whole
          exact .inl (.refl _ _)
      | step _ taken inductionHypothesis =>
          cases whole
          rcases edge_of_addEdge taken with old | ⟨rfl, rfl⟩
          · exact (inductionHypothesis _ rfl).imp (·.step old) fun led => ⟨led.1, led.2.step old⟩
          · rcases inductionHypothesis _ rfl with led | led
            · exact .inr ⟨led, .refl _ _⟩
            · exact .inr ⟨led.1, .refl _ _⟩
    exact found.imp (fun leads => ⟨entry, known, leads⟩)
      fun leads => ⟨⟨entry, known, leads.1⟩, leads.2⟩
  · rintro (⟨entry, known, leads⟩ | ⟨⟨entry, known, leads⟩, onward⟩)
    · exact ⟨entry, known, kept leads⟩
    · have taken : (flow.addEdge source target).Edge source target := by
        by_cases old : flow.Edge source target
        · exact edge_addEdge_of_edge old source target
        · rw [Edge, (addEdge_accepted sourceKnown targetKnown old source).1, if_pos rfl]
          exact List.mem_append_right _ List.mem_cons_self
      have whole := leads_iff_reflTransGen.1 ((kept leads).step taken)
      exact ⟨entry, known, leads_iff_reflTransGen.2
        (whole.trans (leads_iff_reflTransGen.1 (kept onward)))⟩

theorem definitions_addEdge :
    (flow.addEdge source target).definitions block = flow.definitions block :=
  (flow.agree_addEdge source target).getD_eq (·.definitions) block

/-- An edge back to where control has come from lets it get nowhere else. -/
theorem spares_addEdge_back (sourceKnown : source < flow.size) (targetKnown : target < flow.size)
    (back : flow.Reached source → flow.Reached target) :
    Spares flow (flow.addEdge source target) where
  size_le := Nat.le_of_eq (size_addEdge flow source target).symm
  reached_iff block _ := by
    rw [reached_addEdge sourceKnown targetKnown, or_iff_left_iff_imp]
    rintro ⟨reached, leads⟩
    rcases back reached with ⟨entry, known, led⟩
    exact ⟨entry, known, leads_iff_reflTransGen.2
      ((leads_iff_reflTransGen.1 led).trans (leads_iff_reflTransGen.1 leads))⟩

/-- An edge to a block that nothing follows lets control get to that block. -/
theorem reached_addEdge_last (sourceKnown : source < flow.size) (targetKnown : target < flow.size)
    (last : ∀ next, ¬ flow.Edge target next) :
    (flow.addEdge source target).Reached block ↔
      flow.Reached block ∨ flow.Reached source ∧ block = target := by
  rw [reached_addEdge sourceKnown targetKnown]
  refine or_congr Iff.rfl (and_congr Iff.rfl ?_)
  constructor
  · rintro ⟨earlier, steps⟩
    rcases steps.first_step rfl with ⟨same, -⟩ | ⟨next, -, taken, -⟩
    · exact same
    · exact absurd taken (last next)
  · rintro rfl
    exact .refl _ _

/-- Nothing follows a new block. -/
theorem not_edge_newBlock (next : BlockId) : ¬ flow.newBlock.2.Edge flow.size next := by
  rw [edge_newBlock]
  exact fun taken => Nat.lt_irrefl _ (source_lt_of_edge taken)

/-- A new block that control may come to from one other block. -/
theorem spares_branch (coherent : flow.Coherent) (known : source < flow.size) :
    Spares flow (flow.newBlock.2.addEdge source flow.size) ∧
      ((flow.newBlock.2.addEdge source flow.size).Reached flow.size ↔ flow.Reached source) := by
  have size := size_newBlock flow
  have reached {block : BlockId} := @reached_addEdge_last flow.newBlock.2 source flow.size block
    (size ▸ Nat.lt_succ_of_lt known) (size ▸ Nat.lt_succ_self _) not_edge_newBlock
  refine ⟨⟨?_, fun block inside => ?_⟩, ?_⟩
  · rw [size_addEdge]
    exact (spares_newBlock flow).size_le
  · rw [reached, reached_newBlock, or_iff_left fun new => Nat.ne_of_lt inside new.2]
  · rw [reached, or_iff_right (not_reached_newBlock coherent), and_iff_left rfl, reached_newBlock]

/-- A new block that control may come to from two other blocks. -/
theorem spares_join (coherent : flow.Coherent) (sourceKnown : source < flow.size)
    (otherKnown : other < flow.size) :
    Spares flow ((flow.newBlock.2.addEdge source flow.size).addEdge other flow.size) ∧
      (((flow.newBlock.2.addEdge source flow.size).addEdge other flow.size).Reached flow.size ↔
        flow.Reached source ∨ flow.Reached other) := by
  have size : (flow.newBlock.2.addEdge source flow.size).size = flow.size + 1 := by
    rw [size_addEdge, size_newBlock]
  have last (next : BlockId) :
      ¬ (flow.newBlock.2.addEdge source flow.size).Edge flow.size next := by
    intro taken
    rcases edge_of_addEdge taken with old | ⟨same, -⟩
    · exact not_edge_newBlock next old
    · exact Nat.ne_of_lt sourceKnown same.symm
  obtain ⟨spares, reachedFirst⟩ := spares_branch coherent sourceKnown
  have reached {block : BlockId} := @reached_addEdge_last (flow.newBlock.2.addEdge source flow.size)
    other flow.size block (size ▸ Nat.lt_succ_of_lt otherKnown) (size ▸ Nat.lt_succ_self _) last
  refine ⟨⟨?_, fun block inside => ?_⟩, ?_⟩
  · rw [size_addEdge]
    exact spares.size_le
  · rw [reached, spares.reached_iff block inside, or_iff_left fun new => Nat.ne_of_lt inside new.2]
  · rw [reached, reachedFirst, spares.reached_iff other otherKnown, and_iff_left rfl]

end EscapePlan.ControlFlow
