import EscapePlan.Proofs.Flow.Traversal

/-!
# Renaming down the dominator tree

Renaming a block and then everything below it makes every block below it state what the
way down the tree produces.  Subtrees do not touch each other.
-/

namespace EscapePlan

namespace Renaming

open ControlFlow EscapePlan.Path

/-- What blocks state depends on nothing but these blocks. -/
theorem States.of_keeps {touched : BlockId → Prop} {before after : ControlFlow} {block : BlockId}
    {current : Current} (states : States before block current)
    (keeps : Keeps touched before after) (spared : ¬ touched block) :
    States after block current where
  entry var := by
    rw [keeps.phiDefinitions_eq block spared, ← states.entry, entryVersion?, entryVersion?,
      keeps.block?_eq block spared]
  exit var := by
    rw [keeps.produced_eq spared, ← states.exit, exitVersion?, exitVersion?,
      keeps.block?_eq block spared]

/-- What renaming everything below some blocks does, given what is current before these blocks:
each block states what the way down to it produces. -/
structure Renamed (below : BlockId → BlockId → Prop) (roots : List BlockId) (current : Current)
    (before after : ControlFlow) : Prop where
  keeps : Keeps (fun block => ∃ root ∈ roots, Leads below root block) before after
  states : ∀ root ∈ roots, ∀ block earlier, Path below root (block :: earlier) →
    States after block (current.after (after.replay earlier))
  sources : ∀ (place : Nat) phi, after.phis[place]? = some phi → ∀ source ∈ phi.sources,
    (∃ old, before.phis[place]? = some old ∧ source ∈ old.sources) ∨
      ∃ root ∈ roots, ∃ block earlier, Path below root (block :: earlier) ∧
        phi.block ∈ after.successors block ∧
          source = .ofCurrent block
            ((current.after (after.replay (block :: earlier))).find? phi.var)

namespace Renamed

variable {below : BlockId → BlockId → Prop} {roots others : List BlockId} {current : Current}
  {first second third : ControlFlow}

theorem nil (below : BlockId → BlockId → Prop) (current : Current) (flow : ControlFlow) :
    Renamed below [] current flow flow where
  keeps := .refl _ flow
  states root member := by contradiction
  sources place phi found source member := .inl ⟨phi, found, member⟩

/-- Renaming below other blocks does not change what was done. -/
theorem append (one : Renamed below roots current first second)
    (two : Renamed below others current second third)
    (disjoint : ∀ root ∈ roots, ∀ other ∈ others, ∀ block,
      Leads below root block → ¬ Leads below other block) :
    Renamed below (roots ++ others) current first third := by
  have spared : ∀ root ∈ roots, ∀ block, Leads below root block →
      ¬ ∃ other ∈ others, Leads below other block := by
    rintro root member block leads ⟨other, otherMember, otherLeads⟩
    exact disjoint root member other otherMember block leads otherLeads
  have replayEq : ∀ root ∈ roots, ∀ path, Path below root path →
      third.replay path = second.replay path := by
    intro root member path steps
    apply replay_eq_of_produced_eq
    intro block onPath
    exact two.keeps.produced_eq (spared root member block (leads_of_mem steps onPath))
  have replayTail : ∀ root ∈ roots, ∀ block earlier, Path below root (block :: earlier) →
      third.replay earlier = second.replay earlier := by
    intro root member block earlier steps
    apply replay_eq_of_produced_eq
    intro other onPath
    exact two.keeps.produced_eq
      (spared root member other (leads_of_mem steps (List.mem_cons_of_mem _ onPath)))
  constructor
  · refine Keeps.trans (one.keeps.mono ?_) (two.keeps.mono ?_)
    · rintro block ⟨root, member, leads⟩
      exact ⟨root, List.mem_append_left _ member, leads⟩
    · rintro block ⟨root, member, leads⟩
      exact ⟨root, List.mem_append_right _ member, leads⟩
  · intro root member block earlier steps
    rcases List.mem_append.1 member with before | after
    · rw [replayTail root before block earlier steps]
      exact (one.states root before block earlier steps).of_keeps two.keeps
        (spared root before block ⟨earlier, steps⟩)
    · exact two.states root after block earlier steps
  · intro place phi found source member
    rcases two.sources place phi found source member with ⟨old, foundOld, oldMember⟩ | fed
    · rcases two.keeps.phi_eq found foundOld with ⟨blockEq, varEq⟩
      rcases one.sources place old foundOld source oldMember with
        before | ⟨root, rootMember, block, earlier, steps, next, equal⟩
      · exact .inl before
      · refine .inr ⟨root, List.mem_append_left _ rootMember, block, earlier, steps, ?_, ?_⟩
        · rw [two.keeps.successors_eq, blockEq]
          exact next
        · rw [replayEq root rootMember _ steps, varEq]
          exact equal
    · rcases fed with ⟨root, rootMember, rest⟩
      exact .inr ⟨root, List.mem_append_right _ rootMember, rest⟩

/-- A block comes before everything below it. -/
theorem cons {block : BlockId} {children : List BlockId} {result : Current}
    (one : OneRenamed block current first result second)
    (rest : Renamed below children result second third)
    (mem_children : ∀ child, child ∈ children ↔ below block child)
    (acyclic : ∀ child ∈ children, ¬ Leads below child block) :
    Renamed below [block] current first third := by
  have spared : ¬ ∃ child ∈ children, Leads below child block := by
    rintro ⟨child, member, back⟩
    exact acyclic child member back
  have resultEq : result = current.after (third.produced block) := by
    rw [rest.keeps.produced_eq spared]
    exact one.current_eq
  have replayEq : ∀ inner, current.after (third.replay (inner ++ [block])) =
      result.after (third.replay inner) := by
    intro inner
    rw [replay_append, Current.after_append, resultEq]
    rfl
  constructor
  · refine Keeps.trans (one.keeps.mono ?_) (rest.keeps.mono ?_)
    · intro other same
      exact ⟨block, List.mem_singleton_self block, same ▸ .refl below other⟩
    · rintro other ⟨child, member, leads⟩
      exact ⟨block, List.mem_singleton_self block, leads.cons ((mem_children child).1 member)⟩
  · intro root member lower earlier steps
    rw [List.mem_singleton.1 member] at steps
    rcases first_step steps rfl with ⟨rfl, rfl⟩ | ⟨child, inner, taken, way, rfl⟩
    · exact one.states.of_keeps rest.keeps spared
    · rw [replayEq]
      exact rest.states child ((mem_children child).2 taken) lower inner way
  · intro place phi found source member
    rcases rest.sources place phi found source member with
      ⟨old, foundOld, oldMember⟩ | ⟨child, listed, lower, earlier, steps, next, equal⟩
    · rcases rest.keeps.phi_eq found foundOld with ⟨blockEq, varEq⟩
      rcases one.sources foundOld oldMember with before | ⟨next, equal⟩
      · exact .inl before
      · refine .inr ⟨block, List.mem_singleton_self block, block, [], .start, ?_, ?_⟩
        · rw [rest.keeps.successors_eq, one.keeps.successors_eq, blockEq]
          exact next
        · have single : current.after (third.replay [block]) = result := replayEq []
          rw [single, varEq]
          exact equal
    · refine .inr ⟨block, List.mem_singleton_self block, lower, earlier ++ [block], ?_, next, ?_⟩
      · exact steps.cons ((mem_children child).1 listed)
      · rw [← List.cons_append, replayEq]
        exact equal

end Renamed

/-! ## The whole tree -/

theorem composes_renamed (dominated : ControlFlow) (sites : List (BlockId × VarId)) :
    Composes dominated fun roots current before after =>
      HoldsPhis sites before.flow →
        Renamed dominated.TreeEdge roots current before.flow after.flow where
  nil current state _ := .nil _ current state.flow
  append one two retained disjoint holds :=
    (one holds).append (two (retained.holdsPhis holds)) disjoint
  cons known rest mem_children acyclic holds :=
    have one := oneRenamed_renameOne holds known _
    .cons one (rest (one.keeps.holdsPhis holds)) mem_children acyclic

theorem renamed_renameRegions {flow dominated : ControlFlow} {sites : List (BlockId × VarId)}
    (trees : DominatorTrees flow flow.entries dominated) (coherent : flow.Coherent)
    (separate : flow.Separate) {state : Renaming} (agree : Agree outline dominated state.flow)
    (holds : HoldsPhis sites state.flow) :
    Renamed dominated.TreeEdge flow.entries .empty state.flow (renameRegions state).2.flow :=
  (composes_renamed dominated sites).renameRegions trees coherent separate agree holds

end Renaming

end EscapePlan
