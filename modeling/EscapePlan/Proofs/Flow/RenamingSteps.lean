import EscapePlan.Proofs.Flow.Dominance
import EscapePlan.Proofs.Flow.Renaming
import Mathlib.Data.List.Induction

/-!
# The steps of renaming

However renaming goes through the blocks, it consists of steps each of which changes one
thing.  What every step keeps, renaming keeps in any control flow, whether or not dominators
were computed for it.
-/

namespace EscapePlan

namespace Renaming

open ControlFlow

/-- The state once a variable has its next version. -/
def giveVersion (var : VarId) (state : Renaming) : Renaming :=
  { state with
    flow := { state.flow with
      versions := state.flow.versions.insert var (state.flow.versionCount var + 1) } }

/-- One step of renaming; blocks that are changed are of some sort. -/
inductive Step (touched : BlockId → Prop) (state : Renaming) : Renaming → Prop where
  | versionPhi (place : Nat) (var : VarId) : Step touched state (versionPhi place var state)
  | giveVersion (var : VarId) : Step touched state (giveVersion var state)
  | enter {block : BlockId} (current : Current) :
      touched block → Step touched state (enter block current state)
  | leave {block : BlockId} {definitions : List Definition} (current : Current) :
      touched block →
      definitions.map Definition.unversioned =
        (state.flow.definitions block).map Definition.unversioned →
      Step touched state (leave block definitions current state)
  | feedPhi (block : BlockId) (current : Current) (place : Nat) :
      Step touched state (feedPhi block current place state).2

/-- Any number of steps. -/
abbrev Steps (touched : BlockId → Prop) : Renaming → Renaming → Prop :=
  Relation.ReflTransGen (Step touched)

variable {touched : BlockId → Prop} {before after state : Renaming}

/-! ## Renaming consists of steps -/

theorem steps_foldl {α : Type} {step : Renaming → α → Renaming} {items : List α}
    (steps : ∀ item ∈ items, ∀ later, Steps touched state later →
      Steps touched later (step later item)) :
    Steps touched state (items.foldl step state) := by
  induction items using List.reverseRecOn with
  | nil => exact .refl
  | append_singleton items item inductionHypothesis =>
      have earlier := inductionHypothesis fun other member =>
        steps other (List.mem_append_left _ member)
      rw [List.foldl_append]
      exact earlier.trans
        (steps item (List.mem_append_right _ List.mem_cons_self) _ earlier)

theorem steps_renamePhis (places : List Nat) (current : Current) (state : Renaming) :
    Steps touched state (renamePhis places current state).2 := by
  induction places generalizing current state with
  | nil => exact .refl
  | cons place places inductionHypothesis =>
      cases found : state.flow.phis[place]? with
      | none =>
          rw [renamePhis_of_none found]
          exact inductionHypothesis current state
      | some phi =>
          rw [renamePhis_of_some found]
          exact .head (.versionPhi place phi.var) (inductionHypothesis _ _)

theorem steps_renameDefinitions (definitions : List Definition) (current : Current)
    (state : Renaming) :
    Steps touched state (renameDefinitions definitions current state).2 := by
  induction definitions generalizing current state with
  | nil => exact .refl
  | cons definition definitions inductionHypothesis =>
      exact .head (.giveVersion definition.var) (inductionHypothesis _ (giveVersion _ state))

theorem steps_feedSuccessors (block : BlockId) (current : Current) (state : Renaming) :
    Steps touched state (feedSuccessors block current state) := by
  refine steps_foldl fun successor _ later _ => ?_
  exact steps_foldl fun place _ later _ => .single (.feedPhi block current place)

theorem steps_renameOne {block : BlockId} (mark : touched block) (current : Current)
    (state : Renaming) : Steps touched state (renameOne block current state).2 := by
  rw [renameOne_eq]
  simp only
  have phisSteps := @steps_renamePhis touched (state.flow.phiPlaces block) current state
  generalize renamePhis (state.flow.phiPlaces block) current state = phis at phisSteps ⊢
  have entered := phisSteps.tail (.enter phis.1 mark)
  generalize enter block phis.1 phis.2 = inside at entered ⊢
  have definitionsSteps :=
    @steps_renameDefinitions touched (inside.flow.definitions block) phis.1 inside
  have unversioned :=
    definitionsRenamed_renameDefinitions (inside.flow.definitions block) phis.1 inside
  generalize renameDefinitions (inside.flow.definitions block) phis.1 inside = renamed
    at definitionsSteps unversioned ⊢
  have same : renamed.2.flow.definitions block = inside.flow.definitions block :=
    congrArg (fun found => (found.map Block.definitions).getD [])
      (block?_eq_of_blocks_eq unversioned.blocks_eq block)
  have left := (entered.trans definitionsSteps).tail
    (.leave renamed.1.2 mark (same.symm ▸ unversioned.unversioned_eq))
  exact left.trans (steps_feedSuccessors block renamed.1.2 _)

/-! ## What every step keeps -/

theorem agree_of_same {α : Type} {view : Block → α} {before after : ControlFlow}
    (blocks : after.blocks = before.blocks) (entries : after.entries = before.entries) :
    Agree view before after :=
  ⟨fun block => congrArg (Option.map view) (block?_eq_of_blocks_eq blocks block), entries⟩

theorem retains_of_agree {before after : ControlFlow} (agree : Agree withoutVersions before after)
    (phis : after.phis = before.phis) : Retains before after :=
  ⟨agree, fun place => by rw [phis]⟩

theorem Step.retains (step : Step touched before after) : Retains before.flow after.flow := by
  cases step with
  | versionPhi place var =>
      refine ⟨agree_of_same rfl rfl, fun other => ?_⟩
      have same := congrArg (Option.map Phi.unsourced)
        (unversioned_versionPhi place var before other)
      rwa [Option.map_map, Option.map_map] at same
  | giveVersion var => exact ⟨agree_of_same rfl rfl, fun _ => rfl⟩
  | enter current _ =>
      refine retains_of_agree (.modifyBlock ?_ before.flow _) rfl
      exact fun _ => rfl
  | @leave block definitions current _ same =>
      refine retains_of_agree ⟨fun other => ?_, rfl⟩ rfl
      rw [Renaming.leave, block?_modifyBlock]
      split
      next equal =>
        subst equal
        rw [ControlFlow.definitions] at same
        cases found : before.flow.block? block with
        | none => rfl
        | some old =>
            rw [found] at same
            simpa [withoutVersions] using same
      next => rfl
  | feedPhi block current place =>
      have fed := fed_feedPhi block current place before
      refine ⟨agree_of_same fed.blocks_eq fed.entries_eq, fun other => ?_⟩
      have same := congrArg (Option.map Phi.unversioned) (fed.unsourced_eq other)
      rwa [Option.map_map, Option.map_map] at same

theorem Steps.retains (steps : Steps touched before after) : Retains before.flow after.flow := by
  induction steps with
  | refl => exact .refl before.flow
  | tail _ step inductionHypothesis => exact inductionHypothesis.trans step.retains

/-- Blocks of another sort are left alone. -/
theorem Step.block?_eq (step : Step touched before after) {block : BlockId}
    (spared : ¬ touched block) : after.flow.block? block = before.flow.block? block := by
  have other : ∀ {changed}, touched changed → changed ≠ block :=
    fun mark same => spared (same ▸ mark)
  cases step with
  | versionPhi place var => rfl
  | giveVersion var => rfl
  | enter current mark => exact (block?_modifyBlock ..).trans (if_neg (other mark))
  | leave current mark _ => exact (block?_modifyBlock ..).trans (if_neg (other mark))
  | feedPhi source current place =>
      exact block?_eq_of_blocks_eq (fed_feedPhi source current place before).blocks_eq block

theorem Steps.block?_eq (steps : Steps touched before after) {block : BlockId}
    (spared : ¬ touched block) : after.flow.block? block = before.flow.block? block := by
  induction steps with
  | refl => rfl
  | tail _ step inductionHypothesis => exact (step.block?_eq spared).trans inductionHypothesis

/-! ## The whole of it -/

theorem renameTree_succ (depth : Nat) (block : BlockId) (current : Current) (state : Renaming) :
    (renameTree (depth + 1) block current state).2 =
      let one := renameOne block current state
      (one.2.flow.childrenOf block).foldl
        (fun state child => (renameTree depth child one.1 state).2) one.2 := by
  rw [renameTree]
  simp only [bind, StateT.bind, get, getThe, MonadStateOf.get, StateT.get, pure]
  rcases renameOne block current state with ⟨result, renamed⟩
  simp only
  refine congrArg Prod.snd (run_forIn ?_ _ _)
  intro child state
  rfl

theorem renameRegions_run (state : Renaming) :
    (renameRegions state).2 =
      state.flow.entries.foldl
        (fun later entry =>
          if state.flow.isReachable entry then (renameTree state.flow.size entry .empty later).2
          else later)
        state := by
  rw [renameRegions]
  simp only [bind, StateT.bind, get, getThe, MonadStateOf.get, StateT.get, pure]
  refine congrArg Prod.snd (run_forIn ?_ _ _)
  intro entry later
  split
  next => rfl
  next => rfl

theorem childrenOf_eq_of_steps (steps : Steps touched before after) (block : BlockId) :
    after.flow.childrenOf block = before.flow.childrenOf block :=
  (Steps.retains steps).agree.getD_eq (·.children) block

theorem steps_renameTree {depth : Nat} {block : BlockId} (current : Current) (mark : touched block)
    (closed : ∀ parent child, child ∈ state.flow.childrenOf parent → touched child) :
    Steps touched state (renameTree depth block current state).2 := by
  induction depth generalizing block current state with
  | zero => exact .refl
  | succ depth inductionHypothesis =>
      have one := steps_renameOne mark current state
      rw [renameTree_succ]
      refine one.trans (steps_foldl fun child member later steps => ?_)
      refine inductionHypothesis _ (closed block child ?_) fun parent child below => ?_
      · rwa [childrenOf_eq_of_steps one] at member
      · rw [childrenOf_eq_of_steps (one.trans steps)] at below
        exact closed parent child below

theorem steps_renameRegions
    (start : ∀ entry ∈ state.flow.entries, state.flow.isReachable entry = true → touched entry)
    (closed : ∀ parent child, child ∈ state.flow.childrenOf parent → touched child) :
    Steps touched state (renameRegions state).2 := by
  rw [renameRegions_run]
  refine steps_foldl fun entry member later steps => ?_
  split
  next reachable =>
    refine steps_renameTree .empty (start entry member reachable) fun parent child below => ?_
    rw [childrenOf_eq_of_steps steps] at below
    exact closed parent child below
  next => exact .refl

theorem retains_renameOne (block : BlockId) (current : Current) (state : Renaming) :
    Retains state.flow (renameOne block current state).2.flow := by
  have steps := @steps_renameOne (fun _ => True) block trivial current state
  exact steps.retains

theorem retains_renameTree (depth : Nat) (block : BlockId) (current : Current)
    (state : Renaming) : Retains state.flow (renameTree depth block current state).2.flow := by
  have steps := @steps_renameTree (fun _ => True) state depth block current trivial
    fun _ _ _ => trivial
  exact steps.retains

end Renaming

namespace ControlFlow

theorem retains_clearVersions (flow : ControlFlow) : Retains flow flow.clearVersions where
  agree := ⟨fun _ => rfl, rfl⟩
  unnamed_eq place := by
    rw [clearVersions, Array.getElem?_map, Option.map_map]
    rfl

theorem flow_rename (flow : ControlFlow) :
    flow.rename.1 = (Renaming.renameRegions ⟨flow.clearVersions, []⟩).2.flow := by
  rw [rename, StateT.run]
  rcases Renaming.renameRegions ⟨flow.clearVersions, []⟩ with ⟨_, state⟩
  rfl

theorem links_rename (flow : ControlFlow) :
    flow.rename.2 = (Renaming.renameRegions ⟨flow.clearVersions, []⟩).2.links.reverse := by
  rw [rename, StateT.run]
  rcases Renaming.renameRegions ⟨flow.clearVersions, []⟩ with ⟨_, state⟩
  rfl

theorem steps_rename (flow : ControlFlow) {touched : BlockId → Prop}
    (start : ∀ entry ∈ flow.entries, flow.isReachable entry = true → touched entry)
    (closed : ∀ parent child, child ∈ flow.childrenOf parent → touched child) :
    Renaming.Steps touched ⟨flow.clearVersions, []⟩
      (Renaming.renameRegions ⟨flow.clearVersions, []⟩).2 :=
  Renaming.steps_renameRegions start closed

/-- Renaming keeps everything but versions. -/
theorem retains_rename (flow : ControlFlow) : Retains flow flow.rename.1 := by
  have steps := @steps_rename flow (fun _ => True) (fun _ _ _ => trivial) fun _ _ _ => trivial
  rw [flow_rename]
  exact flow.retains_clearVersions.trans steps.retains

end ControlFlow

end EscapePlan
