import EscapePlan.Proofs.Flow.RenamingSteps

/-!
# Renaming again

Renaming reads no versions, so a second run does what the first one did.  Versions are only ever
written over: those that the second run has not come to yet are still what the first run left,
and this is what they are in the end.
-/

namespace EscapePlan

namespace Renaming

open ControlFlow

/-! ## Two runs side by side -/

/-- A part of every block is in the second run what it is in the first, or what it is in the
end. -/
def Settles {α : Type} (part : Block → α) (goal first second : ControlFlow) : Prop :=
  ∀ block, (second.block? block).map part = (first.block? block).map part ∨
    (second.block? block).map part = (goal.block? block).map part

section

variable {α β : Type} {part : Block → α} {change : Block → Block} {goal first second : ControlFlow}

/-- A change that leaves a part of a block alone. -/
theorem Settles.keep (settles : Settles part goal first second)
    (kept : ∀ found, part (change found) = part found) (block : BlockId) :
    Settles part goal (first.modifyBlock block change) (second.modifyBlock block change) := by
  intro other
  rw [(Agree.modifyBlock kept first block).blocks, (Agree.modifyBlock kept second block).blocks]
  exact settles other

/-- A change that writes over a part of a block. -/
theorem Settles.overwrite {view : Block → β} (settles : Settles part goal first second)
    (agree : Agree view first second)
    (overwrites : ∀ one two, part (change two) = part (change one)) (block : BlockId) :
    Settles part goal (first.modifyBlock block change) (second.modifyBlock block change) := by
  intro other
  rw [block?_modifyBlock, block?_modifyBlock]
  split
  next =>
    rw [Option.map_map, Option.map_map]
    exact .inl (map_congr_of_map_eq (agree.blocks other) fun one two _ => overwrites one two)
  next => exact settles other

end

/-- Two runs of renaming are at the same step; versions that the second one has not given again
are those of the goal, at which the first one ends. -/
structure Ahead (goal : ControlFlow) (first second : Renaming) : Prop where
  links_eq : second.links = first.links
  versions_eq : second.flow.versions = first.flow.versions
  agree : Agree withoutVersions first.flow second.flow
  unversioned_eq : ∀ place : Nat, (second.flow.phis[place]?).map Phi.unversioned =
    (first.flow.phis[place]?).map Phi.unversioned
  definitions : Settles (·.definitions) goal first.flow second.flow
  entryVersions : Settles (·.entryVersions) goal first.flow second.flow
  exitVersions : Settles (·.exitVersions) goal first.flow second.flow
  phiVersions : ∀ place : Nat,
    (second.flow.phis[place]?).map (·.version) = (first.flow.phis[place]?).map (·.version) ∨
      (second.flow.phis[place]?).map (·.version) = (goal.phis[place]?).map (·.version)

/-- The state once the end of a block is a source of a phi. -/
theorem run_feedPhi {block : BlockId} {current : Current} {place : Nat} {state : Renaming}
    {phi : Phi} (known : state.flow.phis[place]? = some phi) :
    (feedPhi block current place state).2 =
      { flow := { state.flow with
          phis := state.flow.phis.modify place fun old =>
            { old with sources := old.sources ++ [.ofCurrent block (current.find? phi.var)] } }
        links := ((current.find? phi.var).map fun found => (found.2, phi.node)).toList ++
          state.links } := by
  simp only [feedPhi, modify, modifyGet, MonadStateOf.modifyGet, StateT.modifyGet, pure, known]
  cases current.find? phi.var with
  | none => rfl
  | some version => rfl

theorem renameDefinitions_cons (definition : Definition) (definitions : List Definition)
    (current : Current) (state : Renaming) :
    renameDefinitions (definition :: definitions) current state =
      let version := state.flow.versionCount definition.var + 1
      let rest := renameDefinitions definitions
        (current.insert definition.var (version, definition.node))
        (giveVersion definition.var state)
      ((⟨definition.var, definition.node, version⟩ :: rest.1.1, rest.1.2), rest.2) := rfl

namespace Ahead

variable {goal : ControlFlow} {first second : Renaming}

theorem versionCount_eq (ahead : Ahead goal first second) (var : VarId) :
    second.flow.versionCount var = first.flow.versionCount var :=
  versionCount_eq_of_versions_eq ahead.versions_eq var

/-- Both runs have the same phi at a place, whatever its version. -/
theorem exists_phi (ahead : Ahead goal first second) {place : Nat} {phi : Phi}
    (found : first.flow.phis[place]? = some phi) :
    ∃ version, second.flow.phis[place]? = some { phi with version } := by
  have same := ahead.unversioned_eq place
  rw [found] at same
  rcases Option.map_eq_some_iff.1 same with ⟨other, foundOther, equal⟩
  refine ⟨other.version, foundOther.trans ?_⟩
  cases other
  cases phi
  cases equal
  rfl

theorem phi_none (ahead : Ahead goal first second) {place : Nat}
    (unknown : first.flow.phis[place]? = none) : second.flow.phis[place]? = none := by
  have same := ahead.unversioned_eq place
  rw [unknown] at same
  exact Option.map_eq_none_iff.1 same

/-! ## Steps -/

theorem giveVersion (ahead : Ahead goal first second) (var : VarId) :
    Ahead goal (giveVersion var first) (giveVersion var second) where
  links_eq := ahead.links_eq
  versions_eq := by
    simp only [Renaming.giveVersion, ahead.versions_eq, ahead.versionCount_eq]
  agree := ⟨ahead.agree.blocks, ahead.agree.entries⟩
  unversioned_eq := ahead.unversioned_eq
  definitions := ahead.definitions
  entryVersions := ahead.entryVersions
  exitVersions := ahead.exitVersions
  phiVersions := ahead.phiVersions

theorem versionPhi (ahead : Ahead goal first second) (place : Nat) (var : VarId) :
    Ahead goal (versionPhi place var first) (versionPhi place var second) where
  links_eq := ahead.links_eq
  versions_eq := (ahead.giveVersion var).versions_eq
  agree := ⟨ahead.agree.blocks, ahead.agree.entries⟩
  unversioned_eq other := by
    rw [unversioned_versionPhi, unversioned_versionPhi]
    exact ahead.unversioned_eq other
  definitions := ahead.definitions
  entryVersions := ahead.entryVersions
  exitVersions := ahead.exitVersions
  phiVersions other := by
    rw [getElem?_versionPhi, getElem?_versionPhi, ahead.versionCount_eq]
    split
    next =>
      rw [Option.map_map, Option.map_map]
      exact .inl (map_congr_of_map_eq (ahead.unversioned_eq other) fun _ _ _ => rfl)
    next => exact ahead.phiVersions other

theorem enter (ahead : Ahead goal first second) (block : BlockId) (current : Current) :
    Ahead goal (enter block current first) (enter block current second) where
  links_eq := ahead.links_eq
  versions_eq := ahead.versions_eq
  agree := by
    refine ahead.agree.modifyBoth ?_ block
    exact fun _ _ same => same
  unversioned_eq := ahead.unversioned_eq
  definitions := by
    refine ahead.definitions.keep ?_ block
    exact fun _ => rfl
  entryVersions := ahead.entryVersions.overwrite ahead.agree (fun _ _ => rfl) block
  exitVersions := by
    refine ahead.exitVersions.keep ?_ block
    exact fun _ => rfl
  phiVersions := ahead.phiVersions

theorem leave (ahead : Ahead goal first second) (block : BlockId) (definitions : List Definition)
    (current : Current) :
    Ahead goal (leave block definitions current first)
      (leave block definitions current second) where
  links_eq := ahead.links_eq
  versions_eq := ahead.versions_eq
  agree := by
    refine ahead.agree.modifyBoth (fun one two same => ?_) block
    simp_all [withoutVersions]
  unversioned_eq := ahead.unversioned_eq
  definitions := ahead.definitions.overwrite ahead.agree (fun _ _ => rfl) block
  entryVersions := by
    refine ahead.entryVersions.keep ?_ block
    exact fun _ => rfl
  exitVersions := ahead.exitVersions.overwrite ahead.agree (fun _ _ => rfl) block
  phiVersions := ahead.phiVersions

/-- Phis are fed the same, whatever their versions. -/
theorem feedPhi (ahead : Ahead goal first second) (block : BlockId) (current : Current)
    (place : Nat) :
    Ahead goal (feedPhi block current place first).2 (feedPhi block current place second).2 := by
  cases found : first.flow.phis[place]? with
  | none =>
      rw [feedPhi_of_none found, feedPhi_of_none (ahead.phi_none found)]
      exact ahead
  | some phi =>
      rcases ahead.exists_phi found with ⟨version, foundToo⟩
      rw [run_feedPhi found, run_feedPhi foundToo]
      constructor
      · exact congrArg (_ ++ ·) ahead.links_eq
      · exact ahead.versions_eq
      · exact ⟨ahead.agree.blocks, ahead.agree.entries⟩
      · intro other
        rw [Array.getElem?_modify, Array.getElem?_modify]
        split
        next =>
          rw [Option.map_map, Option.map_map]
          refine map_congr_of_map_eq (ahead.unversioned_eq other) fun one two same => ?_
          simp_all [Phi.unversioned]
        next => exact ahead.unversioned_eq other
      · exact ahead.definitions
      · exact ahead.entryVersions
      · exact ahead.exitVersions
      · intro other
        rw [Array.getElem?_modify, Array.getElem?_modify]
        split
        next =>
          rw [Option.map_map, Option.map_map]
          exact ahead.phiVersions other
        next => exact ahead.phiVersions other

theorem foldl {α : Type} {step : Renaming → α → Renaming}
    (stays : ∀ item, ∀ {first second : Renaming}, Ahead goal first second →
      Ahead goal (step first item) (step second item))
    (items : List α) (ahead : Ahead goal first second) :
    Ahead goal (items.foldl step first) (items.foldl step second) := by
  induction items generalizing first second with
  | nil => exact ahead
  | cons item items inductionHypothesis => exact inductionHypothesis (stays item ahead)

/-! ## Whole runs -/

theorem renamePhis (ahead : Ahead goal first second) (places : List Nat) (current : Current) :
    (renamePhis places current second).1 = (renamePhis places current first).1 ∧
      Ahead goal (renamePhis places current first).2 (renamePhis places current second).2 := by
  induction places generalizing current first second with
  | nil => exact ⟨rfl, ahead⟩
  | cons place places inductionHypothesis =>
      cases found : first.flow.phis[place]? with
      | none =>
          rw [renamePhis_of_none found, renamePhis_of_none (ahead.phi_none found)]
          exact inductionHypothesis ahead current
      | some phi =>
          rcases ahead.exists_phi found with ⟨version, foundToo⟩
          rw [renamePhis_of_some found, renamePhis_of_some foundToo, ahead.versionCount_eq]
          exact inductionHypothesis (ahead.versionPhi place phi.var) _

theorem renameDefinitions (ahead : Ahead goal first second) {definitions others : List Definition}
    (same : others.map Definition.unversioned = definitions.map Definition.unversioned)
    (current : Current) :
    (renameDefinitions others current second).1 = (renameDefinitions definitions current first).1 ∧
      Ahead goal (renameDefinitions definitions current first).2
        (renameDefinitions others current second).2 := by
  induction definitions generalizing others current first second with
  | nil =>
      rw [List.map_nil, List.map_eq_nil_iff] at same
      subst same
      exact ⟨rfl, ahead⟩
  | cons definition definitions inductionHypothesis =>
      cases others with
      | nil => contradiction
      | cons other others =>
          rcases List.cons.inj same with ⟨equal, same⟩
          have varEq := congrArg Definition.var equal
          have nodeEq := congrArg Definition.node equal
          change other.var = definition.var at varEq
          change other.node = definition.node at nodeEq
          rw [renameDefinitions_cons, renameDefinitions_cons, varEq, nodeEq, ahead.versionCount_eq]
          simp only
          rcases inductionHypothesis (ahead.giveVersion definition.var) same
            (current.insert definition.var
              (first.flow.versionCount definition.var + 1, definition.node)) with ⟨result, later⟩
          rw [result]
          exact ⟨rfl, later⟩

theorem feedSuccessors (ahead : Ahead goal first second) (block : BlockId) (current : Current) :
    Ahead goal (feedSuccessors block current first) (feedSuccessors block current second) := by
  have successors : second.flow.successors block = first.flow.successors block :=
    ahead.agree.getD_eq (·.successors) block
  rw [Renaming.feedSuccessors, Renaming.feedSuccessors, successors]
  refine foldl (fun successor first second ahead => ?_) _ ahead
  have places : second.flow.phiPlaces successor = first.flow.phiPlaces successor :=
    ahead.agree.getD_eq (·.phis) successor
  rw [places]
  exact foldl (fun place _ _ ahead => ahead.feedPhi block current place) _ ahead

theorem renameOne (ahead : Ahead goal first second) (block : BlockId) (current : Current) :
    (renameOne block current second).1 = (renameOne block current first).1 ∧
      Ahead goal (renameOne block current first).2 (renameOne block current second).2 := by
  have places : second.flow.phiPlaces block = first.flow.phiPlaces block :=
    ahead.agree.getD_eq (·.phis) block
  rw [renameOne_eq, renameOne_eq, places]
  simp only
  rcases ahead.renamePhis (first.flow.phiPlaces block) current with ⟨entryEq, phisDone⟩
  rw [entryEq]
  generalize Renaming.renamePhis (first.flow.phiPlaces block) current first = one
    at entryEq phisDone ⊢
  generalize Renaming.renamePhis (first.flow.phiPlaces block) current second = two
    at entryEq phisDone ⊢
  have entered := phisDone.enter block one.1
  have definitions := map_definitions_eq (entered.agree.of_view (·.definitions)) block
  rcases entered.renameDefinitions definitions one.1 with ⟨resultEq, renamed⟩
  rw [resultEq]
  exact ⟨rfl, (renamed.leave block _ _).feedSuccessors block _⟩

theorem renameTree (ahead : Ahead goal first second) (depth : Nat) (block : BlockId)
    (current : Current) :
    Ahead goal (renameTree depth block current first).2
      (renameTree depth block current second).2 := by
  induction depth generalizing block current first second with
  | zero => exact ahead
  | succ depth inductionHypothesis =>
      rcases ahead.renameOne block current with ⟨result, renamed⟩
      have children : (Renaming.renameOne block current second).2.flow.childrenOf block =
          (Renaming.renameOne block current first).2.flow.childrenOf block :=
        renamed.agree.getD_eq (·.children) block
      rw [renameTree_succ, renameTree_succ]
      simp only [result, children]
      exact foldl (fun child _ _ ahead => inductionHypothesis ahead child _) _ renamed

theorem renameRegions (ahead : Ahead goal first second) :
    Ahead goal (renameRegions first).2 (renameRegions second).2 := by
  have reachable : second.flow.isReachable = first.flow.isReachable := by
    funext block
    exact ahead.agree.any_eq (·.reachable) block
  rw [renameRegions_run, renameRegions_run, ahead.agree.entries, ahead.agree.size_eq, reachable]
  refine foldl (fun entry first second ahead => ?_) _ ahead
  split
  next => exact ahead.renameTree _ entry .empty
  next => exact ahead

theorem block?_eq (ahead : Ahead first.flow first second) (block : BlockId) :
    second.flow.block? block = first.flow.block? block := by
  have same := ahead.agree.blocks block
  have definitions := or_self_iff.1 (ahead.definitions block)
  have entryVersions := or_self_iff.1 (ahead.entryVersions block)
  have exitVersions := or_self_iff.1 (ahead.exitVersions block)
  cases one : first.flow.block? block with
  | none =>
      rw [one] at same
      exact Option.map_eq_none_iff.1 same
  | some found =>
      rw [one] at same definitions entryVersions exitVersions
      rcases Option.map_eq_some_iff.1 same with ⟨other, two, equal⟩
      rw [two] at definitions entryVersions exitVersions ⊢
      cases found
      cases other
      simp_all [withoutVersions]

theorem phi_eq (ahead : Ahead first.flow first second) (place : Nat) :
    second.flow.phis[place]? = first.flow.phis[place]? := by
  have version := or_self_iff.1 (ahead.phiVersions place)
  cases one : first.flow.phis[place]? with
  | none => exact ahead.phi_none one
  | some phi =>
      rcases ahead.exists_phi one with ⟨given, two⟩
      rw [one, two] at version
      cases version
      exact two

/-- Where the first run ends, the second one ends too. -/
theorem flow_eq (ahead : Ahead goal first second) (ended : first.flow = goal) :
    second.flow = goal := by
  subst ended
  exact eq_of_same (Array.ext_getElem? ahead.block?_eq) ahead.agree.entries
    (Array.ext_getElem? ahead.phi_eq) ahead.versions_eq

end Ahead

end Renaming

namespace ControlFlow

/-- A second run starts with the versions that the first one left. -/
theorem ahead_clearVersions (flow : ControlFlow) :
    Renaming.Ahead flow.rename.1 ⟨flow.clearVersions, []⟩ ⟨flow.rename.1.clearVersions, []⟩ where
  links_eq := rfl
  versions_eq := rfl
  agree := ⟨(retains_rename flow).agree.blocks, (retains_rename flow).agree.entries⟩
  unversioned_eq place := by
    have same := (retains_rename flow).unnamed_eq place
    rw [clearVersions, clearVersions, Array.getElem?_map, Array.getElem?_map, Option.map_map,
      Option.map_map]
    exact same
  definitions _ := .inr rfl
  entryVersions _ := .inr rfl
  exitVersions _ := .inr rfl
  phiVersions place := by
    rw [clearVersions, clearVersions, Array.getElem?_map, Option.map_map]
    exact .inr rfl

/-- Renaming again changes nothing, and finds the same links. -/
theorem rename_rename (flow : ControlFlow) : flow.rename.1.rename = flow.rename := by
  have ahead := flow.ahead_clearVersions.renameRegions
  refine Prod.ext ?_ ?_
  · exact (flow_rename _).trans (ahead.flow_eq (flow_rename flow).symm)
  · rw [links_rename, ahead.links_eq, ← links_rename]

end ControlFlow

end EscapePlan
