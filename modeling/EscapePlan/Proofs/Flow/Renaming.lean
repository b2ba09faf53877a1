import EscapePlan.Proofs.Flow.PhiPlacement
import EscapePlan.Proofs.Flow.Replay

/-!
# Renaming one block

Renaming a block gives new versions to what the block produces, states what is current
before and after that, and makes it a source of the phis of its successors.  Nothing
else changes.
-/

namespace EscapePlan

/-- A definition whatever its version. -/
def Definition.unversioned (definition : Definition) : Definition :=
  { definition with version := 0 }

/-- A phi whatever its version. -/
def Phi.unversioned (phi : Phi) : Phi :=
  { phi with version := 0 }

/-- A phi whatever its sources. -/
def Phi.unsourced (phi : Phi) : Phi :=
  { phi with sources := [] }

/-! ## What changes and what does not -/

/-- A phi apart from what renaming gives it. -/
def Phi.unnamed (phi : Phi) : Phi :=
  { phi with version := 0, sources := [] }

namespace ControlFlow

/-- A block apart from the versions in it. -/
def withoutVersions (block : Block) : Block :=
  { block with
    definitions := block.definitions.map Definition.unversioned
    entryVersions := .empty
    exitVersions := .empty }

/-- Definitions are the same up to versions if they are so in every block. -/
theorem map_definitions_eq {first second : ControlFlow}
    (agree : Agree (fun found => found.definitions.map Definition.unversioned) first second)
    (block : BlockId) :
    (second.definitions block).map Definition.unversioned =
      (first.definitions block).map Definition.unversioned := by
  rw [definitions, definitions, ← Option.getD_map (List.map _), ← Option.getD_map (List.map _),
    Option.map_map, Option.map_map]
  exact congrArg (·.getD []) (agree.blocks block)

/-- What renaming keeps: blocks and phis apart from the versions in them. -/
structure Retains (before after : ControlFlow) : Prop where
  agree : Agree withoutVersions before after
  unnamed_eq : ∀ place : Nat,
    (after.phis[place]?).map Phi.unnamed = (before.phis[place]?).map Phi.unnamed

namespace Retains

variable {first second third : ControlFlow}

theorem refl (flow : ControlFlow) : Retains flow flow :=
  ⟨.refl flow, fun _ => rfl⟩

theorem trans (one : Retains first second) (two : Retains second third) : Retains first third where
  agree := one.agree.trans two.agree
  unnamed_eq place := (two.unnamed_eq place).trans (one.unnamed_eq place)

theorem phiPlaces_eq (retains : Retains first second) (block : BlockId) :
    second.phiPlaces block = first.phiPlaces block :=
  retains.agree.getD_eq (·.phis) block

theorem successors_eq (retains : Retains first second) (block : BlockId) :
    second.successors block = first.successors block :=
  retains.agree.getD_eq (·.successors) block

theorem phi_eq (retains : Retains first second) {place : Nat} {phi old : Phi}
    (found : second.phis[place]? = some phi) (foundOld : first.phis[place]? = some old) :
    phi.block = old.block ∧ phi.var = old.var := by
  have same := retains.unnamed_eq place
  rw [found, foundOld, Option.map_some, Option.map_some, Option.some.injEq] at same
  have blockEq := congrArg Phi.block same
  have varEq := congrArg Phi.var same
  exact ⟨blockEq, varEq⟩

/-- What phis have apart from versions and sources is the same. -/
theorem map_phis {α : Type} (retains : Retains first second) {view : Phi → α}
    (unnamed : ∀ phi, view phi.unnamed = view phi) :
    second.phis.toList.map view = first.phis.toList.map view := by
  apply List.ext_getElem?
  intro place
  rw [List.getElem?_map, List.getElem?_map, Array.getElem?_toList, Array.getElem?_toList]
  have same := congrArg (Option.map view) (retains.unnamed_eq place)
  rw [Option.map_map, Option.map_map] at same
  simpa only [Function.comp_def, unnamed] using same

/-- The phis that blocks hold are the same. -/
theorem holdsPhis (retains : Retains first second) {sites : List (BlockId × VarId)}
    (holds : HoldsPhis sites first) : HoldsPhis sites second where
  sites_eq := by
    rw [← holds.sites_eq]
    refine retains.map_phis ?_
    exact fun _ => rfl
  mem_phiPlaces block place := by
    have same := congrArg (Option.map Phi.block) (retains.unnamed_eq place)
    rw [Option.map_map, Option.map_map] at same
    rw [retains.phiPlaces_eq, holds.mem_phiPlaces, ← Option.map_eq_some_iff,
      ← Option.map_eq_some_iff]
    exact (congrArg (· = some block) same.symm).to_iff
  nodup_phiPlaces block := by
    rw [retains.phiPlaces_eq]
    exact holds.nodup_phiPlaces block

end Retains

/-- Renaming some blocks does not touch the versions that belong to other blocks. -/
structure Keeps (touched : BlockId → Prop) (before after : ControlFlow) : Prop
    extends Retains before after where
  block?_eq : ∀ block, ¬ touched block → after.block? block = before.block? block
  phiDefinitions_eq : ∀ block, ¬ touched block →
    after.phiDefinitions block = before.phiDefinitions block

namespace Keeps

variable {touched other : BlockId → Prop} {first second third : ControlFlow}

theorem refl (touched : BlockId → Prop) (flow : ControlFlow) : Keeps touched flow flow :=
  ⟨.refl flow, fun _ _ => rfl, fun _ _ => rfl⟩

theorem trans (one : Keeps touched first second) (two : Keeps touched second third) :
    Keeps touched first third where
  toRetains := one.toRetains.trans two.toRetains
  block?_eq block spared := (two.block?_eq block spared).trans (one.block?_eq block spared)
  phiDefinitions_eq block spared :=
    (two.phiDefinitions_eq block spared).trans (one.phiDefinitions_eq block spared)

theorem mono (keeps : Keeps touched first second) (more : ∀ block, touched block → other block) :
    Keeps other first second where
  toRetains := keeps.toRetains
  block?_eq block spared := keeps.block?_eq block (mt (more block) spared)
  phiDefinitions_eq block spared := keeps.phiDefinitions_eq block (mt (more block) spared)

theorem produced_eq (keeps : Keeps touched first second) {block : BlockId}
    (spared : ¬ touched block) : second.produced block = first.produced block := by
  rw [produced, produced, keeps.phiDefinitions_eq block spared, definitions,
    keeps.block?_eq block spared]
  rfl

end Keeps

theorem block?_eq_of_blocks_eq {first second : ControlFlow} (same : second.blocks = first.blocks)
    (block : BlockId) : second.block? block = first.block? block := by
  rw [block?, same]
  rfl

theorem phiDefinitions_eq_filterMap (flow : ControlFlow) (block : BlockId) :
    flow.phiDefinitions block =
      (flow.phiPlaces block).filterMap fun place => (flow.phis[place]?).map Phi.definition :=
  List.map_filterMap

/-- Phis at the same places that produce the same. -/
theorem phiDefinitions_congr {first second : ControlFlow} {block : BlockId}
    (places : second.phiPlaces block = first.phiPlaces block)
    (same : ∀ place ∈ first.phiPlaces block,
      (second.phis[place]?).map Phi.definition = (first.phis[place]?).map Phi.definition) :
    second.phiDefinitions block = first.phiDefinitions block := by
  rw [phiDefinitions_eq_filterMap, phiDefinitions_eq_filterMap, places]
  exact List.filterMap_congr same

/-! ## Versions in order -/

/-- The versions in some definitions of a variable, in order. -/
def versionsOf (var : VarId) (definitions : List Definition) : List Nat :=
  (definitions.filter (·.var = var)).map (·.version)

/-- From one control flow to another, some definitions have got the next versions of their
variables in order. -/
def Counts (before : ControlFlow) (given : List Definition) (after : ControlFlow) : Prop :=
  ∀ var, List.range' 1 (before.versionCount var) ++ versionsOf var given =
    List.range' 1 (after.versionCount var)

theorem versionCount_eq_of_versions_eq {before after : ControlFlow}
    (same : after.versions = before.versions) (var : VarId) :
    after.versionCount var = before.versionCount var := by
  rw [versionCount, versionCount, same]

theorem Counts.nil {before after : ControlFlow} (same : after.versions = before.versions) :
    Counts before [] after := by
  intro var
  rw [versionCount_eq_of_versions_eq same]
  exact List.append_nil _

theorem Counts.append {first second third : ControlFlow} {given later : List Definition}
    (one : Counts first given second) (two : Counts second later third) :
    Counts first (given ++ later) third := by
  intro var
  rw [← two var, ← one var, versionsOf, versionsOf, versionsOf, List.filter_append, List.map_append,
    List.append_assoc]

theorem counts_insert {before after : ControlFlow} {var : VarId}
    (same : after.versions = before.versions.insert var (before.versionCount var + 1))
    (node : NodeId) : Counts before [⟨var, node, before.versionCount var + 1⟩] after := by
  intro other
  rw [versionCount.eq_1 after, same, Table.find?_insert]
  by_cases equal : var = other
  · subst equal
    simp [versionsOf, List.range'_1_concat, Nat.add_comm 1]
  · simp [versionsOf, equal, Ne.symm equal, versionCount]

end ControlFlow

namespace Renaming

open ControlFlow

/-- A loop that goes through all its items runs their steps one after the other. -/
theorem run_forIn {α : Type} {body : α → PUnit → StateM Renaming (ForInStep PUnit)}
    {step : Renaming → α → Renaming}
    (yields : ∀ item state, body item .unit state = (.yield .unit, step state item))
    (items : List α) (state : Renaming) :
    (forIn items PUnit.unit body : StateM Renaming PUnit) state =
      (.unit, items.foldl step state) := by
  induction items generalizing state with
  | nil => rfl
  | cons item items inductionHypothesis =>
      rw [List.forIn_cons]
      simp only [bind, StateT.bind, yields]
      exact inductionHypothesis (step state item)

/-! ## Phis -/

/-- What giving versions to the phis of some places does. -/
structure PhisRenamed (places : List Nat) (current : Current) (before : ControlFlow)
    (result : Current) (after : ControlFlow) : Prop where
  blocks_eq : after.blocks = before.blocks
  entries_eq : after.entries = before.entries
  getElem?_eq : ∀ place : Nat, place ∉ places → after.phis[place]? = before.phis[place]?
  unversioned_eq : ∀ place : Nat,
    (after.phis[place]?).map Phi.unversioned = (before.phis[place]?).map Phi.unversioned
  current_eq : result =
    current.after ((places.filterMap (after.phis[·]?)).map Phi.definition)
  counts : Counts before ((places.filterMap (after.phis[·]?)).map Phi.definition) after

/-- The state once the phi at a place has the next version of a variable. -/
def versionPhi (place : Nat) (var : VarId) (state : Renaming) : Renaming :=
  { state with
    flow := { state.flow with
      versions := state.flow.versions.insert var (state.flow.versionCount var + 1)
      phis := state.flow.phis.modify place fun phi =>
        { phi with version := state.flow.versionCount var + 1 } } }

theorem getElem?_versionPhi (place : Nat) (var : VarId) (state : Renaming) (other : Nat) :
    (versionPhi place var state).flow.phis[other]? =
      if place = other then
        (state.flow.phis[other]?).map fun phi =>
          { phi with version := state.flow.versionCount var + 1 }
      else state.flow.phis[other]? :=
  Array.getElem?_modify

theorem unversioned_versionPhi (place : Nat) (var : VarId) (state : Renaming) (other : Nat) :
    ((versionPhi place var state).flow.phis[other]?).map Phi.unversioned =
      (state.flow.phis[other]?).map Phi.unversioned := by
  rw [getElem?_versionPhi]
  split
  next => rw [Option.map_map]; rfl
  next => rfl

theorem renamePhis_of_none {place : Nat} {places : List Nat} {current : Current}
    {state : Renaming} (unknown : state.flow.phis[place]? = none) :
    renamePhis (place :: places) current state = renamePhis places current state := by
  rw [renamePhis]
  simp only [bind, StateT.bind, get, getThe, MonadStateOf.get, StateT.get, pure, unknown]

theorem renamePhis_of_some {place : Nat} {places : List Nat} {current : Current}
    {state : Renaming} {phi : Phi} (known : state.flow.phis[place]? = some phi) :
    renamePhis (place :: places) current state =
      renamePhis places
        (current.insert phi.var (state.flow.versionCount phi.var + 1, phi.node))
        (versionPhi place phi.var state) := by
  rw [renamePhis]
  simp only [bind, StateT.bind, get, getThe, MonadStateOf.get, StateT.get, pure, known]
  rfl

theorem phisRenamed_renamePhis {places : List Nat} (nodup : places.Nodup) (current : Current)
    (state : Renaming) :
    PhisRenamed places current state.flow (renamePhis places current state).1
      (renamePhis places current state).2.flow := by
  induction places generalizing current state with
  | nil => exact ⟨rfl, rfl, fun _ _ => rfl, fun _ => rfl, rfl, .nil rfl⟩
  | cons place places inductionHypothesis =>
      rcases List.nodup_cons.1 nodup with ⟨fresh, nodup⟩
      cases found : state.flow.phis[place]? with
      | none =>
          have renamed := inductionHypothesis nodup current state
          have unknown := (renamed.getElem?_eq place fresh).trans found
          rw [renamePhis_of_none found]
          refine ⟨renamed.blocks_eq, renamed.entries_eq, ?_, renamed.unversioned_eq, ?_, ?_⟩
          · intro other absent
            exact renamed.getElem?_eq other fun member => absent (List.mem_cons_of_mem _ member)
          · rw [List.filterMap_cons_none unknown]
            exact renamed.current_eq
          · rw [List.filterMap_cons_none unknown]
            exact renamed.counts
      | some phi =>
          have renamed := inductionHypothesis nodup
            (current.insert phi.var (state.flow.versionCount phi.var + 1, phi.node))
            (versionPhi place phi.var state)
          have known := renamed.getElem?_eq place fresh
          rw [getElem?_versionPhi, if_pos rfl, found] at known
          rw [renamePhis_of_some found]
          refine ⟨renamed.blocks_eq, renamed.entries_eq, ?_, ?_, ?_, ?_⟩
          · intro other absent
            rw [List.mem_cons, not_or] at absent
            rw [renamed.getElem?_eq other absent.2, getElem?_versionPhi,
              if_neg (Ne.symm absent.1)]
          · intro other
            rw [renamed.unversioned_eq other, unversioned_versionPhi]
          · rw [List.filterMap_cons_some known]
            exact renamed.current_eq
          · rw [List.filterMap_cons_some known]
            exact (counts_insert rfl phi.node).append renamed.counts

/-! ## Definitions -/

/-- What giving versions to definitions does. -/
structure DefinitionsRenamed (definitions : List Definition) (current : Current)
    (before : ControlFlow) (result : List Definition × Current) (after : ControlFlow) : Prop where
  blocks_eq : after.blocks = before.blocks
  entries_eq : after.entries = before.entries
  phis_eq : after.phis = before.phis
  unversioned_eq : result.1.map Definition.unversioned = definitions.map Definition.unversioned
  current_eq : result.2 = current.after result.1
  counts : Counts before result.1 after

theorem definitionsRenamed_renameDefinitions (definitions : List Definition) (current : Current)
    (state : Renaming) :
    DefinitionsRenamed definitions current state.flow
      (renameDefinitions definitions current state).1
      (renameDefinitions definitions current state).2.flow := by
  induction definitions generalizing current state with
  | nil => exact ⟨rfl, rfl, rfl, rfl, rfl, .nil rfl⟩
  | cons definition definitions inductionHypothesis =>
      have renamed := inductionHypothesis
        (current.insert definition.var
          (state.flow.versionCount definition.var + 1, definition.node))
        { state with
          flow := { state.flow with
            versions := state.flow.versions.insert definition.var
              (state.flow.versionCount definition.var + 1) } }
      exact ⟨renamed.blocks_eq, renamed.entries_eq, renamed.phis_eq,
        congrArg (definition.unversioned :: ·) renamed.unversioned_eq, renamed.current_eq,
        (counts_insert rfl definition.node).append renamed.counts⟩

/-! ## Sources -/

/-- What making the end of a block a source of the phis at some places does, once for each time
that a place is listed. -/
structure Fed (block : BlockId) (current : Current) (places : List Nat)
    (before after : ControlFlow) : Prop where
  blocks_eq : after.blocks = before.blocks
  entries_eq : after.entries = before.entries
  versions_eq : after.versions = before.versions
  getElem?_eq : ∀ place : Nat, after.phis[place]? = (before.phis[place]?).map fun phi =>
    { phi with
      sources := phi.sources ++
        List.replicate (places.count place) (.ofCurrent block (current.find? phi.var)) }

theorem Fed.refl (block : BlockId) (current : Current) (flow : ControlFlow) :
    Fed block current [] flow flow where
  blocks_eq := rfl
  entries_eq := rfl
  versions_eq := rfl
  getElem?_eq place := by
    simp only [List.count_nil, List.replicate_zero, List.append_nil]
    exact Option.map_id'.symm

theorem Fed.trans {block : BlockId} {current : Current} {places others : List Nat}
    {first second third : ControlFlow} (one : Fed block current places first second)
    (two : Fed block current others second third) :
    Fed block current (places ++ others) first third where
  blocks_eq := two.blocks_eq.trans one.blocks_eq
  entries_eq := two.entries_eq.trans one.entries_eq
  versions_eq := two.versions_eq.trans one.versions_eq
  getElem?_eq place := by
    rw [two.getElem?_eq, one.getElem?_eq, Option.map_map]
    simp only [Function.comp_def, List.append_assoc, List.replicate_append_replicate,
      List.count_append]

theorem Fed.unsourced_eq {block : BlockId} {current : Current} {places : List Nat}
    {before after : ControlFlow} (fed : Fed block current places before after) (place : Nat) :
    (after.phis[place]?).map Phi.unsourced = (before.phis[place]?).map Phi.unsourced := by
  rw [fed.getElem?_eq, Option.map_map]
  rfl

theorem feedPhi_of_none {block : BlockId} {current : Current} {place : Nat} {state : Renaming}
    (unknown : state.flow.phis[place]? = none) :
    (feedPhi block current place state).2 = state := by
  simp only [feedPhi, modify, modifyGet, MonadStateOf.modifyGet, StateT.modifyGet, pure, unknown]

theorem feedPhi_of_some {block : BlockId} {current : Current} {place : Nat} {state : Renaming}
    {phi : Phi} (known : state.flow.phis[place]? = some phi) :
    (feedPhi block current place state).2.flow = { state.flow with
      phis := state.flow.phis.modify place fun old =>
        { old with sources := old.sources ++ [.ofCurrent block (current.find? phi.var)] } } := by
  simp only [feedPhi, modify, modifyGet, MonadStateOf.modifyGet, StateT.modifyGet, pure, known]
  cases current.find? phi.var with
  | none => rfl
  | some version => rfl

theorem fed_feedPhi (block : BlockId) (current : Current) (place : Nat) (state : Renaming) :
    Fed block current [place] state.flow (feedPhi block current place state).2.flow := by
  cases known : state.flow.phis[place]? with
  | none =>
      rw [feedPhi_of_none known]
      refine ⟨rfl, rfl, rfl, fun other => ?_⟩
      by_cases same : place = other
      · rw [← same, known]
        rfl
      · simp [same]
  | some phi =>
      rw [feedPhi_of_some known]
      refine ⟨rfl, rfl, rfl, fun other => ?_⟩
      rw [Array.getElem?_modify]
      split
      next same =>
        subst same
        simp [known]
      next different => simp [different]

/-- Feeding items that each stand for some places. -/
theorem fed_foldl {α : Type} {block : BlockId} {current : Current} {placesOf : α → List Nat}
    {step : Renaming → α → Renaming} {blocks : Array Block}
    (feeds : ∀ item, ∀ state : Renaming, state.flow.blocks = blocks →
      Fed block current (placesOf item) state.flow (step state item).flow)
    (items : List α) {state : Renaming} (same : state.flow.blocks = blocks) :
    Fed block current (items.flatMap placesOf) state.flow (items.foldl step state).flow := by
  induction items generalizing state with
  | nil => exact .refl block current state.flow
  | cons item items inductionHypothesis =>
      have first := feeds item state same
      exact first.trans (inductionHypothesis (first.blocks_eq.trans same))

/-! ## One block -/

/-- The state once a block states what is current after its phis. -/
def enter (block : BlockId) (current : Current) (state : Renaming) : Renaming :=
  { state with
    flow := state.flow.modifyBlock block fun found =>
      { found with entryVersions := current.map (·.1) } }

/-- The state once a block has its definitions and states what is current at its end. -/
def leave (block : BlockId) (definitions : List Definition) (current : Current)
    (state : Renaming) : Renaming :=
  { state with
    flow := state.flow.modifyBlock block fun found =>
      { found with definitions, exitVersions := current.map (·.1) } }

/-- The state once the end of a block is a source of the phis of its successors. -/
def feedSuccessors (block : BlockId) (current : Current) (state : Renaming) : Renaming :=
  (state.flow.successors block).foldl
    (fun state successor =>
      (state.flow.phiPlaces successor).foldl
        (fun state place => (feedPhi block current place state).2) state)
    state

theorem fed_feedSuccessors (block : BlockId) (current : Current) (state : Renaming) :
    Fed block current ((state.flow.successors block).flatMap state.flow.phiPlaces)
      state.flow (feedSuccessors block current state).flow := by
  refine fed_foldl ?_ _ rfl
  intro successor later same
  have places : later.flow.phiPlaces successor = state.flow.phiPlaces successor := by
    rw [phiPlaces, block?, same]
    rfl
  have fed := @fed_foldl _ block current (fun place => [place]) _ later.flow.blocks
    (fun place state _ => fed_feedPhi block current place state)
    (later.flow.phiPlaces successor) later rfl
  rw [List.flatMap_singleton'] at fed
  exact places ▸ fed

theorem run_enter (block : BlockId) (current : Current) (state : Renaming) :
    modifyBlock block (fun found => { found with entryVersions := current.map (·.1) }) state =
      (.unit, enter block current state) := rfl

theorem run_leave (block : BlockId) (definitions : List Definition) (current : Current)
    (state : Renaming) :
    modifyBlock block
        (fun found => { found with definitions, exitVersions := current.map (·.1) }) state =
      (.unit, leave block definitions current state) := rfl

theorem renameOne_eq (block : BlockId) (current : Current) (state : Renaming) :
    renameOne block current state =
      let phis := renamePhis (state.flow.phiPlaces block) current state
      let entered := enter block phis.1 phis.2
      let renamed := renameDefinitions (entered.flow.definitions block) phis.1 entered
      (renamed.1.2,
        feedSuccessors block renamed.1.2 (leave block renamed.1.1 renamed.1.2 renamed.2)) := by
  rw [renameOne]
  simp only [bind, StateT.bind, get, getThe, MonadStateOf.get, StateT.get, pure, run_enter,
    run_leave]
  rcases renamePhis (state.flow.phiPlaces block) current state with ⟨entered, phisDone⟩
  simp only [ControlFlow.definitions]
  rcases renameDefinitions _ entered (enter block entered phisDone) with
    ⟨⟨definitions, result⟩, definitionsDone⟩
  simp only
  refine congrArg (fun looped : PUnit × Renaming => (result, looped.2)) (run_forIn ?_ _ _)
  intro successor state
  refine congrArg (fun looped : PUnit × Renaming => (ForInStep.yield looped.1, looped.2))
    (run_forIn ?_ _ _)
  intro place state
  rfl

/-- What a block states about current versions is what it produces after what is current before
its phis. -/
structure States (flow : ControlFlow) (block : BlockId) (current : Current) : Prop where
  entry : ∀ var, flow.entryVersion? block var =
    ((current.after (flow.phiDefinitions block)).find? var).map (·.1)
  exit : ∀ var, flow.exitVersion? block var =
    ((current.after (flow.produced block)).find? var).map (·.1)

/-- What renaming one block does. -/
structure OneRenamed (block : BlockId) (current : Current) (before : ControlFlow)
    (result : Current) (after : ControlFlow) : Prop where
  keeps : Keeps (· = block) before after
  states : States after block current
  current_eq : result = current.after (after.produced block)
  counts : Counts before (after.produced block) after
  sources_eq : ∀ (place : Nat) phi, after.phis[place]? = some phi →
    ∃ old, before.phis[place]? = some old ∧
      phi.sources = old.sources ++ List.replicate ((before.successors block).count phi.block)
        (.ofCurrent block (result.find? phi.var))

/-- A source that is not old comes from the block. -/
theorem OneRenamed.sources {block : BlockId} {current result : Current} {before after : ControlFlow}
    (one : OneRenamed block current before result after) {place : Nat} {phi : Phi}
    (found : after.phis[place]? = some phi) {source : PhiSource} (member : source ∈ phi.sources) :
    (∃ old, before.phis[place]? = some old ∧ source ∈ old.sources) ∨
      (phi.block ∈ before.successors block ∧ source = .ofCurrent block (result.find? phi.var)) := by
  rcases one.sources_eq place phi found with ⟨old, foundOld, sourcesEq⟩
  rw [sourcesEq, List.mem_append, List.mem_replicate, Nat.ne_zero_iff_zero_lt,
    List.count_pos_iff] at member
  exact member.imp_left fun before => ⟨old, foundOld, before⟩

/-- A place is listed for a block as often as the block of its phi is. -/
theorem count_flatMap_phiPlaces {sites : List (BlockId × VarId)} {flow : ControlFlow}
    (holds : HoldsPhis sites flow) {place : Nat} {phi : Phi} (found : flow.phis[place]? = some phi)
    (blocks : List BlockId) :
    (blocks.flatMap flow.phiPlaces).count place = blocks.count phi.block := by
  induction blocks with
  | nil => rfl
  | cons block blocks inductionHypothesis =>
      rw [List.flatMap_cons, List.count_append, inductionHypothesis]
      by_cases same : block = phi.block
      · have listed := (holds.mem_phiPlaces block place).2 ⟨phi, found, same.symm⟩
        rw [List.count_eq_one_of_mem (holds.nodup_phiPlaces block) listed, same,
          List.count_cons_self, Nat.add_comm]
      · have absent : place ∉ flow.phiPlaces block := by
          intro listed
          rcases (holds.mem_phiPlaces block place).1 listed with ⟨other, foundOther, inBlock⟩
          rw [found] at foundOther
          cases foundOther
          exact same inBlock.symm
        rw [List.count_eq_zero_of_not_mem absent, List.count_cons_of_ne same, Nat.zero_add]

theorem oneRenamed_renameOne {sites : List (BlockId × VarId)} {block : BlockId} {state : Renaming}
    (holds : HoldsPhis sites state.flow) (known : block < state.flow.size) (current : Current) :
    OneRenamed block current state.flow (renameOne block current state).1
      (renameOne block current state).2.flow := by
  rw [renameOne_eq]
  simp only
  have phisStep := phisRenamed_renamePhis (holds.nodup_phiPlaces block) current state
  generalize renamePhis (state.flow.phiPlaces block) current state = phis at phisStep ⊢
  have definitionsStep := definitionsRenamed_renameDefinitions
    ((enter block phis.1 phis.2).flow.definitions block) phis.1 (enter block phis.1 phis.2)
  generalize renameDefinitions ((enter block phis.1 phis.2).flow.definitions block) phis.1
    (enter block phis.1 phis.2) = renamed at definitionsStep ⊢
  have feedStep :=
    fed_feedSuccessors block renamed.1.2 (leave block renamed.1.1 renamed.1.2 renamed.2)
  generalize (feedSuccessors block renamed.1.2
    (leave block renamed.1.1 renamed.1.2 renamed.2)).flow = after at feedStep ⊢
  rcases exists_block?_of_lt known with ⟨found, foundEq⟩
  -- Blocks change when the block is entered and when it is left, phis before and after that.
  have entered : ∀ other, renamed.2.flow.block? other =
      if block = other then
        (state.flow.block? other).map fun found => { found with entryVersions := phis.1.map (·.1) }
      else state.flow.block? other := by
    intro other
    rw [block?_eq_of_blocks_eq definitionsStep.blocks_eq, enter, block?_modifyBlock,
      block?_eq_of_blocks_eq phisStep.blocks_eq]
  have blocksEq : ∀ other, after.block? other =
      if block = other then
        (state.flow.block? other).map fun found =>
          { found with
            entryVersions := phis.1.map (·.1)
            definitions := renamed.1.1
            exitVersions := renamed.1.2.map (·.1) }
      else state.flow.block? other := by
    intro other
    rw [block?_eq_of_blocks_eq feedStep.blocks_eq, leave, block?_modifyBlock, entered]
    split
    next => rw [Option.map_map]; rfl
    next => rfl
  have unsourced : ∀ place : Nat, (after.phis[place]?).map Phi.unsourced =
      (phis.2.flow.phis[place]?).map Phi.unsourced := by
    intro place
    rw [feedStep.unsourced_eq place]
    show ((renamed.2.flow.phis)[place]?).map Phi.unsourced = _
    rw [definitionsStep.phis_eq]
    rfl
  have versioned : ∀ place : Nat, (after.phis[place]?).map Phi.definition =
      (phis.2.flow.phis[place]?).map Phi.definition := by
    intro place
    have same := congrArg (Option.map Phi.definition) (unsourced place)
    rwa [Option.map_map, Option.map_map] at same
  have places : ∀ other, after.phiPlaces other = state.flow.phiPlaces other := by
    intro other
    rw [phiPlaces, blocksEq]
    split
    next => rw [Option.map_map]; rfl
    next => rfl
  have produces : after.phiDefinitions block =
      ((state.flow.phiPlaces block).filterMap (phis.2.flow.phis[·]?)).map Phi.definition := by
    rw [phiDefinitions_eq_filterMap, places, List.map_filterMap]
    exact List.filterMap_congr fun place _ => versioned place
  have definesEq : (enter block phis.1 phis.2).flow.definitions block = found.definitions := by
    rw [definitions, enter, block?_modifyBlock, if_pos rfl,
      block?_eq_of_blocks_eq phisStep.blocks_eq, foundEq]
    rfl
  have blockEq := blocksEq block
  rw [if_pos rfl, foundEq, Option.map_some] at blockEq
  have defines : after.definitions block = renamed.1.1 := by
    rw [definitions, blockEq]
    rfl
  have currentEq : phis.1 = current.after (after.phiDefinitions block) :=
    produces ▸ phisStep.current_eq
  have resultEq : renamed.1.2 = current.after (after.produced block) := by
    rw [produced, Current.after_append, ← currentEq, defines]
    exact definitionsStep.current_eq
  have keeps : Keeps (· = block) state.flow after := by
    refine ⟨⟨⟨?_, ?_⟩, ?_⟩, ?_, ?_⟩
    · intro other
      rw [blocksEq]
      split
      next same =>
        have same := definitionsStep.unversioned_eq
        rw [definesEq] at same
        subst block
        rw [foundEq]
        simp only [Option.map_some, withoutVersions, same]
      next => rfl
    · exact feedStep.entries_eq.trans (definitionsStep.entries_eq.trans phisStep.entries_eq)
    · intro place
      have one := congrArg (Option.map Phi.unversioned) (unsourced place)
      have two := congrArg (Option.map Phi.unsourced) (phisStep.unversioned_eq place)
      rw [Option.map_map, Option.map_map] at one two
      exact one.trans two
    · intro other different
      rw [blocksEq, if_neg (Ne.symm different)]
    · intro other different
      refine phiDefinitions_congr (places other) fun place member => ?_
      rw [versioned, phisStep.getElem?_eq place]
      intro own
      rcases (holds.mem_phiPlaces other place).1 member with ⟨phi, foundPhi, inOther⟩
      rcases (holds.mem_phiPlaces block place).1 own with ⟨again, foundAgain, inBlock⟩
      rw [foundPhi] at foundAgain
      cases foundAgain
      exact different (inOther.symm.trans inBlock)
  constructor
  · exact keeps
  · constructor
    · intro var
      rw [entryVersion?, blockEq, ← currentEq]
      exact Table.find?_map _ _ _
    · intro var
      rw [exitVersion?, blockEq, ← resultEq]
      exact Table.find?_map _ _ _
  · exact resultEq
  · have definitionsCount : Counts phis.2.flow renamed.1.1 after := by
      intro var
      rw [versionCount_eq_of_versions_eq feedStep.versions_eq]
      exact definitionsStep.counts var
    rw [produced, produces, defines]
    exact phisStep.counts.append definitionsCount
  · intro place phi known
    have blockSame := block?_eq_of_blocks_eq feedStep.blocks_eq
    have successorsEq : (leave block renamed.1.1 renamed.1.2 renamed.2).flow.successors block =
        state.flow.successors block := by
      rw [← keeps.successors_eq, successors, successors, blockSame]
    have phiPlacesEq : (leave block renamed.1.1 renamed.1.2 renamed.2).flow.phiPlaces =
        state.flow.phiPlaces := by
      funext other
      rw [← places, phiPlaces, phiPlaces, blockSame]
    rw [feedStep.getElem?_eq, successorsEq, phiPlacesEq] at known
    rcases Option.map_eq_some_iff.1 known with ⟨middle, foundMiddle, rfl⟩
    have versionedAt : phis.2.flow.phis[place]? = some middle :=
      (congrArg (·[place]?) definitionsStep.phis_eq.symm).trans foundMiddle
    have older := phisStep.unversioned_eq place
    rw [versionedAt] at older
    rcases Option.map_eq_some_iff.1 older.symm with ⟨old, foundOld, unversioned⟩
    have sameBlock := congrArg Phi.block unversioned
    have sameSources := congrArg Phi.sources unversioned
    change old.block = middle.block at sameBlock
    change old.sources = middle.sources at sameSources
    refine ⟨old, foundOld, ?_⟩
    rw [count_flatMap_phiPlaces holds foundOld, sameBlock, sameSources]

end Renaming

end EscapePlan
