import EscapePlan.Proofs.Flow.Reconversion
import Mathlib.Data.List.Count
import Mathlib.Logic.Equiv.Defs

/-!
# Renaming under other numbers

Phis are placed variable by variable, so other numbers for variables mean other numbers for phis and
their nodes.  Renaming reads none of these numbers: it does to control flow under other numbers what
it does to the control flow that this stands for.  The phis of a block may come in another order;
they are of different variables, so that none of them changes what the others get.
-/

namespace EscapePlan

/-- Other numbers for variables, for the places of phis, and for nodes. -/
structure Numbering where
  vars : Equiv.Perm VarId
  places : Equiv.Perm Nat
  nodes : Equiv.Perm NodeId

/-- A table holds under other keys what corresponds to what another one holds. -/
def Table.Turns {α β : Type} (keys : Equiv.Perm Nat) (change : α → β) (one : Table α)
    (two : Table β) : Prop :=
  ∀ key, two.find? (keys key) = (one.find? key).map change

namespace Table.Turns

variable {α β : Type} {keys : Equiv.Perm Nat} {change : α → β} {one : Table α} {two : Table β}

theorem empty : Turns keys change (.empty : Table α) .empty :=
  fun _ => rfl

theorem insert (turns : Turns keys change one two) (key : Nat) (value : α) :
    Turns keys change (one.insert key value) (two.insert (keys key) (change value)) := by
  intro other
  rw [find?_insert, find?_insert, turns other]
  by_cases same : other = key
  · rw [if_pos same, if_pos (congrArg keys same)]
    rfl
  · rw [if_neg same, if_neg (keys.injective.ne same)]

end Table.Turns

theorem Table.insert_comm {α : Type} (table : Table α) {first second : Nat}
    (different : first ≠ second) (one two : α) :
    (table.insert first one).insert second two = (table.insert second two).insert first one := by
  refine ext_find? fun key => ?_
  simp only [find?_insert]
  split
  next same => rw [if_neg (same ▸ different.symm)]
  next => rfl

namespace Numbering

variable (numbering : Numbering)

/-- A definition under other numbers. -/
def definition (definition : Definition) : Definition :=
  { definition with
    var := numbering.vars definition.var
    node := numbering.nodes definition.node }

/-- A source under other numbers. -/
def source (source : PhiSource) : PhiSource :=
  { source with node := source.node.map numbering.nodes }

/-- A phi under other numbers. -/
def phi (phi : Phi) : Phi :=
  { phi with
    var := numbering.vars phi.var
    node := numbering.nodes phi.node
    sources := phi.sources.map numbering.source }

/-- A current version under other numbers. -/
def current (version : Nat × NodeId) : Nat × NodeId :=
  (version.1, numbering.nodes version.2)

theorem source_ofCurrent (block : BlockId) (version : Option (Nat × NodeId)) :
    numbering.source (.ofCurrent block version) = .ofCurrent block (version.map numbering.current) := by
  cases version with
  | none => rfl
  | some version => rfl

end Numbering

open ControlFlow in
/-- A block under other numbers; its phis may come in another order. -/
structure Block.Renumbers (numbering : Numbering) (one two : Block) : Prop where
  computed_eq : computed two = computed one
  definitions_eq : two.definitions = one.definitions.map numbering.definition
  phis_perm : two.phis.Perm (one.phis.map numbering.places)
  entryVersions : one.entryVersions.Turns numbering.vars id two.entryVersions
  exitVersions : one.exitVersions.Turns numbering.vars id two.exitVersions

/-- Control flow under other numbers. -/
structure ControlFlow.Renumbers (numbering : Numbering) (one two : ControlFlow) : Prop where
  blocks : ∀ block, Option.Rel (Block.Renumbers numbering) (one.block? block) (two.block? block)
  entries_eq : two.entries = one.entries
  phis : ∀ place : Nat, two.phis[numbering.places place]? = (one.phis[place]?).map numbering.phi
  versions : one.versions.Turns numbering.vars id two.versions

namespace ControlFlow.Renumbers

variable {numbering : Numbering} {one two : ControlFlow}

/-- Dominators and edges are the same. -/
theorem agree (renumbers : Renumbers numbering one two) : Agree computed one two where
  blocks block := by
    have related := renumbers.blocks block
    generalize one.block? block = found, two.block? block = twin at related ⊢
    cases related with
    | none => rfl
    | some related => exact congrArg some related.computed_eq
  entries := renumbers.entries_eq

theorem definitions_eq (renumbers : Renumbers numbering one two) (block : BlockId) :
    two.definitions block = (one.definitions block).map numbering.definition := by
  have related := renumbers.blocks block
  rw [definitions, definitions]
  generalize one.block? block = found, two.block? block = twin at related ⊢
  cases related with
  | none => rfl
  | some related => exact related.definitions_eq

theorem phiPlaces_perm (renumbers : Renumbers numbering one two) (block : BlockId) :
    (two.phiPlaces block).Perm ((one.phiPlaces block).map numbering.places) := by
  have related := renumbers.blocks block
  rw [phiPlaces, phiPlaces]
  generalize one.block? block = found, two.block? block = twin at related ⊢
  cases related with
  | none => exact .nil
  | some related => exact related.phis_perm

theorem versionCount_eq (renumbers : Renumbers numbering one two) (var : VarId) :
    two.versionCount (numbering.vars var) = one.versionCount var := by
  rw [versionCount, versionCount, renumbers.versions var, Option.map_id]
  rfl

/-- Changes of a block that keep the blocks of both in relation. -/
theorem modifyBlock (renumbers : Renumbers numbering one two) {change changeTwin : Block → Block}
    (kept : ∀ found foundTwin, found.Renumbers numbering foundTwin →
      (change found).Renumbers numbering (changeTwin foundTwin)) (block : BlockId) :
    Renumbers numbering (one.modifyBlock block change) (two.modifyBlock block changeTwin) where
  blocks other := by
    have related := renumbers.blocks other
    rw [block?_modifyBlock, block?_modifyBlock]
    generalize one.block? other = found, two.block? other = twin at related ⊢
    split
    next =>
      cases related with
      | none => exact .none
      | some related => exact .some (kept _ _ related)
    next => exact related
  entries_eq := renumbers.entries_eq
  phis := renumbers.phis
  versions := renumbers.versions

/-- A variable gets its next version. -/
theorem insertVersion (renumbers : Renumbers numbering one two) (var : VarId) :
    (one.versions.insert var (one.versionCount var + 1)).Turns numbering.vars id
      (two.versions.insert (numbering.vars var) (two.versionCount (numbering.vars var) + 1)) := by
  rw [renumbers.versionCount_eq]
  exact renumbers.versions.insert var _

/-- Changes of a phi that correspond. -/
theorem getElem?_modify (renumbers : Renumbers numbering one two) {change changeTwin : Phi → Phi}
    (same : ∀ phi, changeTwin (numbering.phi phi) = numbering.phi (change phi)) (place other : Nat) :
    (two.phis.modify (numbering.places place) changeTwin)[numbering.places other]? =
      ((one.phis.modify place change)[other]?).map numbering.phi := by
  rw [Array.getElem?_modify, Array.getElem?_modify, renumbers.phis]
  by_cases equal : place = other
  · rw [if_pos equal, if_pos (congrArg numbering.places equal), Option.map_map, Option.map_map]
    exact congrArg (Option.map · _) (funext same)
  · rw [if_neg equal, if_neg (numbering.places.injective.ne equal)]

end ControlFlow.Renumbers

namespace Renaming

open ControlFlow

variable {numbering : Numbering} {one two : Renaming} {current currentTwin : Current}

/-! ## One step -/

theorem renumbers_giveVersion (renumbers : one.flow.Renumbers numbering two.flow) (var : VarId) :
    (giveVersion var one).flow.Renumbers numbering (giveVersion (numbering.vars var) two).flow where
  blocks := renumbers.blocks
  entries_eq := renumbers.entries_eq
  phis := renumbers.phis
  versions := renumbers.insertVersion var

theorem renumbers_versionPhi (renumbers : one.flow.Renumbers numbering two.flow) (place : Nat)
    (var : VarId) :
    (versionPhi place var one).flow.Renumbers numbering
      (versionPhi (numbering.places place) (numbering.vars var) two).flow where
  blocks := renumbers.blocks
  entries_eq := renumbers.entries_eq
  phis other := by
    refine renumbers.getElem?_modify (fun phi => ?_) place other
    rw [renumbers.versionCount_eq]
    rfl
  versions := renumbers.insertVersion var

theorem renumbers_enter (renumbers : one.flow.Renumbers numbering two.flow)
    (turns : current.Turns numbering.vars numbering.current currentTwin) (block : BlockId) :
    (enter block current one).flow.Renumbers numbering (enter block currentTwin two).flow := by
  refine ControlFlow.Renumbers.modifyBlock renumbers (fun found twin related => ?_) block
  refine ⟨related.computed_eq, related.definitions_eq, related.phis_perm, fun var => ?_,
    related.exitVersions⟩
  rw [Table.find?_map, Table.find?_map, turns var, Option.map_map, Option.map_map]
  rfl

theorem renumbers_leave (renumbers : one.flow.Renumbers numbering two.flow)
    (turns : current.Turns numbering.vars numbering.current currentTwin) (block : BlockId)
    (definitions : List Definition) :
    (leave block definitions current one).flow.Renumbers numbering
      (leave block (definitions.map numbering.definition) currentTwin two).flow := by
  refine ControlFlow.Renumbers.modifyBlock renumbers (fun found twin related => ?_) block
  refine ⟨related.computed_eq, rfl, related.phis_perm, related.entryVersions, fun var => ?_⟩
  rw [Table.find?_map, Table.find?_map, turns var, Option.map_map, Option.map_map]
  rfl

/-! ## Phis in any order -/

theorem versionCount_versionPhi {var other : VarId} (different : var ≠ other) (place : Nat)
    (state : Renaming) :
    (versionPhi place var state).flow.versionCount other = state.flow.versionCount other := by
  rw [ControlFlow.versionCount, versionPhi, Table.find?_insert, if_neg different.symm]
  rfl

/-- Giving versions to two phis of different variables, in either order. -/
theorem versionPhi_comm {first second : VarId} (different : first ≠ second) {place other : Nat}
    (apart : place ≠ other) (state : Renaming) :
    versionPhi other second (versionPhi place first state) =
      versionPhi place first (versionPhi other second state) := by
  rw [versionPhi, versionPhi.eq_1 place first (versionPhi other second state),
    versionCount_versionPhi different, versionCount_versionPhi different.symm]
  simp only [versionPhi]
  rw [Table.insert_comm _ different]
  congr 2
  refine Array.ext_getElem? fun found => ?_
  simp only [Array.getElem?_modify]
  by_cases isPlace : place = found
  · have notOther : other ≠ found := fun same => apart (isPlace.trans same.symm)
    simp only [if_pos isPlace, if_neg notOther]
  · simp only [if_neg isPlace]

/-- The variables of the phis at some places. -/
def varsAt (flow : ControlFlow) (places : List Nat) : List VarId :=
  places.filterMap fun place => (flow.phis[place]?).map (·.var)

theorem varsAt_cons_of_none {flow : ControlFlow} {place : Nat} (unknown : flow.phis[place]? = none)
    (places : List Nat) : varsAt flow (place :: places) = varsAt flow places := by
  rw [varsAt, List.filterMap_cons_none]
  · rfl
  · rw [unknown, Option.map_none]

theorem varsAt_cons_of_some {flow : ControlFlow} {place : Nat} {phi : Phi}
    (known : flow.phis[place]? = some phi) (places : List Nat) :
    varsAt flow (place :: places) = phi.var :: varsAt flow places := by
  rw [varsAt, List.filterMap_cons_some]
  · rfl
  · rw [known, Option.map_some]

theorem varsAt_versionPhi (place : Nat) (var : VarId) (state : Renaming) (places : List Nat) :
    varsAt (versionPhi place var state).flow places = varsAt state.flow places := by
  refine List.filterMap_congr fun other _ => ?_
  have same := congrArg (Option.map Phi.var) (unversioned_versionPhi place var state other)
  rwa [Option.map_map, Option.map_map] at same

/-- The first two phis may change places. -/
theorem renamePhis_swap {place other : Nat} {places : List Nat} {state : Renaming}
    (distinct : (varsAt state.flow (other :: place :: places)).Nodup) (current : Current) :
    renamePhis (other :: place :: places) current state =
      renamePhis (place :: other :: places) current state := by
  cases found : state.flow.phis[place]? with
  | none =>
      cases foundOther : state.flow.phis[other]? with
      | none =>
          rw [renamePhis_of_none foundOther, renamePhis_of_none found, renamePhis_of_none found,
            renamePhis_of_none foundOther]
      | some phi =>
          have unknown := getElem?_versionPhi other phi.var state place
          rw [found, Option.map_none, ite_self] at unknown
          rw [renamePhis_of_some foundOther, renamePhis_of_none unknown, renamePhis_of_none found,
            renamePhis_of_some foundOther]
  | some phi =>
      cases foundOther : state.flow.phis[other]? with
      | none =>
          have unknown := getElem?_versionPhi place phi.var state other
          rw [foundOther, Option.map_none, ite_self] at unknown
          rw [renamePhis_of_none foundOther, renamePhis_of_some found, renamePhis_of_some found,
            renamePhis_of_none unknown]
      | some otherPhi =>
          rw [varsAt_cons_of_some foundOther, varsAt_cons_of_some found, List.nodup_cons,
            List.mem_cons, not_or] at distinct
          have different : otherPhi.var ≠ phi.var := distinct.1.1
          have apart : other ≠ place := by
            rintro rfl
            rw [found] at foundOther
            cases foundOther
            exact different rfl
          have later := getElem?_versionPhi other otherPhi.var state place
          have laterOther := getElem?_versionPhi place phi.var state other
          rw [if_neg apart, found] at later
          rw [if_neg apart.symm, foundOther] at laterOther
          rw [renamePhis_of_some foundOther, renamePhis_of_some later, renamePhis_of_some found,
            renamePhis_of_some laterOther, versionPhi_comm different apart,
            versionCount_versionPhi different, versionCount_versionPhi different.symm,
            Table.insert_comm _ different]

/-- Phis of different variables get the same versions in any order. -/
theorem renamePhis_perm {first second : List Nat} (perm : first.Perm second) {state : Renaming}
    (distinct : (varsAt state.flow first).Nodup) (current : Current) :
    renamePhis first current state = renamePhis second current state := by
  induction perm generalizing current state with
  | nil => rfl
  | cons place _ inductionHypothesis =>
      cases found : state.flow.phis[place]? with
      | none =>
          rw [varsAt_cons_of_none found] at distinct
          rw [renamePhis_of_none found, renamePhis_of_none found]
          exact inductionHypothesis distinct current
      | some phi =>
          rw [varsAt_cons_of_some found] at distinct
          rw [renamePhis_of_some found, renamePhis_of_some found]
          refine inductionHypothesis ?_ _
          rw [varsAt_versionPhi]
          exact distinct.of_cons
  | swap => exact renamePhis_swap distinct current
  | trans firstPerm _ inductionHypothesis laterHypothesis =>
      refine (inductionHypothesis distinct current).trans (laterHypothesis ?_ current)
      exact (firstPerm.filterMap _).nodup_iff.1 distinct

/-- In any order, the phis of a block are of different variables. -/
theorem nodup_varsAt {sites : List (BlockId × VarId)} {flow : ControlFlow}
    (holds : HoldsPhis sites flow) (nodup : sites.Nodup) (block : BlockId) :
    (varsAt flow (flow.phiPlaces block)).Nodup := by
  have site : ∀ place ∈ flow.phiPlaces block, ∀ var,
      (flow.phis[place]?).map Phi.var = some var → sites[place]? = some (block, var) := by
    intro place member var found
    rcases (holds.mem_phiPlaces block place).1 member with ⟨phi, foundPhi, inBlock⟩
    rw [foundPhi] at found
    rw [← holds.sites_eq, List.getElem?_map, Array.getElem?_toList, foundPhi, Option.map_some,
      inBlock, Option.some.inj found]
  rw [varsAt, List.nodup_iff_pairwise_ne, List.pairwise_filterMap]
  refine (holds.nodup_phiPlaces block).imp_of_mem fun one two different => ?_
  rintro var found other foundOther rfl
  have known := site _ one var found
  exact different ((List.getElem?_inj (List.getElem?_eq_some_iff.1 known).1 nodup).1
    (known.trans (site _ two var foundOther).symm))

/-! ## One block -/

theorem renumbers_renamePhis (renumbers : one.flow.Renumbers numbering two.flow)
    (turns : current.Turns numbering.vars numbering.current currentTwin) (places : List Nat) :
    (renamePhis places current one).1.Turns numbering.vars numbering.current
        (renamePhis (places.map numbering.places) currentTwin two).1 ∧
      (renamePhis places current one).2.flow.Renumbers numbering
        (renamePhis (places.map numbering.places) currentTwin two).2.flow := by
  induction places generalizing current currentTwin one two with
  | nil => exact ⟨turns, renumbers⟩
  | cons place places inductionHypothesis =>
      have twin := renumbers.phis place
      rw [List.map_cons]
      cases found : one.flow.phis[place]? with
      | none =>
          rw [found] at twin
          rw [renamePhis_of_none found, renamePhis_of_none twin]
          exact inductionHypothesis renumbers turns
      | some phi =>
          rw [found] at twin
          rw [renamePhis_of_some found, renamePhis_of_some twin]
          refine inductionHypothesis (renumbers_versionPhi renumbers place phi.var) ?_
          have same : two.flow.versionCount (numbering.phi phi).var =
              one.flow.versionCount phi.var := renumbers.versionCount_eq phi.var
          rw [same]
          exact turns.insert phi.var _

theorem renumbers_renameDefinitions (renumbers : one.flow.Renumbers numbering two.flow)
    (turns : current.Turns numbering.vars numbering.current currentTwin)
    (definitions : List Definition) :
    (renameDefinitions (definitions.map numbering.definition) currentTwin two).1.1 =
        (renameDefinitions definitions current one).1.1.map numbering.definition ∧
      (renameDefinitions definitions current one).1.2.Turns numbering.vars numbering.current
        (renameDefinitions (definitions.map numbering.definition) currentTwin two).1.2 ∧
      (renameDefinitions definitions current one).2.flow.Renumbers numbering
        (renameDefinitions (definitions.map numbering.definition) currentTwin two).2.flow := by
  induction definitions generalizing current currentTwin one two with
  | nil => exact ⟨rfl, turns, renumbers⟩
  | cons definition definitions inductionHypothesis =>
      rw [List.map_cons, renameDefinitions_cons, renameDefinitions_cons]
      have same : two.flow.versionCount (numbering.definition definition).var =
          one.flow.versionCount definition.var := renumbers.versionCount_eq definition.var
      simp only [same]
      rcases inductionHypothesis (renumbers_giveVersion renumbers definition.var)
        (turns.insert definition.var (one.flow.versionCount definition.var + 1, definition.node))
        with ⟨result, turnsLater, renumbersLater⟩
      exact ⟨congrArg _ result, turnsLater, renumbersLater⟩

theorem renumbers_feedSuccessors (renumbers : one.flow.Renumbers numbering two.flow)
    (turns : current.Turns numbering.vars numbering.current currentTwin) (block : BlockId) :
    (feedSuccessors block current one).flow.Renumbers numbering
      (feedSuccessors block currentTwin two).flow := by
  have fed := fed_feedSuccessors block current one
  have fedTwin := fed_feedSuccessors block currentTwin two
  constructor
  · intro other
    rw [block?_eq_of_blocks_eq fed.blocks_eq, block?_eq_of_blocks_eq fedTwin.blocks_eq]
    exact renumbers.blocks other
  · rw [fed.entries_eq, fedTwin.entries_eq, renumbers.entries_eq]
  · intro place
    have successors : two.flow.successors block = one.flow.successors block :=
      renumbers.agree.getD_eq (·.1.1.1.1) block
    -- A place is listed as often under its other number, in whatever order.
    have perm : ((two.flow.successors block).flatMap two.flow.phiPlaces).Perm
        (((one.flow.successors block).flatMap one.flow.phiPlaces).map numbering.places) := by
      rw [successors, List.map_flatMap]
      exact List.Perm.flatMap_left _ fun successor _ => renumbers.phiPlaces_perm successor
    rw [fed.getElem?_eq, fedTwin.getElem?_eq, renumbers.phis, Option.map_map, Option.map_map,
      perm.count_eq, List.count_map_of_injective _ _ numbering.places.injective]
    refine congrArg (Option.map · _) (funext fun phi => ?_)
    have found : currentTwin.find? (numbering.phi phi).var =
        (current.find? phi.var).map numbering.current := turns phi.var
    simp only [Function.comp_apply, found, ← numbering.source_ofCurrent]
    simp [Numbering.phi]
  · rw [fed.versions_eq, fedTwin.versions_eq]
    exact renumbers.versions

theorem renumbers_renameOne {sites : List (BlockId × VarId)} (nodup : sites.Nodup)
    (holds : HoldsPhis sites two.flow) (renumbers : one.flow.Renumbers numbering two.flow)
    (turns : current.Turns numbering.vars numbering.current currentTwin) (block : BlockId) :
    (renameOne block current one).1.Turns numbering.vars numbering.current
        (renameOne block currentTwin two).1 ∧
      (renameOne block current one).2.flow.Renumbers numbering
        (renameOne block currentTwin two).2.flow := by
  have phis := renumbers_renamePhis renumbers turns (one.flow.phiPlaces block)
  rw [← renamePhis_perm (renumbers.phiPlaces_perm block) (nodup_varsAt holds nodup block)] at phis
  rw [renameOne_eq, renameOne_eq]
  simp only
  generalize renamePhis (one.flow.phiPlaces block) current one = first at phis ⊢
  generalize renamePhis (two.flow.phiPlaces block) currentTwin two = second at phis ⊢
  have entered := renumbers_enter phis.2 phis.1 block
  rcases renumbers_renameDefinitions entered phis.1 ((enter block first.1 first.2).flow.definitions
    block) with ⟨result, turnsLater, renamed⟩
  rw [entered.definitions_eq, result]
  exact ⟨turnsLater, renumbers_feedSuccessors (renumbers_leave renamed turnsLater block _)
    turnsLater block⟩

/-! ## All blocks -/

/-- Control flow under other numbers in which phis stand for different blocks and variables. -/
structure Parallel (numbering : Numbering) (sites : List (BlockId × VarId)) (one two : Renaming) :
    Prop where
  renumbers : one.flow.Renumbers numbering two.flow
  holds : HoldsPhis sites two.flow

theorem Parallel.foldl {α : Type} {sites : List (BlockId × VarId)}
    {step stepTwin : Renaming → α → Renaming}
    (stays : ∀ item, ∀ {one two : Renaming}, Parallel numbering sites one two →
      Parallel numbering sites (step one item) (stepTwin two item))
    (items : List α) (parallel : Parallel numbering sites one two) :
    Parallel numbering sites (items.foldl step one) (items.foldl stepTwin two) := by
  induction items generalizing one two with
  | nil => exact parallel
  | cons item items inductionHypothesis => exact inductionHypothesis (stays item parallel)

theorem parallel_renameTree {sites : List (BlockId × VarId)} (nodup : sites.Nodup)
    (parallel : Parallel numbering sites one two)
    (turns : current.Turns numbering.vars numbering.current currentTwin) (depth : Nat)
    (block : BlockId) :
    Parallel numbering sites (renameTree depth block current one).2
      (renameTree depth block currentTwin two).2 := by
  induction depth generalizing block current currentTwin one two with
  | zero => exact parallel
  | succ depth inductionHypothesis =>
      rcases renumbers_renameOne nodup parallel.holds parallel.renumbers turns block with
        ⟨turnsLater, renamed⟩
      have later : Parallel numbering sites (renameOne block current one).2
          (renameOne block currentTwin two).2 :=
        ⟨renamed, (retains_renameOne block currentTwin two).holdsPhis parallel.holds⟩
      have children : (renameOne block currentTwin two).2.flow.childrenOf block =
          (renameOne block current one).2.flow.childrenOf block :=
        renamed.agree.getD_eq (·.1.2) block
      rw [renameTree_succ, renameTree_succ]
      simp only [children]
      exact later.foldl (fun child _ _ parallel => inductionHypothesis parallel turnsLater child) _

theorem parallel_renameRegions {sites : List (BlockId × VarId)} (nodup : sites.Nodup)
    (parallel : Parallel numbering sites one two) :
    Parallel numbering sites (renameRegions one).2 (renameRegions two).2 := by
  have reachable : two.flow.isReachable = one.flow.isReachable := by
    funext block
    exact parallel.renumbers.agree.any_eq (·.1.1.2.2) block
  rw [renameRegions_run, renameRegions_run, parallel.renumbers.entries_eq,
    parallel.renumbers.agree.size_eq, reachable]
  refine parallel.foldl (fun entry one two parallel => ?_) _
  split
  next => exact parallel_renameTree nodup parallel .empty _ entry
  next => exact parallel

end Renaming

end EscapePlan
