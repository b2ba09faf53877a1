import EscapePlan.Proofs.Flow.RenamingTree

/-!
# Which nodes the links of a renaming join

Whatever renaming makes current is the node of a definition or of a phi, and it is a phi that this
is linked to.  So if all definitions and phis are of some sort, then every link comes from a node of
that sort, and if all phis are of another sort, then it leads to a node of the other sort.
-/

namespace EscapePlan

namespace Renaming

/-- All nodes of definitions and phis are of one sort, and those of phis of another one too; links
lead from the one sort to the other. -/
structure Linked (sources targets : NodeId → Prop) (state : Renaming) : Prop where
  defined : ∀ number block, state.flow.block? number = some block →
    ∀ definition ∈ block.definitions, sources definition.node
  phis : ∀ (place : Nat) phi, state.flow.phis[place]? = some phi →
    sources phi.node ∧ targets phi.node
  links : ∀ link ∈ state.links, sources link.1 ∧ targets link.2

/-- Current versions come from nodes of some sort. -/
def Given (sources : NodeId → Prop) (current : Current) : Prop :=
  ∀ var version, current.find? var = some version → sources version.2

variable {sources targets : NodeId → Prop} {current : Current} {state : Renaming}

theorem given_empty : Given sources .empty :=
  fun _ _ found => nomatch found

theorem Given.insert (given : Given sources current) {node : NodeId} (known : sources node)
    (var : VarId) (version : Nat) : Given sources (current.insert var (version, node)) := by
  intro other found foundEq
  rw [Table.find?_insert] at foundEq
  split at foundEq
  next =>
    cases foundEq
    exact known
  next => exact given other found foundEq

/-- Changing a phi so that its node stays what it is. -/
theorem Linked.modifyPhi (linked : Linked sources targets state) {place : Nat} {change : Phi → Phi}
    (same : ∀ phi, (change phi).node = phi.node) {versions : Table Nat}
    {links : List (NodeId × NodeId)} (known : ∀ link ∈ links, sources link.1 ∧ targets link.2) :
    Linked sources targets
      ⟨{ state.flow with phis := state.flow.phis.modify place change, versions }, links⟩ where
  defined := linked.defined
  phis other phi found := by
    have changed : (state.flow.phis.modify place change)[other]? = some phi := found
    rw [Array.getElem?_modify] at changed
    split at changed
    next =>
      rcases Option.map_eq_some_iff.1 changed with ⟨old, foundOld, rfl⟩
      rw [same]
      exact linked.phis other old foundOld
    next => exact linked.phis other phi changed
  links := known

/-- Changing a block so that its definitions are of the same sort. -/
theorem Linked.modifyBlock (linked : Linked sources targets state) {block : BlockId}
    {change : Block → Block}
    (known : ∀ number found, state.flow.block? number = some found →
      ∀ definition ∈ (change found).definitions, sources definition.node) :
    Linked sources targets { state with flow := state.flow.modifyBlock block change } where
  defined number found foundEq := by
    have changed : (state.flow.modifyBlock block change).block? number = some found := foundEq
    rw [ControlFlow.block?_modifyBlock] at changed
    split at changed
    next =>
      rcases Option.map_eq_some_iff.1 changed with ⟨old, foundOld, rfl⟩
      exact known number old foundOld
    next => exact linked.defined number found changed
  phis := linked.phis
  links := linked.links

theorem linked_renamePhis (linked : Linked sources targets state) (given : Given sources current)
    (places : List Nat) :
    Given sources (renamePhis places current state).1 ∧
      Linked sources targets (renamePhis places current state).2 := by
  induction places generalizing current state with
  | nil => exact ⟨given, linked⟩
  | cons place places inductionHypothesis =>
      cases found : state.flow.phis[place]? with
      | none =>
          rw [renamePhis_of_none found]
          exact inductionHypothesis linked given
      | some phi =>
          rw [renamePhis_of_some found]
          refine inductionHypothesis ?_ (given.insert (linked.phis place phi found).1 _ _)
          refine linked.modifyPhi ?_ linked.links
          exact fun _ => rfl

theorem linked_renameDefinitions (linked : Linked sources targets state)
    (given : Given sources current) {definitions : List Definition}
    (known : ∀ definition ∈ definitions, sources definition.node) :
    (∀ definition ∈ (renameDefinitions definitions current state).1.1, sources definition.node) ∧
      Given sources (renameDefinitions definitions current state).1.2 ∧
      Linked sources targets (renameDefinitions definitions current state).2 := by
  induction definitions generalizing current state with
  | nil => exact ⟨known, given, linked⟩
  | cons definition definitions inductionHypothesis =>
      rcases List.forall_mem_cons.1 known with ⟨first, later⟩
      have versioned : Linked sources targets { state with
          flow := { state.flow with
            versions := state.flow.versions.insert definition.var
              (state.flow.versionCount definition.var + 1) } } :=
        ⟨linked.defined, linked.phis, linked.links⟩
      rcases inductionHypothesis versioned
        (given.insert first definition.var (state.flow.versionCount definition.var + 1)) later with
        ⟨rest, givenLater, linkedLater⟩
      exact ⟨List.forall_mem_cons.2 ⟨first, rest⟩, givenLater, linkedLater⟩

theorem linked_feedPhi (linked : Linked sources targets state) (given : Given sources current)
    (block : BlockId) (place : Nat) :
    Linked sources targets (feedPhi block current place state).2 := by
  cases known : state.flow.phis[place]? with
  | none =>
      rw [feedPhi_of_none known]
      exact linked
  | some phi =>
      simp only [feedPhi, modify, modifyGet, MonadStateOf.modifyGet, StateT.modifyGet, pure, known]
      cases found : current.find? phi.var with
      | none =>
          refine linked.modifyPhi ?_ linked.links
          exact fun _ => rfl
      | some version =>
          refine linked.modifyPhi ?_ (List.forall_mem_cons.2 ⟨?_, linked.links⟩)
          · exact fun _ => rfl
          · exact ⟨given phi.var version found, (linked.phis place phi known).2⟩

theorem linked_foldl {α : Type} {step : Renaming → α → Renaming}
    (steps : ∀ item state, Linked sources targets state → Linked sources targets (step state item))
    (items : List α) (linked : Linked sources targets state) :
    Linked sources targets (items.foldl step state) := by
  induction items generalizing state with
  | nil => exact linked
  | cons item items inductionHypothesis => exact inductionHypothesis (steps item state linked)

theorem linked_renameOne (linked : Linked sources targets state) (given : Given sources current)
    (block : BlockId) :
    Given sources (renameOne block current state).1 ∧
      Linked sources targets (renameOne block current state).2 := by
  rw [renameOne_eq]
  simp only
  rcases linked_renamePhis linked given (state.flow.phiPlaces block) with ⟨givenPhis, linkedPhis⟩
  generalize renamePhis (state.flow.phiPlaces block) current state = phis at givenPhis linkedPhis ⊢
  have entered : Linked sources targets (enter block phis.1 phis.2) :=
    linkedPhis.modifyBlock linkedPhis.defined
  have known : ∀ definition ∈ (enter block phis.1 phis.2).flow.definitions block,
      sources definition.node := by
    intro definition member
    rw [ControlFlow.definitions] at member
    cases found : (enter block phis.1 phis.2).flow.block? block with
    | none =>
        rw [found] at member
        contradiction
    | some blockFound =>
        rw [found] at member
        exact entered.defined block blockFound found definition member
  rcases linked_renameDefinitions entered givenPhis known with ⟨renamed, givenLater, linkedLater⟩
  refine ⟨givenLater, linked_foldl (fun successor state linked => ?_) _
    (linkedLater.modifyBlock fun _ _ _ => renamed)⟩
  exact linked_foldl (fun place state linked => linked_feedPhi linked givenLater block place) _
    linked

theorem linked_renameTree (linked : Linked sources targets state) (given : Given sources current)
    (depth : Nat) (block : BlockId) :
    Linked sources targets (renameTree depth block current state).2 := by
  induction depth generalizing block current state with
  | zero => exact linked
  | succ depth inductionHypothesis =>
      rcases linked_renameOne linked given block with ⟨givenLater, linkedLater⟩
      rw [renameTree_succ]
      exact linked_foldl (fun child state linked => inductionHypothesis linked givenLater child) _
        linkedLater

theorem linked_renameRegions (linked : Linked sources targets state) :
    Linked sources targets (renameRegions state).2 := by
  rw [renameRegions_run]
  refine linked_foldl (fun entry state linked => ?_) _ linked
  split
  next => exact linked_renameTree linked given_empty _ entry
  next => exact linked

/-! ## Links are sources -/

/-- A node is a source of a phi that has another node. -/
def IsSource (flow : ControlFlow) (link : NodeId × NodeId) : Prop :=
  ∃ (place : Nat) (phi : Phi), flow.phis[place]? = some phi ∧ phi.node = link.2 ∧
    ∃ source ∈ phi.sources, source.node = some link.1

/-- Two nodes are linked exactly if the first is a source of a phi of the second. -/
def LinksSources (state : Renaming) : Prop :=
  ∀ link, link ∈ state.links ↔ IsSource state.flow link

/-- Which nodes are sources does not depend on versions. -/
theorem isSource_of_unversioned_eq {before after : ControlFlow}
    (same : ∀ place : Nat,
      (after.phis[place]?).map Phi.unversioned = (before.phis[place]?).map Phi.unversioned)
    {link : NodeId × NodeId} (isSource : IsSource after link) : IsSource before link := by
  rcases isSource with ⟨place, phi, found, node, source, member, named⟩
  have unversioned := same place
  rw [found] at unversioned
  rcases Option.map_eq_some_iff.1 unversioned.symm with ⟨old, foundOld, equal⟩
  have nodeEq := congrArg Phi.node equal
  have sourcesEq := congrArg Phi.sources equal
  change old.node = phi.node at nodeEq
  change old.sources = phi.sources at sourcesEq
  exact ⟨place, old, foundOld, nodeEq.trans node, source, sourcesEq ▸ member, named⟩

theorem mem_links_feedPhi {block : BlockId} {current : Current} {place : Nat} {state : Renaming}
    {link : NodeId × NodeId} :
    link ∈ (feedPhi block current place state).2.links ↔
      link ∈ state.links ∨ ∃ phi, state.flow.phis[place]? = some phi ∧ phi.node = link.2 ∧
        (PhiSource.ofCurrent block (current.find? phi.var)).node = some link.1 := by
  cases known : state.flow.phis[place]? with
  | none => simp [feedPhi_of_none known]
  | some phi =>
      rcases link with ⟨source, target⟩
      simp only [feedPhi, modify, modifyGet, MonadStateOf.modifyGet, StateT.modifyGet, pure, known]
      cases found : current.find? phi.var with
      | none => simp [found, PhiSource.ofCurrent]
      | some version => simp [found, PhiSource.ofCurrent, or_comm, and_comm, eq_comm]

theorem isSource_feedPhi_iff {block : BlockId} {current : Current} {place : Nat}
    {state : Renaming} {link : NodeId × NodeId} :
    IsSource (feedPhi block current place state).2.flow link ↔
      IsSource state.flow link ∨ ∃ phi, state.flow.phis[place]? = some phi ∧ phi.node = link.2 ∧
        (PhiSource.ofCurrent block (current.find? phi.var)).node = some link.1 := by
  have fed := (fed_feedPhi block current place state).getElem?_eq
  constructor
  · rintro ⟨other, phi, found, node, source, member, named⟩
    rw [fed] at found
    rcases Option.map_eq_some_iff.1 found with ⟨old, foundOld, rfl⟩
    rcases List.mem_append.1 member with before | new
    · exact .inl ⟨other, old, foundOld, node, source, before, named⟩
    · rcases List.mem_replicate.1 new with ⟨times, rfl⟩
      have same : other = place := by
        simpa using List.count_pos_iff.1 (Nat.pos_of_ne_zero times)
      exact .inr ⟨old, same ▸ foundOld, node, named⟩
  · rintro (⟨other, phi, found, node, source, member, named⟩ | ⟨phi, found, node, named⟩)
    · have fedAt := fed other
      rw [found, Option.map_some] at fedAt
      exact ⟨other, _, fedAt, node, source, List.mem_append_left _ member, named⟩
    · have fedAt := fed place
      rw [found, Option.map_some] at fedAt
      exact ⟨place, _, fedAt, node, _, List.mem_append_right _ (by simp), named⟩

theorem Step.linksSources {touched : BlockId → Prop} {before after : Renaming}
    (step : Step touched before after) (links : LinksSources before) : LinksSources after := by
  intro link
  cases step with
  | versionPhi place var =>
      have same := unversioned_versionPhi place var before
      exact (links link).trans ⟨isSource_of_unversioned_eq fun other => (same other).symm,
        isSource_of_unversioned_eq same⟩
  | giveVersion var => exact links link
  | enter current _ => exact links link
  | leave current _ _ => exact links link
  | feedPhi block current place =>
      rw [mem_links_feedPhi, isSource_feedPhi_iff, links]

theorem Steps.linksSources {touched : BlockId → Prop} {before after : Renaming}
    (steps : Steps touched before after) (links : LinksSources before) : LinksSources after := by
  induction steps with
  | refl => exact links
  | tail _ step inductionHypothesis => exact step.linksSources inductionHypothesis

end Renaming

/-- Renaming links the nodes that sources name to the nodes of their phis. -/
theorem ControlFlow.mem_links_rename_iff {flow : ControlFlow} {link : NodeId × NodeId} :
    link ∈ flow.rename.2 ↔ Renaming.IsSource flow.rename.1 link := by
  have start : Renaming.LinksSources ⟨flow.clearVersions, []⟩ := by
    refine fun link => ⟨fun none => absurd none List.not_mem_nil, ?_⟩
    rintro ⟨place, phi, found, -, source, member, -⟩
    rw [clearVersions, Array.getElem?_map] at found
    rcases Option.map_eq_some_iff.1 found with ⟨old, -, rfl⟩
    contradiction
  have steps := @steps_rename flow (fun _ => True) (fun _ _ _ => trivial) fun _ _ _ => trivial
  rw [links_rename, List.mem_reverse, flow_rename]
  exact Renaming.Steps.linksSources steps start link

/-- Renaming links nodes of definitions and phis to nodes of phis only. -/
theorem ControlFlow.mem_links_rename {flow : ControlFlow} {sources targets : NodeId → Prop}
    (defined : ∀ number block, flow.block? number = some block →
      ∀ definition ∈ block.definitions, sources definition.node)
    (phis : ∀ phi ∈ flow.phis, sources phi.node ∧ targets phi.node) {link : NodeId × NodeId}
    (listed : link ∈ flow.rename.2) : sources link.1 ∧ targets link.2 := by
  have linked : Renaming.Linked sources targets ⟨flow.clearVersions, []⟩ := by
    refine ⟨defined, fun place phi found => ?_, nofun⟩
    rw [clearVersions, Array.getElem?_map] at found
    rcases Option.map_eq_some_iff.1 found with ⟨old, foundOld, rfl⟩
    exact phis old (Array.mem_of_getElem? foundOld)
  apply (Renaming.linked_renameRegions linked).links
  rw [links_rename] at listed
  exact List.mem_reverse.1 listed

end EscapePlan
