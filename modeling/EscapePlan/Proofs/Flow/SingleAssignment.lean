import EscapePlan.Proofs.Flow.Conversion

/-!
# Single assignment form

The versions that blocks state, and the sources of phis, are what replaying any path from
the region entry produces.  Along the path from the last visit of the immediate dominator
to a block nothing produces a variable without a phi in the block: the dominance of such a
producer would have to end on the way, and there would be a phi.
-/

namespace EscapePlan

open EscapePlan.Path

namespace ControlFlow

/-! ## What conversion gives -/

/-- Some control flow is the single assignment form of another: it comes from it by placing phis
and renaming. -/
structure SingleAssignment (flow ssa : ControlFlow) : Prop where
  renamed : ∃ cleared, Renaming.Renamed flow.computeDominators.TreeEdge flow.entries .empty cleared
    ssa ∧ ∀ (place : Nat) phi, cleared.phis[place]? = some phi → phi.sources = []
  holdsPhis : HoldsPhis flow.analyzed.newPhis ssa
  successors_eq : ∀ block, ssa.successors block = flow.successors block
  definitions_eq : ∀ block,
    (ssa.definitions block).map Definition.unversioned =
      (flow.definitions block).map Definition.unversioned

end ControlFlow

open ControlFlow in
/-- Conversion gives the single assignment form. -/
theorem DataFlowGraph.singleAssignment_convertToSsa {graph : DataFlowGraph}
    (wellFormed : graph.flow.WellFormed) (separate : graph.flow.Separate) :
    SingleAssignment graph.flow graph.convertToSsa.flow := by
  have trees := dominatorTrees_computeDominators wellFormed.toCoherent separate.apart
  have start := holdsPhis_nil wellFormed.phis_eq wellFormed.phiPlaces_eq
  have outlined : Agree Renaming.outline graph.flow.computeDominators
      graph.withPhis.flow.clearVersions :=
    (((agree_computeFrontiers _).of_view Renaming.outline).trans
      (graph.agree_withPhis.of_view Renaming.outline)).trans
      ((retains_clearVersions _).agree.of_view Renaming.outline)
  have placed := holdsPhis_newPhis start
  have cleared := (retains_clearVersions _).holdsPhis placed
  have renamed := @Renaming.renamed_renameRegions graph.flow graph.flow.computeDominators
    graph.flow.analyzed.newPhis trees wellFormed.toCoherent separate ⟨graph.withPhis.flow.clearVersions, []⟩
    outlined cleared
  rw [← flow_rename, ← flow_convertToSsa] at renamed
  constructor
  · refine ⟨graph.withPhis.flow.clearVersions, renamed, ?_⟩
    intro place phi found
    rw [clearVersions, Array.getElem?_map] at found
    rcases Option.map_eq_some_iff.1 found with ⟨old, -, rfl⟩
    rfl
  · rw [flow_convertToSsa]
    exact (retains_rename _).holdsPhis placed
  · intro block
    exact graph.agree_code_convertToSsa.getD_eq (·.1.1) block
  · intro block
    exact map_definitions_eq (graph.agree_code_convertToSsa.of_view (·.2)) block

namespace ControlFlow

/-! ## Where phis are -/

/-- A block defines a variable. -/
def Defines (flow : ControlFlow) (block : BlockId) (var : VarId) : Prop :=
  ∃ definition ∈ flow.definitions block, definition.var = var

/-- A block has a phi of a variable. -/
def HasPhi (flow : ControlFlow) (block : BlockId) (var : VarId) : Prop :=
  ∃ definition ∈ flow.phiDefinitions block, definition.var = var

/-- A block produces a new value of a variable. -/
def Produces (flow : ControlFlow) (block : BlockId) (var : VarId) : Prop :=
  flow.HasPhi block var ∨ flow.Defines block var

theorem produces_iff {flow : ControlFlow} {block : BlockId} {var : VarId} :
    flow.Produces block var ↔ ∃ definition ∈ flow.produced block, definition.var = var := by
  simp only [Produces, HasPhi, Defines, produced, List.mem_append, or_and_right, exists_or]

theorem lastDefinition_replay_eq_none_iff {flow : ControlFlow} {var : VarId}
    {path : List BlockId} :
    lastDefinition var (flow.replay path) = none ↔ ∀ block ∈ path, ¬ flow.Produces block var := by
  induction path with
  | nil => simp [replay, lastDefinition]
  | cons block earlier inductionHypothesis =>
      rw [replay, lastDefinition_append, Option.or_eq_none_iff, inductionHypothesis,
        lastDefinition_eq_none_iff, List.forall_mem_cons, produces_iff]
      simp only [not_exists, not_and, ne_eq]

theorem lastDefinition_replay_cons (flow : ControlFlow) (block : BlockId) (earlier : List BlockId)
    (var : VarId) :
    lastDefinition var (flow.replay (block :: earlier)) =
      (lastDefinition var (flow.definitions block)).or
        (lastDefinition var (flow.replay earlier ++ flow.phiDefinitions block)) := by
  rw [replay, produced, ← List.append_assoc, lastDefinition_append]

theorem HoldsPhis.hasPhi_iff {flow : ControlFlow} {sites : List (BlockId × VarId)}
    (holds : HoldsPhis sites flow) {block : BlockId} {var : VarId} :
    flow.HasPhi block var ↔ (block, var) ∈ sites := by
  rw [HasPhi, phiDefinitions_eq_filterMap, ← holds.sites_eq]
  simp only [List.mem_filterMap, Option.map_eq_some_iff, List.mem_map, Array.mem_toList_iff,
    Array.mem_iff_getElem?]
  constructor
  · rintro ⟨definition, ⟨place, member, phi, found, rfl⟩, rfl⟩
    rcases (holds.mem_phiPlaces block place).1 member with ⟨again, foundAgain, rfl⟩
    rw [found] at foundAgain
    cases foundAgain
    exact ⟨phi, ⟨place, found⟩, rfl⟩
  · rintro ⟨phi, ⟨place, found⟩, equal⟩
    cases equal
    have member := (holds.mem_phiPlaces phi.block place).2 ⟨phi, found, rfl⟩
    exact ⟨phi.definition, ⟨place, member, phi, found, rfl⟩, rfl⟩

section

variable {flow ssa : ControlFlow} {entry block join predecessor : BlockId} {var : VarId}

theorem mem_definingBlocks_analyzed
    (trees : DominatorTrees flow flow.entries flow.computeDominators) :
    block ∈ flow.analyzed.definingBlocks var ↔
      (∃ entry ∈ flow.entries, Leads flow.Edge entry block) ∧ flow.Defines block var := by
  have reachable : flow.analyzed.isReachable block = flow.computeDominators.isReachable block :=
    (agree_computeFrontiers _).any_eq (·.reachable) block
  have same := ((trees.agree.of_view (·.definitions)).trans
    ((agree_computeFrontiers _).of_view (·.definitions))).getD_eq id block
  have definitionsEq : flow.analyzed.definitions block = flow.definitions block := same
  rw [mem_definingBlocks, ← trees.isReachable_iff, ← reachable, Defines, ← definitionsEq,
    isReachable, definitions]
  cases flow.analyzed.block? block with
  | none => simp
  | some found => simp [Block.defines]

/-- The first item with a property. -/
theorem exists_first_split {property : BlockId → Prop} {items : List BlockId}
    (some : ∃ item ∈ items, property item) :
    ∃ before item after, items = before ++ item :: after ∧ property item ∧
      ∀ other ∈ before, ¬ property other := by
  induction items with
  | nil => simp at some
  | cons first items inductionHypothesis =>
      by_cases holds : property first
      · exact ⟨[], first, items, rfl, holds, by simp⟩
      · rcases some with ⟨item, member, itemHolds⟩
        rcases List.mem_cons.1 member with rfl | later
        · contradiction
        · rcases inductionHypothesis ⟨item, later, itemHolds⟩ with
            ⟨before, found, after, rfl, foundHolds, silent⟩
          refine ⟨first :: before, found, after, rfl, foundHolds, ?_⟩
          intro other otherMember
          rcases List.mem_cons.1 otherMember with rfl | old
          · exact holds
          · exact silent other old

namespace SingleAssignment

theorem hasPhi_iff (single : SingleAssignment flow ssa) :
    ssa.HasPhi block var ↔ block ∈ flow.analyzed.phiBlocks var := by
  rw [single.holdsPhis.hasPhi_iff, mem_newPhis (frontier_lt flow)]

theorem defines_iff (single : SingleAssignment flow ssa) :
    ssa.Defines block var ↔ flow.Defines block var := by
  have vars : ∀ definitions : List Definition, (∃ definition ∈ definitions, definition.var = var) ↔
      ∃ definition ∈ definitions.map Definition.unversioned, definition.var = var := by
    intro definitions
    simp [Definition.unversioned]
  rw [Defines, Defines, vars (ssa.definitions block), vars (flow.definitions block),
    single.definitions_eq]

/-- Where the dominance of a block that produces a variable ends, there is a phi. -/
theorem hasPhi_of_frontier (single : SingleAssignment flow ssa) (wellFormed : flow.WellFormed)
    (separate : flow.Separate) (known : entry ∈ flow.entries)
    (produces : ssa.Produces block var)
    (leads : Leads flow.Edge entry predecessor) (taken : flow.Edge predecessor join)
    (dominates : Dominates flow.Edge entry block predecessor)
    (ends : ¬ (Dominates flow.Edge entry block join ∧ block ≠ join)) : ssa.HasPhi join var := by
  have trees := dominatorTrees_computeDominators wellFormed.toCoherent separate.apart
  rw [Produces, single.hasPhi_iff] at produces
  rw [single.hasPhi_iff]
  rw [single.defines_iff] at produces
  have none : join ∉ flow.analyzed.blocksWithPhi var := by
    simp [mem_blocksWithPhi, phis_analyzed, wellFormed.phis_eq]
  refine (mem_phiBlocks_of_frontier (frontier_lt flow) ?_
    ((trees.mem_frontier wellFormed.toCoherent separate).2
      ⟨entry, known, predecessor, taken, leads, dominates, ends⟩)).resolve_right none
  rcases produces with phi | defines
  · exact .inr phi
  · exact .inl ((mem_definingBlocks_analyzed trees).2
      ⟨⟨entry, known, dominates.leads leads⟩, defines⟩)

/-- A phi is led to by a block that defines its variable. -/
theorem exists_defines_of_hasPhi (single : SingleAssignment flow ssa)
    (wellFormed : flow.WellFormed) (separate : flow.Separate) (phi : ssa.HasPhi block var) :
    ∃ entry ∈ flow.entries, ∃ site, Leads flow.Edge entry site ∧ flow.Defines site var ∧
      Leads flow.Edge site block := by
  have trees := dominatorTrees_computeDominators wellFormed.toCoherent separate.apart
  rw [single.hasPhi_iff] at phi
  rcases spreads_of_mem_phiBlocks (frontier_lt flow) phi with ⟨-, site, defining, spreads⟩
  rcases (mem_definingBlocks_analyzed trees).1 defining with ⟨⟨entry, known, leads⟩, defines⟩
  refine ⟨entry, known, site, leads, defines, ?_⟩
  replace spreads := spreads.to_reflTransGen
  clear phi
  induction spreads with
  | refl => exact .refl flow.Edge site
  | tail _ ends inductionHypothesis =>
      rcases (trees.mem_frontier wellFormed.toCoherent separate).1 ends with
        ⟨root, -, predecessor, taken, reached, dominates, -⟩
      exact (inductionHypothesis.trans (dominates.leads_node reached)).step taken

/-! ## What paths produce -/

/-- While no block on the way has a phi of a variable, what produces it dominates the way. -/
theorem dominates_along (single : SingleAssignment flow ssa) (wellFormed : flow.WellFormed)
    (separate : flow.Separate) (known : entry ∈ flow.entries)
    (produces : ssa.Produces block var) {later earlier : List BlockId}
    (steps : Path flow.Edge entry (later ++ block :: earlier))
    (phiFree : ∀ other ∈ later, ¬ ssa.HasPhi other var) :
    ∀ other ∈ later, Dominates flow.Edge entry block other ∧ block ≠ other := by
  induction later with
  | nil => simp
  | cons target later inductionHypothesis =>
      have dominatesTail : ∀ other ∈ later, Dominates flow.Edge entry block other ∧ block ≠ other :=
        fun other member => inductionHypothesis steps.before
          (fun other member => phiFree other (List.mem_cons_of_mem _ member)) other member
      have dominatesTarget : Dominates flow.Edge entry block target ∧ block ≠ target := by
        by_contra ends
        rcases steps.last_step with ⟨predecessor, equal, taken, leads⟩
        have dominates : Dominates flow.Edge entry block predecessor := by
          rcases equal with rfl | member
          · exact .refl _
          · exact (dominatesTail predecessor member).1
        exact phiFree target List.mem_cons_self
          (single.hasPhi_of_frontier wellFormed separate known produces leads taken dominates ends)
      intro other member
      rcases List.mem_cons.1 member with rfl | old
      · exact dominatesTarget
      · exact dominatesTail other old

/-- After the last visit of its immediate dominator, nothing produces a variable on the way to a
block without a phi of it. -/
theorem not_produces_between (single : SingleAssignment flow ssa) (wellFormed : flow.WellFormed)
    (separate : flow.Separate) (known : entry ∈ flow.entries) {dominator : BlockId}
    (immediate : IsImmediateDominator flow.Edge entry dominator block)
    {between earlier : List BlockId}
    (steps : Path flow.Edge entry (block :: between ++ dominator :: earlier))
    (absent : dominator ∉ between) (phiFree : ¬ ssa.HasPhi block var) :
    ∀ other ∈ between, ¬ ssa.Produces other var := by
  intro other member produces
  have some : ∃ other ∈ between, ssa.Produces other var := ⟨other, member, produces⟩
  rcases exists_first_split some with
    ⟨later, producer, rest, rfl, producerProduces, silent⟩
  have whole : Path flow.Edge entry
      ((block :: later) ++ producer :: (rest ++ dominator :: earlier)) := by
    simpa using steps
  have along := single.dominates_along wellFormed separate known producerProduces whole (by
    intro other member phi
    rcases List.mem_cons.1 member with rfl | between
    · exact phiFree phi
    · exact silent other between (.inl phi))
  rcases along block List.mem_cons_self with ⟨dominates, strict⟩
  have above := immediate.last producer dominates strict
  -- The producer comes after the immediate dominator, which therefore dominates it in turn.
  have below : Dominates flow.Edge entry dominator producer := by
    refine dominates_of_last whole immediate.dominates ?_
    rw [List.mem_cons, not_or]
    exact ⟨immediate.strict, fun member => absent (List.mem_append_left _ member)⟩
  have leads : Leads flow.Edge entry dominator :=
    immediate.dominates.leads ⟨_, steps⟩
  have same := below.antisymm leads above
  apply absent
  rw [same]
  exact List.mem_append_right _ List.mem_cons_self

/-- What a block has before its definitions, by whatever way control comes to it, is what it has
on the way down the dominator tree. -/
theorem lastDefinition_eq (single : SingleAssignment flow ssa) (wellFormed : flow.WellFormed)
    (separate : flow.Separate) (known : entry ∈ flow.entries) {earlier above : List BlockId}
    (steps : Path flow.Edge entry (block :: earlier))
    (down : Path flow.computeDominators.TreeEdge entry (block :: above)) (var : VarId) :
    lastDefinition var (ssa.replay earlier ++ ssa.phiDefinitions block) =
      lastDefinition var (ssa.replay above ++ ssa.phiDefinitions block) := by
  have trees := dominatorTrees_computeDominators wellFormed.toCoherent separate.apart
  induction equal : earlier.length using Nat.strongRecOn generalizing block earlier above with
  | _ count inductionHypothesis =>
      rw [lastDefinition_append, lastDefinition_append]
      by_cases phi : ssa.HasPhi block var
      · rcases phi with ⟨definition, member, same⟩
        cases found : lastDefinition var (ssa.phiDefinitions block) with
        | none => exact absurd same (lastDefinition_eq_none_iff.1 found definition member)
        | some last => rfl
      · have nothing : lastDefinition var (ssa.phiDefinitions block) = none := by
          rw [lastDefinition_eq_none_iff]
          intro definition member same
          exact phi ⟨definition, member, same⟩
        rw [nothing, Option.none_or, Option.none_or]
        cases down with
        | start =>
            have alone : earlier = [] := by
              cases steps with
              | start => rfl
              | step _ taken =>
                  have back := (wellFormed.mem_predecessors _ _).2 taken
                  rw [separate.predecessors_entry entry known] at back
                  contradiction
            rw [alone]
        | @step dominator _ above down below =>
            have reached := (trees.dominates_of_tree separate known (.refl _ entry) ⟨_, down⟩).1
            rcases trees.immediate_of_treeEdge separate known reached below with ⟨-, immediate⟩
            have member := (List.mem_cons.1 (immediate.dominates earlier steps)).resolve_left
              immediate.strict
            rcases List.eq_append_cons_of_mem member with ⟨between, before, rfl, absent⟩
            have silent := single.not_produces_between wellFormed separate known immediate
              steps absent phi
            have shorter : before.length < count := by
              rw [← equal, List.length_append, List.length_cons]
              omega
            have same := inductionHypothesis before.length shorter
              steps.before.suffix down rfl
            rw [replay_append, lastDefinition_append, lastDefinition_replay_eq_none_iff.2 silent,
              Option.none_or, lastDefinition_replay_cons, lastDefinition_replay_cons, same]

/-- What a block states is what any path to it produces. -/
theorem versions_eq (single : SingleAssignment flow ssa) (wellFormed : flow.WellFormed)
    (separate : flow.Separate) (known : entry ∈ flow.entries) {earlier : List BlockId}
    (steps : Path flow.Edge entry (block :: earlier)) (var : VarId) :
    ssa.entryVersion? block var =
        (lastDefinition var (ssa.replay earlier ++ ssa.phiDefinitions block)).map (·.version) ∧
      ssa.exitVersion? block var =
        (lastDefinition var (ssa.replay (block :: earlier))).map (·.version) := by
  have trees := dominatorTrees_computeDominators wellFormed.toCoherent separate.apart
  rcases single.renamed with ⟨cleared, renamed, -⟩
  rcases trees.leads_tree wellFormed.toCoherent known ⟨_, steps⟩ with ⟨above, down⟩
  have states := renamed.states entry known block above down
  have same := single.lastDefinition_eq wellFormed separate known steps down var
  constructor
  · rw [states.entry, ← Current.after_append, Current.find?_after_empty, same, Option.map_map]
    rfl
  · rw [states.exit, ← Current.after_append, Current.find?_after_empty, lastDefinition_replay_cons,
      same, ← lastDefinition_replay_cons, Option.map_map]
    rfl

/-- A source of a phi is what any path to its block produces. -/
theorem source_eq (single : SingleAssignment flow ssa) (wellFormed : flow.WellFormed)
    (separate : flow.Separate) {phi : Phi} (member : phi ∈ ssa.phis) {source : PhiSource}
    (listed : source ∈ phi.sources) :
    (∃ entry ∈ flow.entries, Leads flow.Edge entry source.block) ∧
      ∀ entry ∈ flow.entries, ∀ earlier, Path flow.Edge entry (source.block :: earlier) →
        source = .ofCurrent source.block
          ((lastDefinition phi.var (ssa.replay (source.block :: earlier))).map fun definition =>
            (definition.version, definition.node)) := by
  have trees := dominatorTrees_computeDominators wellFormed.toCoherent separate.apart
  rcases single.renamed with ⟨cleared, renamed, unfed⟩
  rcases Array.getElem?_of_mem member with ⟨place, found⟩
  rcases renamed.sources place phi found source listed with
    ⟨old, foundOld, oldListed⟩ | ⟨root, rootKnown, block, above, down, -, equal⟩
  · rw [unfed place old foundOld] at oldListed
    contradiction
  · have blockEq : source.block = block := by
      rw [equal, PhiSource.block_ofCurrent]
    have reached := (trees.dominates_of_tree separate rootKnown (.refl _ root) ⟨_, down⟩).1
    rw [blockEq]
    refine ⟨⟨root, rootKnown, reached⟩, ?_⟩
    intro entry known earlier steps
    have rootEq := separate.entry_unique root rootKnown entry known block reached ⟨_, steps⟩
    subst rootEq
    have same := single.lastDefinition_eq wellFormed separate known steps down phi.var
    rw [lastDefinition_replay_cons, same, ← lastDefinition_replay_cons,
      ← Current.find?_after_empty]
    exact equal

/-- A source stands for nothing exactly if no path to its block defines the variable. -/
theorem source_undefined_iff (single : SingleAssignment flow ssa) (wellFormed : flow.WellFormed)
    (separate : flow.Separate) {phi : Phi} (member : phi ∈ ssa.phis) {source : PhiSource}
    (listed : source ∈ phi.sources) :
    (source.version = 0 ∧ source.node = none) ↔
      ∀ entry ∈ flow.entries, ∀ earlier, Path flow.Edge entry (source.block :: earlier) →
        ∀ block ∈ source.block :: earlier, ¬ flow.Defines block phi.var := by
  rcases single.source_eq wellFormed separate member listed with
    ⟨⟨root, rootKnown, way, rootSteps⟩, equal⟩
  have undefined_iff : ∀ entry ∈ flow.entries, ∀ earlier,
      Path flow.Edge entry (source.block :: earlier) →
        ((source.version = 0 ∧ source.node = none) ↔
          ∀ block ∈ source.block :: earlier, ¬ ssa.Produces block phi.var) := by
    intro entry known earlier steps
    have iff := PhiSource.ofCurrent_undefined_iff source.block
      ((lastDefinition phi.var (ssa.replay (source.block :: earlier))).map fun definition =>
        (definition.version, definition.node))
    rw [← equal entry known earlier steps, Option.map_eq_none_iff,
      lastDefinition_replay_eq_none_iff] at iff
    exact iff
  constructor
  · intro undefined entry known earlier steps block onPath defines
    exact (undefined_iff entry known earlier steps).1 undefined block onPath
      (.inr (single.defines_iff.2 defines))
  · intro never
    rw [undefined_iff root rootKnown way rootSteps]
    rintro block onPath (phi | defines)
    · -- What defines the variable before a phi can be visited on the way to the source.
      rcases single.exists_defines_of_hasPhi wellFormed separate phi with
        ⟨entry, known, site, reached, defines, leads⟩
      have rootEq := separate.entry_unique root rootKnown entry known block
        (leads_of_mem rootSteps onPath) (reached.trans leads)
      subst rootEq
      rcases reached.through (leads.trans (leads_on rootSteps onPath)) with
        ⟨earlier, steps, visited⟩
      exact never root rootKnown earlier steps site visited defines
    · exact never root rootKnown way rootSteps block onPath (single.defines_iff.1 defines)

end SingleAssignment

end

end ControlFlow

namespace DataFlowGraph

/-! ## Every path -/

/-- Replaying any path from a region entry, phis first and then the recorded definitions of each
block, ends with the versions that the last block states; and a phi source is what the path
to its block ends with, version zero without a node if no path defines the variable. -/
theorem convertToSsa_replay (graph : DataFlowGraph) (built : graph.flow.Built)
    (separate : graph.flow.Separate) :
    (∀ block, (graph.convertToSsa.flow.definitions block).map Definition.unversioned =
        (graph.flow.definitions block).map Definition.unversioned) ∧
      (∀ entry ∈ graph.flow.entries, ∀ block earlier,
        Path graph.flow.Edge entry (block :: earlier) → ∀ var,
          graph.convertToSsa.flow.entryVersion? block var =
              (lastDefinition var (graph.convertToSsa.flow.replay earlier ++
                graph.convertToSsa.flow.phiDefinitions block)).map (·.version) ∧
            graph.convertToSsa.flow.exitVersion? block var =
              (lastDefinition var (graph.convertToSsa.flow.replay (block :: earlier))).map
                (·.version)) ∧
        ∀ phi ∈ graph.convertToSsa.flow.phis, ∀ source ∈ phi.sources,
          (∀ entry ∈ graph.flow.entries, ∀ earlier,
            Path graph.flow.Edge entry (source.block :: earlier) →
              source = .ofCurrent source.block
                ((lastDefinition phi.var
                    (graph.convertToSsa.flow.replay (source.block :: earlier))).map
                  fun definition => (definition.version, definition.node))) ∧
            ((source.version = 0 ∧ source.node = none) ↔
              ∀ entry ∈ graph.flow.entries, ∀ earlier,
                Path graph.flow.Edge entry (source.block :: earlier) →
                  ∀ block ∈ source.block :: earlier, ¬ graph.flow.Defines block phi.var) := by
  have wellFormed := built.wellFormed
  have single := singleAssignment_convertToSsa wellFormed separate
  refine ⟨single.definitions_eq, ?_, ?_⟩
  · intro entry known block earlier steps var
    exact single.versions_eq wellFormed separate known steps var
  · intro phi member source listed
    exact ⟨(single.source_eq wellFormed separate member listed).2,
      single.source_undefined_iff wellFormed separate member listed⟩

/-- Two blocks that lead to each other and can both be entered first; a third one is dead. -/
def tangled : DataFlowGraph where
  values := .empty
  scopes := .empty
  flow :=
    ((((((ControlFlow.empty.newRegion.2.newBlock.2.newBlock.2.newBlock.2.addEdge 0 1).addEdge
      0 2).addEdge 1 2).addEdge 2 1).addEdge 3 1).recordDefinition 1 7 10).recordDefinition 3 7 11

theorem convertToSsa_replay_tangled :
    tangled.flow.Built ∧ tangled.flow.Separate ∧ Path tangled.flow.Edge 0 [2, 1, 2, 0] ∧
      tangled.convertToSsa.flow.exitVersion? 2 7 =
        (lastDefinition 7 (tangled.convertToSsa.flow.replay [2, 1, 2, 0])).map (·.version) := by
  have built : tangled.flow.Built :=
    .recordDefinition 3 7 11 (.recordDefinition 1 7 10 (.addEdge 3 1 (.addEdge 2 1 (.addEdge 1 2
      (.addEdge 0 2 (.addEdge 0 1 (.newBlock (.newBlock (.newBlock (.newRegion .empty))))))))))
  have separate : tangled.flow.Separate := by
    constructor
    · intro first firstKnown second secondKnown _ _ _
      exact (List.mem_singleton.1 firstKnown).trans (List.mem_singleton.1 secondKnown).symm
    · intro entry known
      rw [List.mem_singleton.1 known]
      rfl
  have steps : Path tangled.flow.Edge 0 [2, 1, 2, 0] :=
    .step (.step (.step .start (by decide)) (by decide)) (by decide)
  exact ⟨built, separate, steps,
    ((convertToSsa_replay tangled built separate).2.1 0 List.mem_cons_self 2 [1, 2, 0] steps 7).2⟩

end DataFlowGraph

end EscapePlan
