import EscapePlan.Proofs.Flow.IteratedFrontier
import EscapePlan.Proofs.Relabeling.Renumbering
import EscapePlan.Proofs.Relabeling.Walks

/-!
# Placing phis of other variables

Where a variable gets its phis does not depend on its number, but the order of placement does.  So
control flow that defines other variables gets the same phis, at other places and with other nodes.
From there on, renaming keeps the two in step.
-/

namespace EscapePlan

/-! ## The same items in another order -/

/-- Items in another order are found at other places. -/
theorem exists_places {α : Type} {first second : List α} (perm : first.Perm second) :
    ∃ places : Equiv.Perm Nat, ∀ place, second[places place]? = first[place]? := by
  induction perm with
  | nil => exact ⟨.refl Nat, fun _ => rfl⟩
  | cons item _ inductionHypothesis =>
      rcases inductionHypothesis with ⟨places, found⟩
      refine ⟨⟨fun place => place.casesOn 0 fun place => places place + 1,
        fun place => place.casesOn 0 fun place => places.symm place + 1, ?_, ?_⟩, ?_⟩
      · rintro (_ | place)
        · rfl
        · exact congrArg (· + 1) (places.symm_apply_apply place)
      · rintro (_ | place)
        · rfl
        · exact congrArg (· + 1) (places.apply_symm_apply place)
      · rintro (_ | place)
        · rfl
        · exact found place
  | swap item other items =>
      refine ⟨Equiv.swap 0 1, fun place => ?_⟩
      rcases place with _ | _ | place
      · rw [Equiv.swap_apply_left]
        rfl
      · rw [Equiv.swap_apply_right]
        rfl
      · rw [Equiv.swap_apply_of_ne_of_ne (by omega) (by omega)]
        rfl
  | trans _ _ inductionHypothesis laterHypothesis =>
      rcases inductionHypothesis with ⟨places, found⟩
      rcases laterHypothesis with ⟨others, foundLater⟩
      exact ⟨places.trans others, fun place => (foundLater _).trans (found place)⟩

/-- The nodes from a number on are those that were added after so many. -/
def addedNodes (base : NodeId) : Nat ≃ {id : NodeId // base ≤ id} where
  toFun place := ⟨base + place, Nat.le_add_right base place⟩
  invFun id := id - base
  left_inv place := Nat.add_sub_cancel_left base place
  right_inv id := Subtype.ext (Nat.add_sub_cancel' id.2)

/-- Other numbers for variables, for the places of phis, and for the nodes that were added with the
phis. -/
def Numbering.beyond (base : NodeId) (vars : Equiv.Perm VarId) (places : Equiv.Perm Nat) :
    Numbering where
  vars
  places
  nodes := places.extendDomain (addedNodes base)

section

variable (base : NodeId) (vars : Equiv.Perm VarId) (places : Equiv.Perm Nat)

theorem Numbering.nodes_add (place : Nat) :
    (Numbering.beyond base vars places).nodes (base + place) = base + places place :=
  places.extendDomain_apply_image (addedNodes base) place

theorem Numbering.nodes_of_lt {id : NodeId} (known : id < base) :
    (Numbering.beyond base vars places).nodes id = id :=
  places.extendDomain_apply_not_subtype (addedNodes base) (Nat.not_le_of_lt known)

end

/-! ## Control flow that defines other variables -/

/-- A block that defines other variables, whatever has been computed for it. -/
def Block.redefine (vars : Equiv.Perm VarId) (block : Block) : Block :=
  { block with definitions := block.definitions.map (Definition.relabel vars) }

namespace ControlFlow

/-- Control flow that defines other variables, whatever has been computed for it. -/
def redefine (vars : Equiv.Perm VarId) (flow : ControlFlow) : ControlFlow :=
  { flow with blocks := flow.blocks.map (Block.redefine vars) }

variable (vars : Equiv.Perm VarId) {flow : ControlFlow}

theorem block?_redefine (flow : ControlFlow) (block : BlockId) :
    (flow.redefine vars).block? block = (flow.block? block).map (Block.redefine vars) :=
  Array.getElem?_map

@[simp] theorem size_redefine (flow : ControlFlow) : (flow.redefine vars).size = flow.size :=
  Array.size_map

/-- Without phis and versions there is nothing but what blocks do. -/
theorem relabel_eq_redefine (plain : flow.relabel (.refl VarId) = flow) :
    flow.relabel vars = flow.redefine vars := by
  have twice : (flow.relabel (.refl VarId)).redefine vars = flow.relabel vars := by
    simp only [redefine, relabel, Array.map_map]
    congr 2
    funext block
    simp only [Function.comp_apply, Block.redefine, Block.relabel, List.map_map]
    rfl
  rw [← twice, plain]

theorem agree_redefine (flow : ControlFlow) : Agree edgeLists flow (flow.redefine vars) := by
  refine .mapBlocks ?_ flow
  exact fun _ => rfl

/-- What is computed does not depend on which variables are defined. -/
theorem analyzed_redefine (flow : ControlFlow) :
    (flow.redefine vars).analyzed = flow.analyzed.redefine vars := by
  have kept := (flow.redefine vars).agree_analyzed
  refine eq_of_same (Array.ext_getElem? fun block => ?_) ?_ ?_ ?_
  · have computedEq := (agree_computed_analyzed (flow.agree_redefine vars)).blocks block
    have keptEq := kept.blocks block
    have before := flow.agree_analyzed.blocks block
    change (flow.redefine vars).analyzed.block? block = (flow.analyzed.redefine vars).block? block
    rw [block?_redefine] at keptEq ⊢
    generalize (flow.redefine vars).analyzed.block? block = two at computedEq keptEq ⊢
    generalize flow.analyzed.block? block = one at computedEq before ⊢
    have same : two.map uncomputed = (one.map uncomputed).map (Block.redefine vars) := by
      rw [keptEq, before, Option.map_map, Option.map_map]
      rfl
    cases one with
    | none => exact Option.map_eq_none_iff.1 same
    | some one =>
        rcases Option.map_eq_some_iff.1 same with ⟨two, rfl, equal⟩
        cases one
        cases two
        simp_all [uncomputed, computed, position, dominance, edgeLists, Block.redefine]
  · rw [kept.entries]
    exact flow.agree_analyzed.entries.symm
  · rw [phis_analyzed]
    exact flow.phis_analyzed.symm
  · exact (@part_analyzed _ (·.versions) (fun _ _ => rfl) (flow.redefine vars)).trans
      (@part_analyzed _ (·.versions) (fun _ _ => rfl) flow).symm

/-! ## Where phis are placed -/

@[simp] theorem frontier_redefine (flow : ControlFlow) :
    (flow.redefine vars).frontier = flow.frontier := by
  funext block
  rw [frontier, frontier, block?_redefine, Option.map_map]
  rfl

theorem definingBlocks_redefine (flow : ControlFlow) (var : VarId) :
    (flow.redefine vars).definingBlocks (vars var) = flow.definingBlocks var := by
  rw [definingBlocks, definingBlocks, size_redefine]
  refine List.filter_congr fun block _ => ?_
  rw [block?_redefine, Option.any_map]
  refine congrArg (Option.any · _) (funext fun found => ?_)
  simp [Block.redefine, Block.defines, Definition.relabel, List.any_map, Function.comp_def]

/-- A variable gets its phis in the same blocks under another number. -/
theorem phiBlocks_redefine (fresh : flow.phis = #[]) (var : VarId) :
    (flow.redefine vars).phiBlocks (vars var) = flow.phiBlocks var := by
  have freshToo : (flow.redefine vars).phis = #[] := fresh
  rw [phiBlocks, phiBlocks, definingBlocks_redefine, frontier_redefine, size_redefine,
    blocksWithPhi, blocksWithPhi, fresh, freshToo]
  rfl

/-- The phis that are placed are the same, but for the order of placement. -/
theorem newPhis_redefine (fresh : flow.phis = #[]) (places : ∀ block, flow.phiPlaces block = [])
    (known : ∀ block, ∀ join ∈ flow.frontier block, join < flow.size) :
    (flow.newPhis.map (Prod.map id vars)).Perm (flow.redefine vars).newPhis := by
  have knownToo : ∀ block, ∀ join ∈ (flow.redefine vars).frontier block,
      join < (flow.redefine vars).size := by
    rwa [frontier_redefine, size_redefine]
  have placesToo : ∀ block, (flow.redefine vars).phiPlaces block = [] := by
    intro block
    rw [← places block, phiPlaces, phiPlaces, block?_redefine, Option.map_map]
    rfl
  have nodup := (nodup_newPhis (holdsPhis_nil fresh places) .nil known).1
  have nodupToo := (nodup_newPhis (@holdsPhis_nil (flow.redefine vars) fresh placesToo) .nil
    knownToo).1
  refine (List.perm_ext_iff_of_nodup (nodup.map ?_) nodupToo).2 ?_
  · exact Function.Injective.prodMap Function.injective_id vars.injective
  · rintro ⟨block, var⟩
    rw [mem_newPhis knownToo, ← vars.apply_symm_apply var, phiBlocks_redefine vars fresh,
      ← mem_newPhis known, List.mem_map]
    constructor
    · rintro ⟨⟨other, another⟩, member, same⟩
      obtain ⟨rfl, varEq⟩ := Prod.mk.inj same
      obtain rfl := vars.injective varEq
      exact member
    · exact fun member => ⟨_, member, rfl⟩

/-- Blocks list the places of their phis, so they list other places if phis have these. -/
theorem perm_phiPlaces {sites others : List (BlockId × VarId)} {one two : ControlFlow}
    (holdsOne : HoldsPhis sites one) (holdsTwo : HoldsPhis others two) (places : Equiv.Perm Nat)
    (same : ∀ place : Nat,
      (two.phis[places place]?).map Phi.block = (one.phis[place]?).map Phi.block)
    (block : BlockId) : (two.phiPlaces block).Perm ((one.phiPlaces block).map places) := by
  refine (List.perm_ext_iff_of_nodup (holdsTwo.nodup_phiPlaces block)
    ((holdsOne.nodup_phiPlaces block).map places.injective)).2 fun place => ?_
  have listed : place ∈ (one.phiPlaces block).map places ↔
      places.symm place ∈ one.phiPlaces block := by
    rw [List.mem_map]
    constructor
    · rintro ⟨other, member, rfl⟩
      rwa [places.symm_apply_apply]
    · exact fun member => ⟨_, member, places.apply_symm_apply place⟩
  have moved := same (places.symm place)
  rw [places.apply_symm_apply] at moved
  rw [listed, holdsTwo.mem_phiPlaces, holdsOne.mem_phiPlaces, ← Option.map_eq_some_iff,
    ← Option.map_eq_some_iff, moved]

theorem block?_clearVersions (flow : ControlFlow) (block : BlockId) :
    flow.clearVersions.block? block = flow.block? block :=
  rfl

theorem entries_clearVersions (flow : ControlFlow) : flow.clearVersions.entries = flow.entries :=
  rfl

end ControlFlow

namespace DataFlowGraph

/-- The phi that is placed at a place, and its node. -/
def placedPhi (base : NodeId) (place : Nat) (site : BlockId × VarId) : Phi :=
  ⟨site.1, site.2, base + place, 0, []⟩

/-- So many nodes for phis. -/
def phiNodes (base : NodeId) (count : Nat) : List ValueNode :=
  (List.range' base count).map fun id => .new id .phi none none .unknown

/-- What placing some phis adds. -/
structure Places (sites : List (BlockId × VarId)) (before after : DataFlowGraph) : Prop where
  nodes_eq : after.values.nodes.toList = before.values.nodes.toList ++
    phiNodes before.values.size sites.length
  edges_eq : after.values.edges = before.values.edges
  phis_eq : after.flow.phis.toList = before.flow.phis.toList ++
    sites.mapIdx (placedPhi before.values.size)

theorem places_foldl_placePhi {sites : List (BlockId × VarId)} {graph : DataFlowGraph}
    (known : ∀ site ∈ sites, site.1 < graph.flow.size) :
    Places sites graph (sites.foldl placePhi graph) := by
  induction sites generalizing graph with
  | nil => exact ⟨by simp [phiNodes], rfl, by simp⟩
  | cons site sites inductionHypothesis =>
      rcases List.forall_mem_cons.1 known with ⟨first, later⟩
      have sizeEq : (graph.placePhi site).flow.size = graph.flow.size :=
        (agree_foldl_placePhi [site] graph).size_eq
      have rest := @inductionHypothesis (graph.placePhi site) (by rwa [sizeEq])
      have phis : (graph.placePhi site).flow.phis =
          graph.flow.phis.push ⟨site.1, site.2, graph.values.size, 0, []⟩ :=
        ControlFlow.phis_attachPhi first site.2 graph.values.size
      have nodes : (graph.placePhi site).values.nodes =
          graph.values.nodes.push (.new graph.values.size .phi none none .unknown) := rfl
      have size : (graph.placePhi site).values.size = graph.values.size + 1 :=
        graph.values.size_addNode .phi none none .unknown
      constructor
      · rw [List.foldl_cons, rest.nodes_eq, nodes, Array.toList_push, List.append_assoc, size]
        rfl
      · exact rest.edges_eq
      · rw [List.foldl_cons, rest.phis_eq, phis, Array.toList_push, List.append_assoc,
          List.mapIdx_cons, size]
        refine congrArg (fun more => graph.flow.phis.toList ++ _ :: more) ?_
        refine congrArg (List.mapIdx · sites) (funext fun place => funext fun other => ?_)
        rw [placedPhi, placedPhi, Nat.add_assoc, Nat.add_comm 1]

/-! ## Before renaming -/

open ControlFlow

/-- Control flow for which nothing has been computed, and which defines variables at known nodes. -/
structure Plain (graph : DataFlowGraph) : Prop where
  phis_eq : graph.flow.phis = #[]
  phiPlaces_eq : ∀ block, graph.flow.phiPlaces block = []
  versions_eq : ∀ number block, graph.flow.block? number = some block →
    block.entryVersions = .empty ∧ block.exitVersions = .empty
  defined : ∀ number block, graph.flow.block? number = some block →
    ∀ definition ∈ block.definitions, definition.node < graph.values.size

/-- A graph that defines other variables. -/
structure Redefines (vars : Equiv.Perm VarId) (one two : DataFlowGraph) : Prop where
  values_eq : two.values = one.values
  flow_eq : two.flow = one.flow.redefine vars

variable {vars : Equiv.Perm VarId} {graph one two : DataFlowGraph}

theorem places_withPhis (graph : DataFlowGraph) :
    Places graph.flow.analyzed.newPhis { graph with flow := graph.flow.analyzed } graph.withPhis := by
  refine places_foldl_placePhi ?_
  rintro ⟨block, var⟩ member
  rw [mem_newPhis (frontier_lt graph.flow)] at member
  exact (spreads_of_mem_phiBlocks (frontier_lt graph.flow) member).1

theorem Plain.phis_withPhis (plain : graph.Plain) :
    graph.withPhis.flow.phis.toList =
      graph.flow.analyzed.newPhis.mapIdx (placedPhi graph.values.size) := by
  have none : graph.flow.analyzed.phis = #[] := graph.flow.phis_analyzed.trans plain.phis_eq
  have placed := graph.places_withPhis.phis_eq
  rwa [none, List.nil_append] at placed

theorem Plain.holdsPhis_withPhis (plain : graph.Plain) :
    HoldsPhis graph.flow.analyzed.newPhis graph.withPhis.flow :=
  holdsPhis_newPhis (holdsPhis_nil plain.phis_eq plain.phiPlaces_eq)

/-- Phis apart, a block is as it was. -/
theorem Plain.of_block? (plain : graph.Plain) {number : BlockId} {block : Block}
    (found : graph.withPhis.flow.block? number = some block) :
    block.entryVersions = .empty ∧ block.exitVersions = .empty ∧
      ∀ definition ∈ block.definitions, definition.node < graph.values.size := by
  let part (block : Block) := (block.definitions, block.entryVersions, block.exitVersions)
  have kept : Agree part graph.flow graph.withPhis.flow :=
    (graph.flow.agree_analyzed.of_view part).trans (graph.agree_withPhis.of_view part)
  have same := kept.blocks number
  rw [found] at same
  rcases Option.map_eq_some_iff.1 same.symm with ⟨old, foundOld, equal⟩
  obtain ⟨definitionsEq, entryEq, exitEq⟩ := by simpa only [part, Prod.mk.injEq] using equal
  have versions := plain.versions_eq number old foundOld
  rw [entryEq, exitEq] at versions
  exact ⟨versions.1, versions.2, definitionsEq ▸ plain.defined number old foundOld⟩

theorem Redefines.plain (redefines : Redefines vars one two) (plain : one.Plain) : two.Plain where
  phis_eq := by
    rw [redefines.flow_eq]
    exact plain.phis_eq
  phiPlaces_eq block := by
    rw [redefines.flow_eq, ← plain.phiPlaces_eq block, phiPlaces, phiPlaces, block?_redefine,
      Option.map_map]
    rfl
  versions_eq number block found := by
    rw [redefines.flow_eq, block?_redefine] at found
    rcases Option.map_eq_some_iff.1 found with ⟨old, foundOld, rfl⟩
    exact plain.versions_eq number old foundOld
  defined number block found definition member := by
    rw [redefines.flow_eq, block?_redefine] at found
    rcases Option.map_eq_some_iff.1 found with ⟨old, foundOld, rfl⟩
    rcases List.mem_map.1 member with ⟨first, firstMember, rfl⟩
    rw [redefines.values_eq]
    exact plain.defined number old foundOld first firstMember

theorem Redefines.newPhis_perm (redefines : Redefines vars one two) (plain : one.Plain) :
    (one.flow.analyzed.newPhis.map (Prod.map id vars)).Perm two.flow.analyzed.newPhis := by
  rw [redefines.flow_eq, analyzed_redefine]
  refine newPhis_redefine vars (one.flow.phis_analyzed.trans plain.phis_eq) (fun block => ?_)
    (frontier_lt one.flow)
  rw [← plain.phiPlaces_eq block]
  exact one.flow.agree_analyzed.getD_eq (·.phis) block

theorem entries_withPhis (graph : DataFlowGraph) : graph.withPhis.flow.entries = graph.flow.entries :=
  graph.agree_withPhis.entries.trans graph.flow.agree_analyzed.entries

/-- Phis apart, blocks differ in what they define. -/
theorem Redefines.map_withoutPhis (redefines : Redefines vars one two) (number : BlockId) :
    (two.withPhis.flow.block? number).map withoutPhis =
      ((one.withPhis.flow.block? number).map withoutPhis).map (Block.redefine vars) := by
  rw [two.agree_withPhis.blocks, one.agree_withPhis.blocks, redefines.flow_eq, analyzed_redefine,
    block?_redefine, Option.map_map, Option.map_map]
  rfl

/-- Blocks that differ in what they define, and in the numbers of their phis. -/
theorem Redefines.renumbers_block (redefines : Redefines vars one two) (plain : one.Plain)
    {places : Equiv.Perm Nat} (number : BlockId)
    (perm : (two.withPhis.flow.phiPlaces number).Perm
      ((one.withPhis.flow.phiPlaces number).map places)) :
    Option.Rel (Block.Renumbers (.beyond one.values.size vars places))
      (one.withPhis.flow.block? number) (two.withPhis.flow.block? number) := by
  have related := redefines.map_withoutPhis number
  rw [phiPlaces, phiPlaces] at perm
  cases found : one.withPhis.flow.block? number with
  | none =>
      rw [found] at related
      rw [Option.map_eq_none_iff.1 related]
      exact .none
  | some block =>
      rw [found] at related
      rcases Option.map_eq_some_iff.1 related with ⟨twin, foundTwin, equal⟩
      rw [found, foundTwin] at perm
      rcases plain.of_block? found with ⟨entryEq, exitEq, defined⟩
      rcases (redefines.plain plain).of_block? foundTwin with ⟨entryTwin, exitTwin, -⟩
      rw [foundTwin]
      have sameComputed : computed (withoutPhis twin) =
          computed ((withoutPhis block).redefine vars) := congrArg computed equal
      refine .some ⟨sameComputed, ?_, perm, ?_, ?_⟩
      · refine (congrArg Block.definitions equal).trans
          (List.map_congr_left fun definition member => ?_)
        have node := Numbering.nodes_of_lt one.values.size vars places (defined definition member)
        rw [Numbering.definition, node]
        rfl
      · rw [entryEq, entryTwin]
        exact .empty
      · rw [exitEq, exitTwin]
        exact .empty

/-- With their phis placed, graphs that define different variables are the same, but for the
numbers of phis. -/
theorem Redefines.exists_renumbers (redefines : Redefines vars one two) (plain : one.Plain) :
    ∃ places, one.withPhis.flow.clearVersions.Renumbers
      (.beyond one.values.size vars places) two.withPhis.flow.clearVersions := by
  rcases exists_places (redefines.newPhis_perm plain) with ⟨places, found⟩
  have phis : ∀ place : Nat, two.withPhis.flow.phis[places place]? =
      (one.withPhis.flow.phis[place]?).map (Numbering.beyond one.values.size vars places).phi := by
    intro place
    rw [← Array.getElem?_toList, ← Array.getElem?_toList, plain.phis_withPhis,
      (redefines.plain plain).phis_withPhis, redefines.values_eq, List.getElem?_mapIdx,
      List.getElem?_mapIdx, found place, List.getElem?_map, Option.map_map, Option.map_map]
    refine congrArg (Option.map · _) (funext fun site => ?_)
    have node := Numbering.nodes_add one.values.size vars places place
    simp only [Function.comp_apply, placedPhi, Numbering.phi, node]
    rfl
  refine ⟨places, ⟨fun number => ?_, ?_, fun place => ?_, .empty⟩⟩
  · rw [block?_clearVersions, block?_clearVersions]
    refine redefines.renumbers_block plain number ?_
    refine perm_phiPlaces plain.holdsPhis_withPhis (redefines.plain plain).holdsPhis_withPhis places
      (fun place => ?_) number
    rw [phis, Option.map_map]
    rfl
  · rw [entries_clearVersions, entries_clearVersions, entries_withPhis, entries_withPhis,
      redefines.flow_eq]
    rfl
  · rw [clearVersions, clearVersions, Array.getElem?_map, Array.getElem?_map]
    refine (congrArg (Option.map _) (phis place)).trans ?_
    rw [Option.map_map, Option.map_map]
    rfl

end DataFlowGraph

end EscapePlan
