import EscapePlan.Proofs.Analysis.Settling
import EscapePlan.Proofs.Merging.Walks

/-!
# Settling under merged names

Variables that are known come to different ones under changed names, so the same allocations flow
into them.  Accesses, sinks and what was cut off are then applied to the same objects, and a walk
that echoes another one is settled in the same way.
-/

namespace EscapePlan.Walk

/-- The variable of a node is known. -/
theorem hasNoted_of_varKey? {walk : Walk} {id : NodeId} {key : VarKey}
    (varKey : walk.varKey? id = some key) : walk.HasNoted key := by
  rcases Option.map_eq_some_iff.1 varKey with ⟨mention, found, rfl⟩
  exact .inl ⟨mention, Array.mem_of_find?_eq_some found, rfl⟩

namespace Echoes

variable {change : StrId → StrId} {bodies : List Body} {one two : Walk}

section

variable (echoes : Echoes change bodies one two)
include echoes

/-! ## Aliases -/

theorem varKey?_eq (id : NodeId) :
    two.varKey? id = (one.varKey? id).map (VarKey.rename change) := by
  rw [varKey?, varKey?, echoes.mentions_eq, Array.find?_map, Option.map_map, Option.map_map]
  rfl

theorem mem_flows_iff {key : VarKey} (known : one.HasNoted key) {value : NodeId} :
    (key.rename change, value) ∈ two.flows ↔ (key, value) ∈ one.flows := by
  rw [echoes.flows_eq, Array.mem_map]
  constructor
  · rintro ⟨⟨other, found⟩, flowed, same⟩
    obtain ⟨keys, rfl⟩ := Prod.mk.inj same
    exact echoes.apart other key (.inr ⟨_, flowed, rfl⟩) known keys ▸ flowed
  · exact fun flowed => ⟨(key, value), flowed, rfl⟩

/-- A known variable denotes the same allocations under a changed name. -/
theorem denotes_iff {key : VarKey} (known : one.HasNoted key) {allocation : NodeId} :
    two.Denotes (key.rename change) allocation ↔ one.Denotes key allocation := by
  constructor
  · -- The variables on the way are those of nodes, so each of them is under a changed name.
    generalize renamed : key.rename change = other
    intro denotes
    induction denotes generalizing key with
    | allocation flowed kind =>
        subst renamed
        exact .allocation ((echoes.mem_flows_iff known).1 flowed) (echoes.kind?_eq ▸ kind)
    | copy flowed kind varKey _ inductionHypothesis =>
        subst renamed
        rw [echoes.varKey?_eq] at varKey
        rcases Option.map_eq_some_iff.1 varKey with ⟨source, found, same⟩
        exact .copy ((echoes.mem_flows_iff known).1 flowed) (echoes.kind?_eq ▸ kind) found
          (inductionHypothesis (hasNoted_of_varKey? found) same)
  · intro denotes
    induction denotes with
    | allocation flowed kind =>
        exact .allocation ((echoes.mem_flows_iff known).2 flowed) (echoes.kind?_eq ▸ kind)
    | copy flowed kind varKey _ inductionHypothesis =>
        refine .copy ((echoes.mem_flows_iff known).2 flowed) (echoes.kind?_eq ▸ kind) ?_
          (inductionHypothesis (hasNoted_of_varKey? varKey))
        rw [echoes.varKey?_eq, varKey]
        rfl

theorem aliasEdges_eq : two.aliasEdges = one.aliasEdges := by
  have nodes : two.variableNodes = one.variableNodes := by
    rw [variableNodes, variableNodes, echoes.values_eq]
    refine List.filter_congr fun id _ => ?_
    rw [echoes.varKey?_eq, Option.isSome_map]
  rw [aliasEdges, aliasEdges, nodes]
  refine List.flatMap_congr fun id _ => congrArg (List.map _) ?_
  refine (pairwise_denoted _ _ id).eq_of_mem_iff (pairwise_denoted _ _ id) fun allocation => ?_
  rw [mem_denoted_iff, mem_denoted_iff]
  constructor
  · rintro ⟨key, varKey, denotes⟩
    rw [echoes.varKey?_eq] at varKey
    rcases Option.map_eq_some_iff.1 varKey with ⟨key, found, rfl⟩
    exact ⟨key, found, (echoes.denotes_iff (hasNoted_of_varKey? found)).1 denotes⟩
  · rintro ⟨key, varKey, denotes⟩
    refine ⟨key.rename change, ?_, (echoes.denotes_iff (hasNoted_of_varKey? varKey)).2 denotes⟩
    rw [echoes.varKey?_eq, varKey]
    rfl

theorem resolveAliases : Echoes change bodies one.resolveAliases two.resolveAliases :=
  { echoes with
    values_eq := by
      show two.aliasEdges.foldl _ _ = one.aliasEdges.foldl _ _
      rw [echoes.aliasEdges_eq, echoes.values_eq] }

theorem aliases_eq (value : NodeId) : two.aliases value = one.aliases value := by
  rw [aliases, aliases, echoes.values_eq]

/-! ## What is applied -/

/-- The same is done to the values and to the records of both walks. -/
theorem update (turn : ValueGraph → ValueGraph) (alter : Records → Records) :
    Echoes change bodies
      { one with
        graph := { one.graph with values := turn one.graph.values }
        records := alter one.records }
      { two with
        graph := { two.graph with values := turn two.graph.values }
        records := alter two.records } :=
  { echoes with
    values_eq := congrArg turn echoes.values_eq
    records_eq := congrArg alter echoes.records_eq }

theorem applyAccess (access : Access) :
    Echoes change bodies (one.applyAccess access) (two.applyAccess access) := by
  rw [Walk.applyAccess, Walk.applyAccess, echoes.aliases_eq]
  refine List.foldl_rel echoes fun allocation _ first second echoes => ?_
  cases access.field with
  | none => exact echoes.update (·.addEdge ⟨allocation, access.node, .defUse⟩) id
  | some field =>
      exact echoes.update (·.addEdge ⟨allocation, access.node, .defUse⟩)
        (·.modify allocation (·.recordField field access.type))

theorem escalate (reason : EscapeReason) (position : Option Position) (allocation : NodeId) :
    Echoes change bodies (one.escalate reason position allocation)
      (two.escalate reason position allocation) := by
  have same : two.records.find? allocation = one.records.find? allocation :=
    congrArg (·.find? allocation) echoes.records_eq
  rw [Walk.escalate, Walk.escalate, same]
  cases one.records.find? allocation with
  | none => exact echoes
  | some record =>
      dsimp only
      split
      next => exact echoes
      next =>
        exact echoes.update (·.setState allocation _) (·.insert allocation _)

theorem applySink (sink : Sink) :
    Echoes change bodies (one.applySink sink) (two.applySink sink) := by
  rw [Walk.applySink, Walk.applySink, echoes.aliases_eq]
  refine List.foldl_rel echoes fun allocation _ first second echoes => ?_
  have joined := echoes.update (·.addEdge ⟨allocation, sink.target, sink.kind⟩) id
  exact joined.escalate sink.reason sink.position allocation

theorem truncatedReach_eq : two.truncatedReach = one.truncatedReach := by
  rw [truncatedReach, truncatedReach, echoes.sites_eq, echoes.truncated_eq, echoes.values_eq,
    echoes.mentions_eq, Array.toList_map, List.filter_map, List.flatMap_map]
  rfl

theorem escalateTruncated :
    Echoes change bodies one.escalateTruncated two.escalateTruncated := by
  rw [Walk.escalateTruncated, Walk.escalateTruncated, echoes.truncated_eq, echoes.truncatedReach_eq]
  split
  next => exact echoes
  next => exact List.foldl_rel echoes fun allocation _ _ _ echoes => echoes.escalate _ _ allocation

end

/-- A walk that echoes another one goes on to do so once both are settled. -/
theorem settle (echoes : Echoes change bodies one two) :
    Echoes change bodies one.settle two.settle := by
  have accesses : Echoes change bodies one.applyAccesses two.applyAccesses := by
    rw [applyAccesses, applyAccesses, echoes.accesses_eq, ← Array.foldl_toList,
      ← Array.foldl_toList]
    exact List.foldl_rel echoes.resolveAliases fun access _ _ _ echoes => echoes.applyAccess access
  have sinks : Echoes change bodies one.applySinks two.applySinks := by
    rw [applySinks, applySinks, echoes.sinks_eq, ← Array.foldl_toList, ← Array.foldl_toList]
    exact List.foldl_rel accesses fun sink _ _ _ echoes => echoes.applySink sink
  rw [settle_eq, settle_eq]
  exact sinks.escalateTruncated

end Echoes

end EscapePlan.Walk
