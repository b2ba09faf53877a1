import EscapePlan.Proofs.Analysis.Settling
import EscapePlan.Proofs.Relabeling.Walks

/-!
# Settling under other ids

Ids tell variables apart and nothing else, so the same allocations flow into a variable under
another id, and a walk under other ids is settled in the same way.
-/

namespace EscapePlan

namespace Walk

variable (names : Equiv.Perm StrId) {walk : Walk}

theorem varKey?_relabel (id : NodeId) :
    (walk.relabel names).varKey? id = (walk.varKey? id).map (VarKey.rename names) := by
  rw [varKey?, varKey?, relabel, Array.find?_map, Option.map_map, Option.map_map]
  rfl

theorem mem_flows_relabel {key : VarKey} {value : NodeId} :
    (key.rename names, value) ∈ (walk.relabel names).flows ↔ (key, value) ∈ walk.flows := by
  rw [relabel, Array.mem_map]
  constructor
  · rintro ⟨⟨other, found⟩, flowed, same⟩
    obtain ⟨keys, rfl⟩ := Prod.mk.inj same
    exact VarKey.rename_injective names keys ▸ flowed
  · exact fun flowed => ⟨(key, value), flowed, rfl⟩

/-- A variable denotes the same allocations under another id. -/
theorem denotes_relabel_iff {key : VarKey} {allocation : NodeId} :
    (walk.relabel names).Denotes (key.rename names) allocation ↔ walk.Denotes key allocation := by
  constructor
  · generalize relabeled : key.rename names = other
    intro denotes
    induction denotes generalizing key with
    | allocation flowed kind =>
        subst relabeled
        exact .allocation ((mem_flows_relabel names).1 flowed) kind
    | copy flowed kind varKey _ inductionHypothesis =>
        subst relabeled
        rw [varKey?_relabel] at varKey
        rcases Option.map_eq_some_iff.1 varKey with ⟨source, found, rfl⟩
        exact .copy ((mem_flows_relabel names).1 flowed) kind found (inductionHypothesis rfl)
  · intro denotes
    induction denotes with
    | allocation flowed kind => exact .allocation ((mem_flows_relabel names).2 flowed) kind
    | copy flowed kind varKey _ inductionHypothesis =>
        refine .copy ((mem_flows_relabel names).2 flowed) kind ?_ inductionHypothesis
        rw [varKey?_relabel, varKey]
        rfl

theorem aliasEdges_relabel : (walk.relabel names).aliasEdges = walk.aliasEdges := by
  have same : (walk.relabel names).variableNodes = walk.variableNodes := by
    refine List.filter_congr fun id _ => ?_
    rw [varKey?_relabel, Option.isSome_map]
  rw [aliasEdges, aliasEdges, same]
  refine List.flatMap_congr fun id _ => congrArg (List.map _) ?_
  refine (pairwise_denoted _ _ id).eq_of_mem_iff (pairwise_denoted _ _ id) fun allocation => ?_
  rw [mem_denoted_iff, mem_denoted_iff]
  constructor
  · rintro ⟨key, varKey, denotes⟩
    rw [varKey?_relabel] at varKey
    rcases Option.map_eq_some_iff.1 varKey with ⟨key, found, rfl⟩
    exact ⟨key, found, (denotes_relabel_iff names).1 denotes⟩
  · rintro ⟨key, varKey, denotes⟩
    refine ⟨key.rename names, ?_, (denotes_relabel_iff names).2 denotes⟩
    rw [varKey?_relabel, varKey]
    rfl

theorem resolveAliases_relabel :
    (walk.relabel names).resolveAliases = walk.resolveAliases.relabel names := by
  rw [resolveAliases, aliasEdges_relabel, resolveAliases]
  rfl

/-! ## What is applied -/

theorem applyAccess_relabel (walk : Walk) (access : Access) :
    (walk.relabel names).applyAccess access = (walk.applyAccess access).relabel names :=
  List.foldl_hom (relabel names) fun _ _ => rfl

theorem escalate_relabel (walk : Walk) (reason : EscapeReason) (position : Option Position)
    (allocation : NodeId) :
    (walk.relabel names).escalate reason position allocation =
      (walk.escalate reason position allocation).relabel names := by
  have records : (walk.relabel names).records = walk.records := rfl
  rw [escalate, escalate, records]
  cases walk.records.find? allocation with
  | none => rfl
  | some record =>
      dsimp only
      split
      next => rfl
      next => rfl

theorem applySink_relabel (walk : Walk) (sink : Sink) :
    (walk.relabel names).applySink sink = (walk.applySink sink).relabel names := by
  refine List.foldl_hom (relabel names) fun walk allocation => ?_
  exact escalate_relabel names { walk with
    graph := { walk.graph with
      values := walk.graph.values.addEdge ⟨allocation, sink.target, sink.kind⟩ } } _ _ _

theorem truncatedReach_relabel (walk : Walk) :
    (walk.relabel names).truncatedReach = walk.truncatedReach := by
  have denoted : ((walk.relabel names).mentions.toList.filter fun mention =>
        (walk.relabel names).truncated.contains mention.2.scope).flatMap
          (fun mention => (walk.relabel names).graph.values.pointsTo mention.1) =
      (walk.mentions.toList.filter fun mention =>
        walk.truncated.contains mention.2.scope).flatMap
          (fun mention => walk.graph.values.pointsTo mention.1) := by
    rw [relabel, Array.toList_map, List.filter_map, List.flatMap_map]
    rfl
  rw [truncatedReach, truncatedReach]
  exact congrArg (fun denoted => (List.range walk.graph.values.size).filter fun id =>
    ((walk.sites.toList.filter fun site => walk.truncated.contains site.2).map (·.1)).contains id ||
      denoted.contains id) denoted

theorem escalateTruncated_relabel (walk : Walk) :
    (walk.relabel names).escalateTruncated = walk.escalateTruncated.relabel names := by
  have truncated : (walk.relabel names).truncated = walk.truncated := rfl
  rw [escalateTruncated, escalateTruncated, truncated, truncatedReach_relabel]
  split
  next => rfl
  next => exact List.foldl_hom (relabel names) fun _ _ => escalate_relabel names _ _ _ _

/-- A walk under other ids is settled in the same way. -/
theorem settle_relabel (walk : Walk) :
    (walk.relabel names).settle = walk.settle.relabel names := by
  have accesses : (walk.relabel names).applyAccesses = walk.applyAccesses.relabel names := by
    rw [applyAccesses, applyAccesses, resolveAliases_relabel, ← Array.foldl_toList,
      ← Array.foldl_toList]
    exact List.foldl_hom (relabel names) fun _ _ => applyAccess_relabel names _ _
  have sinks : (walk.relabel names).applySinks = walk.applySinks.relabel names := by
    rw [applySinks, applySinks, accesses, ← Array.foldl_toList, ← Array.foldl_toList]
    exact List.foldl_hom (relabel names) fun _ _ => applySink_relabel names _ _
  rw [settle_eq, settle_eq, sinks, escalateTruncated_relabel]

end Walk

end EscapePlan
