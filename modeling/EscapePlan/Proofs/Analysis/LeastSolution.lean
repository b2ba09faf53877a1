import EscapePlan.Analysis.Aliases
import EscapePlan.Proofs.Analysis.Steps
import EscapePlan.Proofs.Graph.Edges
import Mathlib.Data.List.Perm.Subperm
import Mathlib.Data.List.ProdSigma
import Mathlib.Data.List.Sort

/-!
# The least solution of the flows

`Walk.Denotes` is the least solution of the flows that a walk has noted: an allocation that flows
into a variable, directly or through a chain of other variables.  Rounds over the flows find
nothing else, they come to rest, and then they have found all of it, however variables flow into
each other and in whichever order the flows were noted.
-/

namespace EscapePlan.Walk

variable {walk : Walk} {targets : Targets} {key : VarKey} {allocation : NodeId}

/-- The least solution of the flows. -/
inductive Denotes (walk : Walk) : VarKey → NodeId → Prop where
  | allocation {key : VarKey} {id : NodeId} :
      (key, id) ∈ walk.flows → walk.kind? id = some .allocation → Denotes walk key id
  | copy {key source : VarKey} {id allocation : NodeId} :
      (key, id) ∈ walk.flows → walk.kind? id ≠ some .allocation → walk.varKey? id = some source →
      Denotes walk source allocation → Denotes walk key allocation

theorem Denotes.kind_eq (denotes : walk.Denotes key allocation) :
    walk.kind? allocation = some .allocation := by
  induction denotes with
  | allocation _ kind => exact kind
  | copy _ _ _ _ inductionHypothesis => exact inductionHypothesis

/-- The variable and the allocation occur in flows. -/
theorem Denotes.exists_flows (denotes : walk.Denotes key allocation) :
    (∃ flow ∈ walk.flows, flow.1 = key) ∧ ∃ flow ∈ walk.flows, flow.2 = allocation := by
  induction denotes with
  | allocation flowed _ => exact ⟨⟨_, flowed, rfl⟩, _, flowed, rfl⟩
  | copy flowed _ _ _ inductionHypothesis => exact ⟨⟨_, flowed, rfl⟩, inductionHypothesis.2⟩

/-- Flows in another order have the same solution. -/
theorem Denotes.of_flows {flows : Array (VarKey × NodeId)}
    (same : ∀ flow ∈ walk.flows, flow ∈ flows) (denotes : walk.Denotes key allocation) :
    ({ walk with flows } : Walk).Denotes key allocation := by
  induction denotes with
  | allocation flowed kind => exact .allocation (same _ flowed) kind
  | copy flowed kind varKey _ inductionHypothesis =>
      exact .copy (same _ flowed) kind varKey inductionHypothesis

/-! ## One flow after the other -/

theorem mem_targetsOf : allocation ∈ targetsOf targets key ↔ (key, allocation) ∈ targets := by
  simp [targetsOf]

theorem mem_directAliases {value : NodeId} :
    allocation ∈ walk.directAliases targets value ↔
      (walk.kind? value = some .allocation ∧ allocation = value) ∨
        (walk.kind? value ≠ some .allocation ∧
          ∃ source, walk.varKey? value = some source ∧ (source, allocation) ∈ targets) := by
  have allocates : walk.graph.values.isAllocation value = true ↔
      walk.kind? value = some .allocation := decide_eq_true_iff
  rw [directAliases]
  split
  next isAllocation => simp [allocates.1 isAllocation]
  next other =>
    have kind := mt allocates.2 other
    cases varKey : walk.varKey? value with
    | none => simp [kind]
    | some source => simp [kind, mem_targetsOf]

theorem mem_foldl_insert {pair : VarKey × NodeId} (allocations : List NodeId) :
    pair ∈ allocations.foldl (fun targets allocation => targets.insert (key, allocation)) targets ↔
      pair ∈ targets ∨ pair.1 = key ∧ pair.2 ∈ allocations := by
  induction allocations generalizing targets with
  | nil => simp
  | cons allocation allocations inductionHypothesis =>
      rw [List.foldl_cons, inductionHypothesis, List.mem_insert_iff, Prod.ext_iff, List.mem_cons]
      tauto

theorem mem_follow {flow pair : VarKey × NodeId} :
    pair ∈ walk.follow targets flow ↔
      pair ∈ targets ∨ pair.1 = flow.1 ∧ pair.2 ∈ walk.directAliases targets flow.2 :=
  mem_foldl_insert _

/-! ## Rounds only add -/

theorem suffix_foldl {α : Type} {step : Targets → α → Targets}
    (grows : ∀ targets item, targets <:+ step targets item) (items : List α) (targets : Targets) :
    targets <:+ items.foldl step targets := by
  induction items generalizing targets with
  | nil => exact List.suffix_rfl
  | cons item items inductionHypothesis =>
      exact (grows targets item).trans (inductionHypothesis (step targets item))

/-- If all steps together add nothing, then none of them does. -/
theorem eq_of_foldl_eq {α : Type} {step : Targets → α → Targets}
    (grows : ∀ targets item, targets <:+ step targets item) {items : List α}
    (fixed : items.foldl step targets = targets) : ∀ item ∈ items, step targets item = targets := by
  induction items with
  | nil => exact fun item member => absurd member List.not_mem_nil
  | cons item items inductionHypothesis =>
      have rest : step targets item <:+ targets := by
        have later := suffix_foldl grows items (step targets item)
        rwa [← List.foldl_cons, fixed] at later
      have first := rest.eq_of_length_le (grows targets item).length_le
      rw [List.foldl_cons, first] at fixed
      exact List.forall_mem_cons.2 ⟨first, inductionHypothesis fixed⟩

theorem suffix_insert (targets : Targets) (pair : VarKey × NodeId) :
    targets <:+ targets.insert pair := by
  by_cases known : pair ∈ targets
  · rw [List.insert_of_mem known]
  · rw [List.insert_of_not_mem known]
    exact List.suffix_cons pair targets

theorem suffix_follow (targets : Targets) (flow : VarKey × NodeId) :
    targets <:+ walk.follow targets flow :=
  suffix_foldl (fun targets allocation => suffix_insert targets (flow.1, allocation)) _ targets

theorem suffix_followAll (targets : Targets) : targets <:+ walk.followAll targets :=
  suffix_foldl suffix_follow _ targets

/-! ## Nothing else is found -/

/-- What is found, each pair once, is denoted. -/
structure Sure (walk : Walk) (targets : Targets) : Prop where
  nodup : targets.Nodup
  denotes : ∀ pair ∈ targets, walk.Denotes pair.1 pair.2

theorem sure_nil : Sure walk [] :=
  ⟨.nil, fun _ member => absurd member List.not_mem_nil⟩

theorem nodup_foldl_insert (allocations : List NodeId) (nodup : targets.Nodup) :
    (allocations.foldl (fun targets allocation => targets.insert (key, allocation))
      targets).Nodup := by
  induction allocations generalizing targets with
  | nil => exact nodup
  | cons allocation allocations inductionHypothesis => exact inductionHypothesis nodup.insert

theorem Sure.follow (sure : Sure walk targets) {flow : VarKey × NodeId}
    (noted : flow ∈ walk.flows) : Sure walk (walk.follow targets flow) where
  nodup := nodup_foldl_insert _ sure.nodup
  denotes pair member := by
    rcases mem_follow.1 member with old | ⟨variableEq, listed⟩
    · exact sure.denotes pair old
    · rw [variableEq]
      rcases mem_directAliases.1 listed with ⟨kind, same⟩ | ⟨kind, source, varKey, known⟩
      · rw [same]
        exact .allocation noted kind
      · exact .copy noted kind varKey (sure.denotes _ known)

theorem Sure.followAll (sure : Sure walk targets) : Sure walk (walk.followAll targets) := by
  have sublist : ∀ flow ∈ walk.flows.toList, flow ∈ walk.flows := fun _ => Array.mem_toList_iff.1
  rw [Walk.followAll]
  generalize walk.flows.toList = flows at sublist
  induction flows generalizing targets with
  | nil => exact sure
  | cons flow flows inductionHypothesis =>
      exact inductionHypothesis (sure.follow (sublist flow List.mem_cons_self))
        fun other member => sublist other (List.mem_cons_of_mem _ member)

/-- There are no more pairs than pairs of flows. -/
theorem Sure.length_le (sure : Sure walk targets) :
    targets.length ≤ walk.flows.size * walk.flows.size := by
  have subset : targets ⊆ walk.flows.toList.map (·.1) ×ˢ walk.flows.toList.map (·.2) := by
    intro pair member
    rcases (sure.denotes pair member).exists_flows with
      ⟨⟨one, noted, keyEq⟩, other, notedOther, idEq⟩
    refine List.mem_product.2 ⟨List.mem_map.2 ⟨one, ?_, keyEq⟩, List.mem_map.2 ⟨other, ?_, idEq⟩⟩
    · exact Array.mem_toList_iff.2 noted
    · exact Array.mem_toList_iff.2 notedOther
  have fewer := (sure.nodup.subperm subset).length_le
  simpa [List.length_product] using fewer

/-! ## Everything is found -/

/-- The rounds come to rest. -/
theorem exists_targets (walk : Walk) :
    ∃ targets, walk.targets? = some targets ∧ Sure walk targets ∧
      walk.followAll targets = targets := by
  have proceeds : ∀ targets, Sure walk targets → ∃ next,
      some (walk.followAll targets) = some next ∧ Sure walk next ∧
        (next ≠ targets → walk.flows.size * walk.flows.size - next.length <
          walk.flows.size * walk.flows.size - targets.length) := by
    intro targets sure
    refine ⟨_, rfl, sure.followAll, fun changed => ?_⟩
    have grows := @suffix_followAll walk targets
    have longer : targets.length < (walk.followAll targets).length := by
      refine Nat.lt_of_le_of_ne grows.length_le fun same => ?_
      exact changed (grows.eq_of_length same).symm
    have bounded := sure.followAll.length_le
    omega
  rcases Iteration.exists_untilStable proceeds sure_nil
    (Nat.lt_succ_of_le (Nat.sub_le _ _)) with ⟨last, settled, sure, stable⟩
  exact ⟨last, settled, sure, Option.some.inj stable⟩

/-- What a round adds nothing to holds everything that is denoted. -/
theorem Denotes.mem_of_stable (denotes : walk.Denotes key allocation)
    (stable : walk.followAll targets = targets) : (key, allocation) ∈ targets := by
  have followed : ∀ flow ∈ walk.flows, walk.follow targets flow = targets := fun flow noted =>
    eq_of_foldl_eq suffix_follow stable flow (Array.mem_toList_iff.2 noted)
  induction denotes with
  | @allocation key id noted kind =>
      rw [← followed _ noted]
      exact mem_follow.2 (.inr ⟨rfl, mem_directAliases.2 (.inl ⟨kind, rfl⟩)⟩)
  | @copy key source id allocation noted kind varKey _ inductionHypothesis =>
      rw [← followed _ noted]
      refine mem_follow.2 (.inr ⟨rfl, mem_directAliases.2 (.inr ⟨kind, source, varKey, ?_⟩)⟩)
      exact inductionHypothesis

theorem mem_targets_iff :
    (key, allocation) ∈ walk.targets?.getD [] ↔ walk.Denotes key allocation := by
  rcases walk.exists_targets with ⟨targets, settled, sure, stable⟩
  rw [settled, Option.getD_some]
  exact ⟨sure.denotes (key, allocation), fun denotes => denotes.mem_of_stable stable⟩

/-! ## Edges to what is denoted -/

theorem mem_denoted_iff {id : NodeId} :
    allocation ∈ walk.denoted (walk.targets?.getD []) id ↔
      ∃ key, walk.varKey? id = some key ∧ walk.Denotes key allocation := by
  rw [denoted, List.mem_filter, List.contains_iff_mem]
  cases walk.varKey? id with
  | none => simp
  | some key =>
      simp only [Option.elim_some, mem_targetsOf, mem_targets_iff, Option.some.injEq,
        exists_eq_left']
      refine ⟨And.right, fun denotes => ⟨?_, denotes⟩⟩
      exact List.mem_range.2 (Walker.kind?_lt denotes.kind_eq)

theorem pairwise_denoted (walk : Walk) (targets : Targets) (id : NodeId) :
    (walk.denoted targets id).Pairwise (· < ·) :=
  List.pairwise_lt_range.filter _

/-- Edges lead from known nodes of variables to what the variables denote. -/
theorem mem_aliasEdges_iff {edge : Edge} :
    edge ∈ walk.aliasEdges ↔ edge.source < walk.graph.values.size ∧
      ∃ key, walk.varKey? edge.source = some key ∧ walk.Denotes key edge.target ∧
        edge.kind = .pointsTo := by
  rw [aliasEdges, List.mem_flatMap]
  constructor
  · rintro ⟨id, listed, member⟩
    rcases List.mem_map.1 member with ⟨allocation, found, rfl⟩
    rcases mem_denoted_iff.1 found with ⟨key, varKey, denotes⟩
    exact ⟨List.mem_range.1 (List.mem_filter.1 listed).1, key, varKey, denotes, rfl⟩
  · rintro ⟨known, key, varKey, denotes, kind⟩
    refine ⟨edge.source, List.mem_filter.2 ⟨List.mem_range.2 known, by simp [varKey]⟩, ?_⟩
    exact List.mem_map.2 ⟨edge.target, mem_denoted_iff.2 ⟨key, varKey, denotes⟩, kind ▸ rfl⟩

/-- The edges from one node are listed in ascending order. -/
theorem pairwise_aliasEdges (walk : Walk) :
    walk.aliasEdges.Pairwise fun first second =>
      first.source = second.source → first.target < second.target := by
  rw [aliasEdges, List.pairwise_flatMap]
  constructor
  · intro id _
    refine List.pairwise_map.2 ((walk.pairwise_denoted _ id).imp ?_)
    exact fun less _ => less
  · refine (List.pairwise_lt_range.filter _).imp ?_
    intro one two less first firstListed second secondListed same
    rcases List.mem_map.1 firstListed with ⟨_, _, rfl⟩
    rcases List.mem_map.1 secondListed with ⟨_, _, rfl⟩
    exact absurd same (Nat.ne_of_lt less)

/-- Flows in another order give the same edges. -/
theorem aliasEdges_eq_of_flows {flows : Array (VarKey × NodeId)}
    (same : ∀ flow, flow ∈ flows ↔ flow ∈ walk.flows) :
    ({ walk with flows } : Walk).aliasEdges = walk.aliasEdges := by
  have denotes : ∀ key allocation,
      ({ walk with flows } : Walk).Denotes key allocation ↔ walk.Denotes key allocation := by
    intro key allocation
    constructor
    · exact Denotes.of_flows fun flow => (same flow).1
    · exact Denotes.of_flows fun flow => (same flow).2
  refine List.flatMap_congr fun id _ => congrArg (List.map _) ?_
  refine (pairwise_denoted _ _ id).eq_of_mem_iff (pairwise_denoted _ _ id) fun allocation => ?_
  rw [mem_denoted_iff, mem_denoted_iff]
  simp only [denotes]
  rfl

/-! ## Resolved aliases -/

/-- Nothing is resolved yet: variables have known nodes, and nothing points to an allocation. -/
structure Unresolved (walk : Walk) : Prop where
  mention_known : ∀ mention ∈ walk.mentions, mention.1 < walk.graph.values.size
  plain : ∀ edge ∈ walk.graph.values.edges, edge.kind ≠ .pointsTo

theorem Unresolved.lt_of_varKey? (unresolved : walk.Unresolved) {id : NodeId}
    (varKey : walk.varKey? id = some key) : id < walk.graph.values.size := by
  rcases Option.map_eq_some_iff.1 varKey with ⟨mention, found, -⟩
  have same : mention.1 = id := by simpa using Array.find?_some found
  exact same ▸ unresolved.mention_known mention (Array.mem_of_find?_eq_some found)

theorem mem_pointsTo_resolveAliases (unresolved : walk.Unresolved) {id : NodeId} :
    allocation ∈ walk.resolveAliases.graph.values.pointsTo id ↔
      ∃ key, walk.varKey? id = some key ∧ walk.Denotes key allocation := by
  rw [ValueGraph.mem_pointsTo, resolveAliases, ValueGraph.mem_edges_foldl_addEdge_iff,
    mem_aliasEdges_iff]
  constructor
  · rintro (old | ⟨⟨-, key, varKey, denotes, -⟩, -⟩)
    · exact absurd rfl (unresolved.plain _ old)
    · exact ⟨key, varKey, denotes⟩
  · rintro ⟨key, varKey, denotes⟩
    have known := unresolved.lt_of_varKey? varKey
    exact .inr ⟨⟨known, key, varKey, denotes, rfl⟩, known, Walker.kind?_lt denotes.kind_eq⟩

theorem pairwise_pointsTo_resolveAliases (unresolved : walk.Unresolved) (id : NodeId) :
    (walk.resolveAliases.graph.values.pointsTo id).Pairwise (· < ·) := by
  rcases ValueGraph.exists_adds walk.graph.values walk.aliasEdges with ⟨added, adds⟩
  have none : (walk.graph.values.edges.toList.filter (·.source = id)).filter
      (·.kind = .pointsTo) = [] := by
    refine List.filter_eq_nil_iff.2 fun edge member => ?_
    have plain := unresolved.plain edge (Array.mem_toList_iff.1 (List.mem_filter.1 member).1)
    simpa using plain
  rw [ValueGraph.pointsTo, ValueGraph.outgoing_eq, resolveAliases, adds.edges_eq, List.filter_append,
    List.filter_append, none, List.nil_append, List.pairwise_map]
  have ascending := ((walk.pairwise_aliasEdges.sublist adds.sublist).filter
    (·.source = id)).filter (·.kind = .pointsTo)
  refine ascending.imp_of_mem fun firstMember secondMember less => less ?_
  have first := (List.mem_filter.1 (List.mem_filter.1 firstMember).1).2
  have second := (List.mem_filter.1 (List.mem_filter.1 secondMember).1).2
  exact (of_decide_eq_true first).trans (of_decide_eq_true second).symm

/-- Resolving aliases finds the least solution of the flows. -/
structure FindsAliases (walk : Walk) : Prop where
  /-- The rounds come to rest before they run out. -/
  settles : ∃ targets, walk.targets? = some targets ∧ walk.followAll targets = targets
  /-- The nodes of a variable point to the allocations from which a chain of flows leads to the
  variable, and to no others. -/
  mem_pointsTo_iff : ∀ id key, walk.varKey? id = some key → ∀ allocation,
    allocation ∈ walk.resolveAliases.graph.values.pointsTo id ↔ walk.Denotes key allocation
  pointsTo_eq_nil : ∀ id, walk.varKey? id = none →
    walk.resolveAliases.graph.values.pointsTo id = []
  ascending : ∀ id, (walk.resolveAliases.graph.values.pointsTo id).Pairwise (· < ·)
  /-- All nodes of a variable point to the same. -/
  shared : ∀ first second key, walk.varKey? first = some key → walk.varKey? second = some key →
    walk.resolveAliases.graph.values.pointsTo first =
      walk.resolveAliases.graph.values.pointsTo second
  /-- The order in which flows were noted, and how often, makes no difference. -/
  unordered : ∀ flows : Array (VarKey × NodeId), (∀ flow, flow ∈ flows ↔ flow ∈ walk.flows) →
    ({ walk with flows } : Walk).resolveAliases.graph = walk.resolveAliases.graph
  /-- Nothing else changes. -/
  nodes_eq : walk.resolveAliases.graph.values.nodes = walk.graph.values.nodes
  edges_eq : ∃ added, walk.resolveAliases.graph.values.edges.toList =
    walk.graph.values.edges.toList ++ added ∧ ∀ edge ∈ added, edge.kind = .pointsTo

theorem findsAliases (walk : Walk) (unresolved : walk.Unresolved) : walk.FindsAliases := by
  constructor
  · rcases walk.exists_targets with ⟨targets, settled, -, stable⟩
    exact ⟨targets, settled, stable⟩
  · intro id key varKey allocation
    rw [mem_pointsTo_resolveAliases unresolved, varKey]
    simp
  · intro id unnamed
    refine List.eq_nil_iff_forall_not_mem.2 fun allocation member => ?_
    rcases (mem_pointsTo_resolveAliases unresolved).1 member with ⟨key, varKey, -⟩
    rw [unnamed] at varKey
    contradiction
  · exact pairwise_pointsTo_resolveAliases unresolved
  · intro first second key firstKey secondKey
    have ascending := pairwise_pointsTo_resolveAliases unresolved
    refine (ascending first).eq_of_mem_iff (ascending second) fun allocation => ?_
    rw [mem_pointsTo_resolveAliases unresolved, mem_pointsTo_resolveAliases unresolved, firstKey,
      secondKey]
  · intro flows same
    rw [resolveAliases, resolveAliases, aliasEdges_eq_of_flows same]
  · exact ValueGraph.nodes_foldl_addEdge _ _
  · rcases ValueGraph.exists_adds walk.graph.values walk.aliasEdges with ⟨added, adds⟩
    refine ⟨added, adds.edges_eq, fun edge member => ?_⟩
    rcases (mem_aliasEdges_iff.1 (adds.sublist.subset member)).2 with ⟨-, -, -, kind⟩
    exact kind

/-- Three variables that are copied around in a circle and a variable of another scope that takes
from one of them; the only allocation comes last. -/
def circular : Walk :=
  let kinds : List NodeKind := [.allocation, .localVar, .localVar, .localVar, .localVar, .localVar]
  { initial with
    graph := { initial.graph with
      values := kinds.foldl (fun values kind => (values.addNode kind none none .unknown).2) .empty }
    mentions := #[(1, ⟨0, ⟨1⟩⟩), (2, ⟨0, ⟨2⟩⟩), (3, ⟨0, ⟨3⟩⟩), (4, ⟨1, ⟨1⟩⟩), (5, ⟨0, ⟨1⟩⟩)]
    flows := #[(⟨1, ⟨1⟩⟩, 3), (⟨0, ⟨3⟩⟩, 2), (⟨0, ⟨2⟩⟩, 1), (⟨0, ⟨1⟩⟩, 3), (⟨0, ⟨1⟩⟩, 0)] }

theorem findsAliases_circular :
    circular.Unresolved ∧ (⟨1, ⟨1⟩⟩, 0) ∉ circular.followAll (circular.followAll []) ∧
      0 ∈ circular.resolveAliases.graph.values.pointsTo 4 ∧
        circular.resolveAliases.graph.values.pointsTo 1 =
          circular.resolveAliases.graph.values.pointsTo 5 := by
  have unresolved : circular.Unresolved := ⟨by decide, by decide⟩
  have finds := findsAliases circular unresolved
  have noted : ∀ flow ∈ circular.flows.toList, flow ∈ circular.flows := fun _ =>
    Array.mem_toList_iff.1
  have made : circular.Denotes ⟨0, ⟨1⟩⟩ 0 := .allocation (noted _ (by decide)) rfl
  have copied : circular.Denotes ⟨0, ⟨2⟩⟩ 0 :=
    .copy (noted (_, 1) (by decide)) (by decide) rfl made
  have copiedAgain : circular.Denotes ⟨0, ⟨3⟩⟩ 0 :=
    .copy (noted (_, 2) (by decide)) (by decide) rfl copied
  have taken : circular.Denotes ⟨1, ⟨1⟩⟩ 0 :=
    .copy (noted (_, 3) (by decide)) (by decide) rfl copiedAgain
  exact ⟨unresolved, by decide, (finds.mem_pointsTo_iff 4 ⟨1, ⟨1⟩⟩ rfl 0).2 taken,
    finds.shared 1 5 ⟨0, ⟨1⟩⟩ rfl rfl⟩

end EscapePlan.Walk
