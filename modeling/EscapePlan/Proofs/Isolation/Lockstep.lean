import EscapePlan.Proofs.Analysis.Aliases
import EscapePlan.Proofs.Propagation
import Mathlib.Data.List.Forall2

/-!
# Walks in step

Two walks that do the same from some point on stay in step, whatever each of them has done before.
Values and scopes get other numbers in one than in the other, but those that both have made since
then correspond in order of creation, and so does everything that is noted about them.

`Walker.Lockstep` says of two actions that they keep two walks in step.
-/

namespace EscapePlan

/-- A value without its number and the tree node that it comes from. -/
def ValueNode.bare (node : ValueNode) : ValueNode :=
  { node with id := 0, origin := none }

namespace ValueGraph

/-- Whatever an edge is added to, it is there afterwards, and nothing else is new. -/
theorem mem_addEdge_iff {graph : ValueGraph} {edge other : Edge} (source : edge.source < graph.size)
    (target : edge.target < graph.size) :
    other ∈ (graph.addEdge edge).edges ↔ other ∈ graph.edges ∨ other = edge := by
  constructor
  · intro listed
    exact (mem_of_mem_addEdge listed).imp_right And.left
  · rintro (old | rfl)
    · exact mem_edges_addEdge old
    · exact addEdge_mem source target

theorem map_bare_addNode (graph : ValueGraph) (kind : NodeKind) (origin : Option NodeIndex)
    (position : Option Position) (type : ValueType) :
    (graph.addNode kind origin position type).2.nodes.toList.map (·.bare) =
      graph.nodes.toList.map (·.bare) ++ [.new 0 kind none position type] := by
  simp [addNode, ValueTables.addNode, ValueNode.new, ValueNode.bare]

theorem map_bare_addEdge (graph : ValueGraph) (edge : Edge) :
    (graph.addEdge edge).nodes.toList.map (·.bare) = graph.nodes.toList.map (·.bare) := by
  rw [nodes_addEdge]

end ValueGraph

namespace Walk

/-! ## What corresponds -/

/-- Two walks at the point from which on they go in step.  Some of the values that there are by
then may be shared. -/
structure Outset where
  one : Walk
  two : Walk
  shares : NodeId → NodeId → Prop
  known : ∀ {first second}, shares first second →
    first < one.graph.values.size ∧ second < two.graph.values.size
  unique : ∀ {first second other another}, shares first second → shares other another →
    (first = other ↔ second = another)

/-- What two walks in step have added by some point. -/
structure Stage where
  /-- The values without their origins. -/
  nodes : List ValueNode
  /-- How many scopes have been entered. -/
  scopes : Nat

namespace Stage

/-- Nothing has been added. -/
def initial : Stage :=
  ⟨[], 0⟩

/-- One stage comes before another. -/
structure Before (stage later : Stage) : Prop where
  nodes : stage.nodes <+: later.nodes
  scopes : stage.scopes ≤ later.scopes

theorem Before.refl (stage : Stage) : stage.Before stage :=
  ⟨List.prefix_rfl, Nat.le_refl _⟩

theorem Before.trans {first second third : Stage} (one : first.Before second)
    (two : second.Before third) : first.Before third :=
  ⟨one.nodes.trans two.nodes, Nat.le_trans one.scopes two.scopes⟩

/-- A value has been added. -/
def withNode (stage : Stage) (node : ValueNode) : Stage :=
  { stage with nodes := stage.nodes ++ [node] }

theorem before_withNode (stage : Stage) (node : ValueNode) : stage.Before (stage.withNode node) :=
  ⟨List.prefix_append _ _, Nat.le_refl _⟩

/-- A scope has been entered. -/
def withScope (stage : Stage) : Stage :=
  { stage with scopes := stage.scopes + 1 }

theorem before_withScope (stage : Stage) : stage.Before stage.withScope :=
  ⟨List.prefix_rfl, Nat.le_succ _⟩

end Stage

section

variable (outset : Outset) (stage : Stage)

/-- Two values correspond that are alike but for their origins: they are shared, or they have been
made at the same time. -/
inductive Twins (node : ValueNode) : NodeId → NodeId → Prop where
  | shared {first second : NodeId} {nodeOne nodeTwo : ValueNode} :
      outset.shares first second → outset.one.graph.values.node? first = some nodeOne →
      outset.two.graph.values.node? second = some nodeTwo → nodeOne.bare = node →
      nodeTwo.bare = node → Twins node first second
  | made {place : Nat} : stage.nodes[place]? = some node →
      Twins node (outset.one.graph.values.size + place) (outset.two.graph.values.size + place)

/-- Two values correspond. -/
def Paired (first second : NodeId) : Prop :=
  ∃ node, Twins outset stage node first second

/-- Two values correspond that something may flow into. -/
def Receivers (first second : NodeId) : Prop :=
  ∃ node, Twins outset stage node first second ∧ node.kind ≠ .parameter

/-- Two scopes correspond: they are those where the walks began, or they have been entered at the
same time. -/
inductive PairedScopes : Nat → Nat → Prop where
  | outer : PairedScopes outset.one.scope outset.two.scope
  | entered {place : Nat} : place < stage.scopes →
      PairedScopes (outset.one.scopeCount + 1 + place) (outset.two.scopeCount + 1 + place)

/-- Two variables of one name correspond. -/
structure PairedKeys (first second : VarKey) : Prop where
  scopes : PairedScopes outset stage first.scope second.scope
  name_eq : first.name = second.name

/-- Two value nodes of variables correspond. -/
structure PairedMentions (first second : NodeId × VarKey) : Prop where
  value : Paired outset stage first.1 second.1
  key : PairedKeys outset stage first.2 second.2

/-- Two flows into variables correspond. -/
structure PairedFlows (first second : VarKey × NodeId) : Prop where
  key : PairedKeys outset stage first.1 second.1
  value : Paired outset stage first.2 second.2

/-- Two allocations correspond, with the scopes that make them. -/
structure PairedSites (first second : NodeId × Nat) : Prop where
  node : Paired outset stage first.1 second.1
  scope : PairedScopes outset stage first.2 second.2

/-- Two edges correspond. -/
structure PairedEdges (first second : Edge) : Prop where
  source : Paired outset stage first.source second.source
  target : Receivers outset stage first.target second.target
  kind_eq : first.kind = second.kind

structure PairedSinks (first second : Sink) : Prop where
  value : Paired outset stage first.value second.value
  target : Receivers outset stage first.target second.target
  kind_eq : first.kind = second.kind
  reason_eq : first.reason = second.reason
  position_eq : first.position = second.position

structure PairedAccesses (first second : Access) : Prop where
  base : Paired outset stage first.base second.base
  node : Receivers outset stage first.node second.node
  field_eq : first.field = second.field
  type_eq : first.type = second.type

end

section

variable {outset : Outset} {stage later : Stage} {node other : ValueNode}
  {first second third fourth : NodeId}

theorem Twins.mono (twins : Twins outset stage node first second) (before : stage.Before later) :
    Twins outset later node first second := by
  cases twins with
  | shared shares foundOne foundTwo bareOne bareTwo =>
      exact .shared shares foundOne foundTwo bareOne bareTwo
  | @made place found =>
      have known := (List.getElem?_eq_some_iff.1 found).1
      refine .made ?_
      rw [List.prefix_iff_getElem?.1 before.nodes place known, ← List.getElem?_eq_getElem known]
      exact found

theorem Twins.paired (twins : Twins outset stage node first second) :
    Paired outset stage first second :=
  ⟨node, twins⟩

theorem Paired.mono (paired : Paired outset stage first second) (before : stage.Before later) :
    Paired outset later first second :=
  paired.imp fun _ twins => twins.mono before

theorem Receivers.mono (receivers : Receivers outset stage first second)
    (before : stage.Before later) : Receivers outset later first second :=
  receivers.imp fun _ known => ⟨known.1.mono before, known.2⟩

theorem Receivers.paired (receivers : Receivers outset stage first second) :
    Paired outset stage first second :=
  receivers.imp fun _ => And.left

theorem PairedScopes.mono {one two : Nat} (paired : PairedScopes outset stage one two)
    (before : stage.Before later) : PairedScopes outset later one two := by
  cases paired with
  | outer => exact .outer
  | entered known => exact .entered (Nat.lt_of_lt_of_le known before.scopes)

theorem PairedKeys.mono {one two : VarKey} (paired : PairedKeys outset stage one two)
    (before : stage.Before later) : PairedKeys outset later one two :=
  ⟨paired.scopes.mono before, paired.name_eq⟩

theorem PairedEdges.mono {one two : Edge} (paired : PairedEdges outset stage one two)
    (before : stage.Before later) : PairedEdges outset later one two :=
  ⟨paired.source.mono before, paired.target.mono before, paired.kind_eq⟩

theorem PairedSinks.mono {one two : Sink} (paired : PairedSinks outset stage one two)
    (before : stage.Before later) : PairedSinks outset later one two :=
  ⟨paired.value.mono before, paired.target.mono before, paired.kind_eq, paired.reason_eq,
    paired.position_eq⟩

theorem PairedAccesses.mono {one two : Access} (paired : PairedAccesses outset stage one two)
    (before : stage.Before later) : PairedAccesses outset later one two :=
  ⟨paired.base.mono before, paired.node.mono before, paired.field_eq, paired.type_eq⟩

/-- A value corresponds to one other value. -/
theorem Twins.unique (one : Twins outset stage node first second)
    (two : Twins outset stage other third fourth) : first = third ↔ second = fourth := by
  cases one with
  | shared shares foundOne foundTwo =>
      cases two with
      | shared others => exact outset.unique shares others
      | made =>
          obtain ⟨knownOne, knownTwo⟩ := outset.known shares
          exact iff_of_false (Nat.ne_of_lt (Nat.lt_add_right _ knownOne))
            (Nat.ne_of_lt (Nat.lt_add_right _ knownTwo))
  | made =>
      cases two with
      | shared shares =>
          obtain ⟨knownOne, knownTwo⟩ := outset.known shares
          exact iff_of_false (Nat.ne_of_gt (Nat.lt_add_right _ knownOne))
            (Nat.ne_of_gt (Nat.lt_add_right _ knownTwo))
      | made => rw [Nat.add_left_cancel_iff, Nat.add_left_cancel_iff]

theorem Paired.unique (one : Paired outset stage first second)
    (two : Paired outset stage third fourth) : first = third ↔ second = fourth := by
  obtain ⟨_, one⟩ := one
  obtain ⟨_, two⟩ := two
  exact one.unique two

end

/-! ## Walks in step -/

/-- Lists have grown by items that correspond, in order. -/
structure Added {α : Type} (corresponds : α → α → Prop) (startOne startTwo one two : List α) :
    Prop where
  exists_added : ∃ more others, one = startOne ++ more ∧ two = startTwo ++ others ∧
    List.Forall₂ corresponds more others

section

variable {α : Type} {corresponds weaker : α → α → Prop} {startOne startTwo one two : List α}

theorem Added.refl (corresponds : α → α → Prop) (startOne startTwo : List α) :
    Added corresponds startOne startTwo startOne startTwo :=
  ⟨[], [], by simp, by simp, .nil⟩

theorem Added.mono (added : Added corresponds startOne startTwo one two)
    (enough : ∀ first second, corresponds first second → weaker first second) :
    Added weaker startOne startTwo one two := by
  obtain ⟨more, others, oneEq, twoEq, all⟩ := added
  exact ⟨more, others, oneEq, twoEq, all.imp enough⟩

theorem Added.concat (added : Added corresponds startOne startTwo one two) {first second : α}
    (corresponding : corresponds first second) :
    Added corresponds startOne startTwo (one ++ [first]) (two ++ [second]) := by
  obtain ⟨more, others, rfl, rfl, all⟩ := added
  exact ⟨more ++ [first], others ++ [second], by simp, by simp,
    List.rel_append all (.cons corresponding .nil)⟩

theorem Added.push {arrayOne arrayTwo : Array α}
    (added : Added corresponds startOne startTwo arrayOne.toList arrayTwo.toList)
    {first second : α} (corresponding : corresponds first second) :
    Added corresponds startOne startTwo (arrayOne.push first).toList
      (arrayTwo.push second).toList := by
  rw [Array.toList_push, Array.toList_push]
  exact added.concat corresponding

end

/-- The scopes that two walks are in, and the bindings that they have put aside. -/
structure Frame where
  scopeOne : Nat
  scopeTwo : Nat
  savedOne : List Bindings
  savedTwo : List Bindings

/-- A record that a new site gets. -/
def IsSiteRecord (config : Config) (node : NodeId) (record : EscapeRecord) : Prop :=
  ∃ objectType className position count,
    record = Walker.siteRecord config node objectType className position count

/-- Two sites have the same record, but for their nodes. -/
def PairedRecords (config : Config) (first second : NodeId) (one two : Option EscapeRecord) :
    Prop :=
  one = none ∧ two = none ∨ ∃ objectType className position count,
    one = some (Walker.siteRecord config first objectType className position count) ∧
      two = some (Walker.siteRecord config second objectType className position count)

/-- Values that may be there correspond. -/
abbrev PairedResults (outset : Outset) (stage : Stage) : Option NodeId → Option NodeId → Prop :=
  Option.Rel (Paired outset stage)

theorem PairedResults.mono {outset : Outset} {stage later : Stage} {first second : Option NodeId}
    (related : PairedResults outset stage first second) (before : stage.Before later) :
    PairedResults outset later first second := by
  cases related with
  | some paired => exact .some (paired.mono before)
  | none => exact .none

/-- What two walks in step have noted since they began. -/
structure Noted (outset : Outset) (stage : Stage) (one two : Walk) : Prop where
  mentions : Added (PairedMentions outset stage) outset.one.mentions.toList
    outset.two.mentions.toList one.mentions.toList two.mentions.toList
  flows : Added (PairedFlows outset stage) outset.one.flows.toList outset.two.flows.toList
    one.flows.toList two.flows.toList
  sinks : Added (PairedSinks outset stage) outset.one.sinks.toList outset.two.sinks.toList
    one.sinks.toList two.sinks.toList
  accesses : Added (PairedAccesses outset stage) outset.one.accesses.toList
    outset.two.accesses.toList one.accesses.toList two.accesses.toList
  sites : Added (PairedSites outset stage) outset.one.sites.toList outset.two.sites.toList
    one.sites.toList two.sites.toList
  truncated : Added (PairedScopes outset stage) outset.one.truncated.reverse
    outset.two.truncated.reverse one.truncated.reverse two.truncated.reverse

theorem Noted.mono {outset : Outset} {stage later : Stage} {one two : Walk}
    (noted : Noted outset stage one two) (before : stage.Before later) :
    Noted outset later one two where
  mentions := noted.mentions.mono fun _ _ paired =>
    ⟨paired.value.mono before, paired.key.mono before⟩
  flows := noted.flows.mono fun _ _ paired => ⟨paired.key.mono before, paired.value.mono before⟩
  sinks := noted.sinks.mono fun _ _ paired => paired.mono before
  accesses := noted.accesses.mono fun _ _ paired => paired.mono before
  sites := noted.sites.mono fun _ _ paired => ⟨paired.node.mono before, paired.scope.mono before⟩
  truncated := noted.truncated.mono fun _ _ paired => paired.mono before

/-- Two walks have gone in step. -/
structure InStep (config : Config) (outset : Outset) (frame : Frame) (stage : Stage)
    (one two : Walk) : Prop where
  nodes_one : one.graph.values.nodes.toList.map (·.bare) =
    outset.one.graph.values.nodes.toList.map (·.bare) ++ stage.nodes
  nodes_two : two.graph.values.nodes.toList.map (·.bare) =
    outset.two.graph.values.nodes.toList.map (·.bare) ++ stage.nodes
  known_one : one.graph.values.EdgesKnown
  known_two : two.graph.values.EdgesKnown
  edge_iff : ∀ {source target other another}, Paired outset stage source other →
    Paired outset stage target another → ∀ kind,
      (⟨source, target, kind⟩ ∈ one.graph.values.edges ↔
        ⟨other, another, kind⟩ ∈ two.graph.values.edges)
  edges_one : ∀ edge ∈ one.graph.values.edges, edge ∈ outset.one.graph.values.edges ∨
    ∃ other, PairedEdges outset stage edge other
  edges_two : ∀ edge ∈ two.graph.values.edges, edge ∈ outset.two.graph.values.edges ∨
    ∃ other, PairedEdges outset stage other edge
  kept_one : ∀ edge ∈ outset.one.graph.values.edges, edge ∈ one.graph.values.edges
  kept_two : ∀ edge ∈ outset.two.graph.values.edges, edge ∈ two.graph.values.edges
  records_one : ∀ id < outset.one.graph.values.size,
    one.records.find? id = outset.one.records.find? id
  records_two : ∀ id < outset.two.graph.values.size,
    two.records.find? id = outset.two.records.find? id
  records : ∀ place, PairedRecords config (outset.one.graph.values.size + place)
    (outset.two.graph.values.size + place)
    (one.records.find? (outset.one.graph.values.size + place))
    (two.records.find? (outset.two.graph.values.size + place))
  bindings : ∀ name, PairedResults outset stage (one.graph.scopes.find? name)
    (two.graph.scopes.find? name)
  phis_one : one.graph.flow.phis = #[]
  phis_two : two.graph.flow.phis = #[]
  saved_one : one.graph.scopes.saved = frame.savedOne
  saved_two : two.graph.scopes.saved = frame.savedTwo
  scope_one : one.scope = frame.scopeOne
  scope_two : two.scope = frame.scopeTwo
  scopes : PairedScopes outset stage frame.scopeOne frame.scopeTwo
  scopeCount_one : one.scopeCount = outset.one.scopeCount + stage.scopes
  scopeCount_two : two.scopeCount = outset.two.scopeCount + stage.scopes
  noted : Noted outset stage one two

section

variable {config : Config} {outset : Outset} {frame : Frame} {stage later : Stage}
  {one two : Walk} {node : ValueNode} {first second : NodeId}

theorem InStep.size_one (inStep : InStep config outset frame stage one two) :
    one.graph.values.size = outset.one.graph.values.size + stage.nodes.length := by
  simpa [ValueGraph.size] using congrArg List.length inStep.nodes_one

theorem InStep.size_two (inStep : InStep config outset frame stage one two) :
    two.graph.values.size = outset.two.graph.values.size + stage.nodes.length := by
  simpa [ValueGraph.size] using congrArg List.length inStep.nodes_two

/-- Values that correspond are alike but for their origins. -/
theorem InStep.bare_eq (inStep : InStep config outset frame stage one two)
    (twins : Twins outset stage node first second) :
    (one.graph.values.node? first).map (·.bare) = some node ∧
      (two.graph.values.node? second).map (·.bare) = some node := by
  have bareOne := congrArg (·[first]?) inStep.nodes_one
  have bareTwo := congrArg (·[second]?) inStep.nodes_two
  simp only [List.getElem?_map, Array.getElem?_toList] at bareOne bareTwo
  rw [ValueGraph.node?, ValueGraph.node?, bareOne, bareTwo]
  cases twins with
  | shared shares foundOne foundTwo bareOne bareTwo =>
      obtain ⟨knownOne, knownTwo⟩ := outset.known shares
      rw [ValueGraph.node?] at foundOne foundTwo
      rw [List.getElem?_append_left (by simpa [ValueGraph.size] using knownOne),
        List.getElem?_append_left (by simpa [ValueGraph.size] using knownTwo)]
      simp [foundOne, foundTwo, bareOne, bareTwo]
  | made found =>
      rw [List.getElem?_append_right (by simp [ValueGraph.size]),
        List.getElem?_append_right (by simp [ValueGraph.size])]
      simpa [ValueGraph.size] using found

theorem InStep.kind?_eq (inStep : InStep config outset frame stage one two)
    (twins : Twins outset stage node first second) :
    one.kind? first = some node.kind ∧ two.kind? second = some node.kind := by
  obtain ⟨bareOne, bareTwo⟩ := inStep.bare_eq twins
  obtain ⟨nodeOne, foundOne, rfl⟩ := Option.map_eq_some_iff.1 bareOne
  obtain ⟨nodeTwo, foundTwo, same⟩ := Option.map_eq_some_iff.1 bareTwo
  have kinds : nodeTwo.bare.kind = nodeOne.bare.kind := congrArg ValueNode.kind same
  simp only [ValueNode.bare] at kinds
  simp [kind?, ValueGraph.kind?, foundOne, foundTwo, ValueNode.bare, kinds]

theorem InStep.lt (inStep : InStep config outset frame stage one two)
    (paired : Paired outset stage first second) :
    first < one.graph.values.size ∧ second < two.graph.values.size := by
  obtain ⟨node, twins⟩ := paired
  obtain ⟨kindOne, kindTwo⟩ := inStep.kind?_eq twins
  exact ⟨Walker.kind?_lt kindOne, Walker.kind?_lt kindTwo⟩

/-- A walk without control flow and figures.  Phis are kept: a walk never makes any. -/
def core (walk : Walk) : Walk :=
  { walk with
    graph := { walk.graph with flow := { ControlFlow.empty with phis := walk.graph.flow.phis } }
    block := 0
    functions := 0
    skipped := 0 }

/-- Control flow does not matter for going in step. -/
theorem InStep.congr {other another : Walk} (inStep : InStep config outset frame stage one two)
    (sameOne : other.core = one.core) (sameTwo : another.core = two.core) :
    InStep config outset frame stage other another := by
  have cores : InStep config outset frame stage other.core another.core := by
    rw [sameOne, sameTwo]
    exact { inStep with noted := { inStep.noted with } }
  exact { cores with noted := { cores.noted with } }

end

end Walk

namespace Walker

open Walk

variable {α β γ δ : Type} {config : Config} {outset : Outset} {frame : Frame} {stage : Stage}

/-! ## Actions in step -/

/-- Two actions keep walks in step, and something holds of their results. -/
def Lockstep (config : Config) (outset : Outset) (frame : Frame) (stage : Stage)
    (action : Walker α) (twin : Walker β) (holds : Stage → α → β → Prop) : Prop :=
  ∀ one two, InStep config outset frame stage one two → ∃ later, stage.Before later ∧
    InStep config outset frame later (action one).2 (twin two).2 ∧
      holds later (action one).1 (twin two).1

theorem Lockstep.pure {holds : Stage → α → β → Prop} {value : α} {other : β}
    (holdsValue : holds stage value other) :
    Lockstep config outset frame stage (pure value) (pure other) holds :=
  fun _ _ inStep => ⟨stage, .refl stage, inStep, holdsValue⟩

theorem Lockstep.bind {action : Walker α} {twin : Walker β} {next : α → Walker γ}
    {nextTwin : β → Walker δ} {found : Stage → α → β → Prop} {holds : Stage → γ → δ → Prop}
    (first : Lockstep config outset frame stage action twin found)
    (rest : ∀ later value other, stage.Before later → found later value other →
      Lockstep config outset frame later (next value) (nextTwin other) holds) :
    Lockstep config outset frame stage (action >>= next) (twin >>= nextTwin) holds := by
  intro one two inStep
  obtain ⟨middle, before, inStepMiddle, foundValue⟩ := first one two inStep
  obtain ⟨later, after, inStepLater, holdsValue⟩ :=
    rest middle _ _ before foundValue _ _ inStepMiddle
  exact ⟨later, before.trans after, inStepLater, holdsValue⟩

theorem Lockstep.imp {action : Walker α} {twin : Walker β} {found holds : Stage → α → β → Prop}
    (lockstep : Lockstep config outset frame stage action twin found)
    (enough : ∀ later value other, found later value other → holds later value other) :
    Lockstep config outset frame stage action twin holds := by
  intro one two inStep
  obtain ⟨later, before, inStepLater, foundValue⟩ := lockstep one two inStep
  exact ⟨later, before, inStepLater, enough _ _ _ foundValue⟩

theorem Lockstep.map {action : Walker α} {twin : Walker β} {change : α → γ} {changeTwin : β → δ}
    {holds : Stage → γ → δ → Prop}
    (lockstep : Lockstep config outset frame stage action twin fun later value other =>
      holds later (change value) (changeTwin other)) :
    Lockstep config outset frame stage (change <$> action) (changeTwin <$> twin) holds :=
  lockstep

/-- Both actions may look at their walks. -/
theorem Lockstep.get {next : Walk → Walker α} {nextTwin : Walk → Walker β}
    {holds : Stage → α → β → Prop}
    (rest : ∀ one two, InStep config outset frame stage one two →
      Lockstep config outset frame stage (next one) (nextTwin two) holds) :
    Lockstep config outset frame stage (get >>= next) (get >>= nextTwin) holds :=
  fun one two inStep => rest one two inStep one two inStep

/-- An action changes nothing but control flow. -/
def Quiet (action : Walker α) : Prop :=
  ∀ walk, (action walk).2.core = walk.core

theorem Quiet.pure (value : α) : Quiet (pure value) :=
  fun _ => rfl

theorem Quiet.bind {action : Walker α} {next : α → Walker β} (first : Quiet action)
    (rest : ∀ value, Quiet (next value)) : Quiet (action >>= next) :=
  fun walk => (rest _ _).trans (first walk)

theorem quiet_currentBlock : Quiet currentBlock :=
  fun _ => rfl

theorem quiet_newBlock : Quiet newBlock :=
  fun _ => rfl

theorem quiet_newRegion : Quiet newRegion :=
  fun _ => rfl

theorem quiet_moveTo (block : BlockId) : Quiet (moveTo block) :=
  fun _ => rfl

theorem quiet_recordDefinition (block : BlockId) (var : VarId) (node : NodeId) :
    Quiet (modifyFlow (·.recordDefinition block var node)) :=
  fun _ => rfl

theorem quiet_connect (source target : BlockId) : Quiet (connect source target) := by
  intro walk
  have phis : (walk.graph.flow.addEdge source target).phis = walk.graph.flow.phis := by
    unfold ControlFlow.addEdge
    split <;> rfl
  show core { walk with
    graph := { walk.graph with flow := walk.graph.flow.addEdge source target } } = walk.core
  rw [core, phis]
  rfl

theorem quiet_skip : Quiet skip :=
  fun _ => rfl

theorem quiet_branchFrom (source : BlockId) : Quiet (branchFrom source) :=
  quiet_newBlock.bind fun _ => (quiet_connect _ _).bind fun _ =>
    (quiet_moveTo _).bind fun _ => .pure _

theorem quiet_leaveControl : Quiet leaveControl :=
  quiet_newBlock.bind fun _ => quiet_moveTo _

theorem Quiet.lockstep {action : Walker α} {twin : Walker β} (one : Quiet action)
    (two : Quiet twin) :
    Lockstep config outset frame stage action twin fun _ _ _ => True :=
  fun first second inStep =>
    ⟨stage, .refl stage, inStep.congr (one first) (two second), trivial⟩

/-- Quiet actions may be passed over. -/
theorem Quiet.lockstepBind {action : Walker α} {twin : Walker β} {next : α → Walker γ}
    {nextTwin : β → Walker δ} {holds : Stage → γ → δ → Prop} (one : Quiet action)
    (two : Quiet twin)
    (rest : ∀ value other, Lockstep config outset frame stage (next value) (nextTwin other) holds) :
    Lockstep config outset frame stage (action >>= next) (twin >>= nextTwin) holds := by
  intro first second inStep
  exact rest _ _ _ _ (inStep.congr (one first) (two second))

/-! ## Values and edges -/

/-- A new value is the twin of a new value. -/
theorem of_twins_withNode {one two : Walk} (inStep : InStep config outset frame stage one two)
    {added node : ValueNode} {first second : NodeId}
    (twins : Twins outset (stage.withNode added) node first second) :
    Twins outset stage node first second ∨
      first = one.graph.values.size ∧ second = two.graph.values.size := by
  cases twins with
  | shared shares foundOne foundTwo bareOne bareTwo =>
      exact .inl (.shared shares foundOne foundTwo bareOne bareTwo)
  | @made place found =>
      rw [Stage.withNode, List.getElem?_append] at found
      split at found
      next => exact .inl (.made found)
      next beyond =>
        have known := (List.getElem?_eq_some_iff.1 found).1
        rw [List.length_singleton] at known
        have last : place = stage.nodes.length := by omega
        subst last
        exact .inr ⟨inStep.size_one.symm, inStep.size_two.symm⟩

theorem edge_iff_addNode {one two : Walk} (inStep : InStep config outset frame stage one two)
    {added : ValueNode} {source target other another : NodeId}
    (sources : Paired outset (stage.withNode added) source other)
    (targets : Paired outset (stage.withNode added) target another) (kind : EdgeKind) :
    ⟨source, target, kind⟩ ∈ one.graph.values.edges ↔
      ⟨other, another, kind⟩ ∈ two.graph.values.edges := by
  have absentOne : ∀ edge ∈ one.graph.values.edges,
      edge.source ≠ one.graph.values.size ∧ edge.target ≠ one.graph.values.size :=
    fun edge listed => (inStep.known_one edge (Array.mem_toList_iff.2 listed)).imp Nat.ne_of_lt Nat.ne_of_lt
  have absentTwo : ∀ edge ∈ two.graph.values.edges,
      edge.source ≠ two.graph.values.size ∧ edge.target ≠ two.graph.values.size :=
    fun edge listed => (inStep.known_two edge (Array.mem_toList_iff.2 listed)).imp Nat.ne_of_lt Nat.ne_of_lt
  obtain ⟨_, sources⟩ := sources
  obtain ⟨_, targets⟩ := targets
  rcases of_twins_withNode inStep sources with sources | ⟨rfl, rfl⟩
  · rcases of_twins_withNode inStep targets with targets | ⟨rfl, rfl⟩
    · exact inStep.edge_iff sources.paired targets.paired kind
    · exact iff_of_false (fun listed => (absentOne _ listed).2 rfl)
        fun listed => (absentTwo _ listed).2 rfl
  · exact iff_of_false (fun listed => (absentOne _ listed).1 rfl)
      fun listed => (absentTwo _ listed).1 rfl

theorem lockstep_addNode (kind : NodeKind) (origin other : Option NodeIndex)
    (position : Option Position) (type : ValueType) :
    Lockstep config outset frame stage (addNode kind origin position type)
      (addNode kind other position type)
      fun later id twin =>
        Twins outset later (.new 0 kind none position type) id twin := by
  intro one two inStep
  let added : ValueNode := .new 0 kind none position type
  have before := stage.before_withNode added
  refine ⟨stage.withNode added, before, ?_, ?_⟩
  · refine { inStep with
      nodes_one := ?_
      nodes_two := ?_
      known_one := inStep.known_one.addNode kind origin position type
      known_two := inStep.known_two.addNode kind other position type
      edge_iff := fun sources targets => edge_iff_addNode inStep sources targets
      edges_one := ?_
      edges_two := ?_
      bindings := fun name => PairedResults.mono (inStep.bindings name) before
      scopes := inStep.scopes.mono before
      noted := { inStep.noted.mono before with } }
    · refine (ValueGraph.map_bare_addNode _ kind origin position type).trans ?_
      rw [inStep.nodes_one, List.append_assoc]
      rfl
    · refine (ValueGraph.map_bare_addNode _ kind other position type).trans ?_
      rw [inStep.nodes_two, List.append_assoc]
      rfl
    · exact fun edge listed => (inStep.edges_one edge listed).imp_right fun ⟨other, paired⟩ =>
        ⟨other, paired.mono before⟩
    · exact fun edge listed => (inStep.edges_two edge listed).imp_right fun ⟨other, paired⟩ =>
        ⟨other, paired.mono before⟩
  · show Twins outset _ added one.graph.values.size two.graph.values.size
    rw [inStep.size_one, inStep.size_two]
    exact .made (by simp [Stage.withNode])

/-- Anything but a parameter may receive values. -/
theorem lockstep_addReceiver (kind : NodeKind) (origin other : Option NodeIndex)
    (position : Option Position) (type : ValueType) (receives : kind ≠ .parameter) :
    Lockstep config outset frame stage (addNode kind origin position type)
      (addNode kind other position type) fun later id twin => Receivers outset later id twin :=
  (lockstep_addNode kind origin other position type).imp fun _ _ _ twins => ⟨_, twins, receives⟩

theorem lockstep_addEdge {source target other another : NodeId} (kind : EdgeKind)
    (sources : Paired outset stage source other) (targets : Receivers outset stage target another) :
    Lockstep config outset frame stage (addEdge source target kind) (addEdge other another kind)
      fun _ _ _ => True := by
  intro one two inStep
  obtain ⟨sourceOne, sourceTwo⟩ := inStep.lt sources
  obtain ⟨targetOne, targetTwo⟩ := inStep.lt targets.paired
  have oneIff := fun edge =>
    @ValueGraph.mem_addEdge_iff one.graph.values ⟨source, target, kind⟩ edge sourceOne targetOne
  have twoIff := fun edge =>
    @ValueGraph.mem_addEdge_iff two.graph.values ⟨other, another, kind⟩ edge sourceTwo targetTwo
  have added : PairedEdges outset stage ⟨source, target, kind⟩ ⟨other, another, kind⟩ :=
    ⟨sources, targets, rfl⟩
  refine ⟨stage, .refl stage, ?_, trivial⟩
  refine { inStep with
    nodes_one := (ValueGraph.map_bare_addEdge _ _).trans inStep.nodes_one
    nodes_two := (ValueGraph.map_bare_addEdge _ _).trans inStep.nodes_two
    known_one := inStep.known_one.addEdge _
    known_two := inStep.known_two.addEdge _
    edge_iff := fun {first second third fourth} pairedSources pairedTargets edgeKind => ?_
    edges_one := fun edge listed => ?_
    edges_two := fun edge listed => ?_
    kept_one := fun edge listed => ValueGraph.mem_edges_addEdge (inStep.kept_one edge listed)
    kept_two := fun edge listed => ValueGraph.mem_edges_addEdge (inStep.kept_two edge listed)
    noted := { inStep.noted with } }
  · have same : (⟨first, second, edgeKind⟩ : Edge) = ⟨source, target, kind⟩ ↔
        (⟨third, fourth, edgeKind⟩ : Edge) = ⟨other, another, kind⟩ := by
      rw [Edge.mk.injEq, Edge.mk.injEq, pairedSources.unique sources,
        pairedTargets.unique targets.paired]
    exact (oneIff _).trans
      ((or_congr (inStep.edge_iff pairedSources pairedTargets edgeKind) same).trans (twoIff _).symm)
  · rcases (oneIff edge).1 listed with old | rfl
    · exact inStep.edges_one edge old
    · exact .inr ⟨_, added⟩
  · rcases (twoIff edge).1 listed with old | rfl
    · exact inStep.edges_two edge old
    · exact .inr ⟨_, added⟩

theorem lockstep_addUse {value target other another : NodeId}
    (values : Paired outset stage value other) (targets : Receivers outset stage target another) :
    Lockstep config outset frame stage (addUse value target) (addUse other another)
      fun _ _ _ => True := by
  apply Lockstep.get
  intro one two inStep
  obtain ⟨node, twins⟩ := values
  obtain ⟨kindOne, kindTwo⟩ := inStep.kind?_eq twins
  rw [kindOne, kindTwo]
  split
  next => exact lockstep_addEdge .defUse twins.paired targets
  next => exact .pure trivial

/-! ## Notes -/

theorem lockstep_truncate :
    Lockstep config outset frame stage truncate truncate fun _ _ _ => True := by
  intro one two inStep
  have scopes : PairedScopes outset stage one.scope two.scope := by
    rw [inStep.scope_one, inStep.scope_two]
    exact inStep.scopes
  refine ⟨stage, .refl stage,
    { inStep with noted := { inStep.noted with truncated := ?_ } }, trivial⟩
  show Added _ _ _ (one.scope :: one.truncated).reverse (two.scope :: two.truncated).reverse
  rw [List.reverse_cons, List.reverse_cons]
  exact inStep.noted.truncated.concat scopes

theorem lockstep_addFlow {key another : VarKey} {value other : NodeId}
    (keys : PairedKeys outset stage key another) (values : Paired outset stage value other) :
    Lockstep config outset frame stage (addFlow key value) (addFlow another other)
      fun _ _ _ => True := by
  intro one two inStep
  refine ⟨stage, .refl stage, { inStep with noted := { inStep.noted with flows := ?_ } }, trivial⟩
  exact inStep.noted.flows.push ⟨keys, values⟩

theorem lockstep_addSink {value target other another : NodeId} (kind : EdgeKind)
    (reason : EscapeReason) (position : Option Position) (values : Paired outset stage value other)
    (targets : Receivers outset stage target another) :
    Lockstep config outset frame stage (addSink value target kind reason position)
      (addSink other another kind reason position) fun _ _ _ => True := by
  apply (lockstep_addUse values targets).bind
  intro later _ _ before _ one two inStep
  refine ⟨later, .refl later, { inStep with noted := { inStep.noted with sinks := ?_ } }, trivial⟩
  exact inStep.noted.sinks.push ⟨values.mono before, targets.mono before, rfl, rfl, rfl⟩

theorem lockstep_addAccess {base node other another : NodeId} (field : Option String)
    (type : ValueType) (bases : Paired outset stage base other)
    (nodes : Receivers outset stage node another) :
    Lockstep config outset frame stage (addAccess base node field type)
      (addAccess other another field type) fun _ _ _ => True := by
  apply (lockstep_addUse bases nodes).bind
  intro later _ _ before _ one two inStep
  refine ⟨later, .refl later,
    { inStep with noted := { inStep.noted with accesses := ?_ } }, trivial⟩
  exact inStep.noted.accesses.push ⟨bases.mono before, nodes.mono before, rfl, rfl⟩

theorem lockstep_passToUnknown {value other : NodeId} (origin another : Option NodeIndex)
    (position : Option Position) (values : Paired outset stage value other) :
    Lockstep config outset frame stage (passToUnknown value origin position)
      (passToUnknown other another position) fun _ _ _ => True := by
  apply (lockstep_addReceiver .callArg origin another position .unknown nofun).bind
  intro later arg twin before receivers
  exact lockstep_addSink .defUse .passedToUnknown position (values.mono before) receivers

/-- Sites get the same records, but for their nodes. -/
theorem lockstep_addAllocation (origin other : NodeIndex) (position : Option Position)
    (objectType : ObjectType) (className : Option String) (count : Nat) :
    Lockstep config outset frame stage
      (addAllocation config origin position objectType className count)
      (addAllocation config other position objectType className count)
      fun later id twin => Receivers outset later id twin := by
  intro one two inStep
  obtain ⟨later, before, inStepLater, twins⟩ :=
    lockstep_addNode .allocation (some origin) (some other) position (allocatedType objectType)
      one two inStep
  rw [addAllocation_eq, addAllocation_eq]
  have recordOne := node_siteRecord config one.graph.values.size objectType className position count
  have recordTwo := node_siteRecord config two.graph.values.size objectType className position count
  have sizeOne := inStep.size_one
  have sizeTwo := inStep.size_two
  have receivers : Receivers outset later one.graph.values.size two.graph.values.size :=
    ⟨_, twins, by simp [ValueNode.new]⟩
  have scopes : PairedScopes outset later one.scope two.scope := by
    rw [inStep.scope_one, inStep.scope_two]
    exact inStep.scopes.mono before
  refine ⟨later, before, { inStepLater with
    records_one := fun id known => ?_
    records_two := fun id known => ?_
    records := fun place => ?_
    noted := { inStepLater.noted with sites := ?_ } }, receivers⟩
  · rw [noteSite, recordOne, Table.find?_insert, if_neg (by omega)]
    exact inStepLater.records_one id known
  · rw [noteSite, recordTwo, Table.find?_insert, if_neg (by omega)]
    exact inStepLater.records_two id known
  · rw [noteSite, noteSite, recordOne, recordTwo, Table.find?_insert, Table.find?_insert, sizeOne,
      sizeTwo]
    by_cases last : place = stage.nodes.length
    · subst last
      rw [if_pos rfl, if_pos rfl]
      exact .inr ⟨objectType, className, position, count, rfl, rfl⟩
    · rw [if_neg fun same => last (Nat.add_left_cancel same),
        if_neg fun same => last (Nat.add_left_cancel same)]
      exact inStepLater.records place
  · refine inStepLater.noted.sites.push ?_
    rw [recordOne, recordTwo]
    exact ⟨receivers.paired, scopes⟩

/-! ## Names -/

theorem lockstep_bind (name : StrId) {id twin : NodeId} (paired : Paired outset stage id twin) :
    Lockstep config outset frame stage (modifyScopes (·.bind name id))
      (modifyScopes (·.bind name twin)) fun _ _ _ => True := by
  intro one two inStep
  refine ⟨stage, .refl stage, { inStep with
    bindings := fun other => ?_
    noted := { inStep.noted with } }, trivial⟩
  show Option.Rel _ ((one.graph.scopes.bind name id).find? other)
    ((two.graph.scopes.bind name twin).find? other)
  rw [Scopes.find?_bind, Scopes.find?_bind]
  split
  next => exact .some paired
  next => exact inStep.bindings other

theorem lockstep_bindVariable (name : StrId) {id twin : NodeId}
    (paired : Paired outset stage id twin) :
    Lockstep config outset frame stage (bindVariable name id) (bindVariable name twin)
      fun later key other => PairedKeys outset later key other := by
  apply Lockstep.get
  intro one two inStep
  have keys : PairedKeys outset stage ⟨one.scope, name⟩ ⟨two.scope, name⟩ := by
    refine ⟨?_, rfl⟩
    rw [inStep.scope_one, inStep.scope_two]
    exact inStep.scopes
  have mentioned : Lockstep config outset frame stage
      (modify fun walk => { walk with mentions := walk.mentions.push (id, ⟨one.scope, name⟩) })
      (modify fun walk => { walk with mentions := walk.mentions.push (twin, ⟨two.scope, name⟩) })
      fun _ _ _ => True := by
    intro first second inStep
    refine ⟨stage, .refl stage, { inStep with noted := { inStep.noted with mentions := ?_ } },
      trivial⟩
    exact inStep.noted.mentions.push ⟨paired, keys⟩
  apply mentioned.bind
  intro middle _ _ before _
  apply (lockstep_bind name (paired.mono before)).bind
  intro later _ _ after _
  exact .pure (keys.mono (before.trans after))

theorem lockstep_defineVariable (name : StrId) {id twin : NodeId}
    (paired : Paired outset stage id twin) :
    Lockstep config outset frame stage (defineVariable name id) (defineVariable name twin)
      fun later key other => PairedKeys outset later key other := by
  apply (lockstep_bindVariable name paired).bind
  intro later key other before keys
  apply quiet_currentBlock.lockstepBind quiet_currentBlock
  intro block another
  apply (quiet_recordDefinition _ _ _).lockstepBind (quiet_recordDefinition _ _ _)
  intro _ _
  exact .pure keys

theorem lockstep_readVariable (name : StrId) (origin other : NodeIndex)
    (position : Option Position) :
    Lockstep config outset frame stage (readVariable name origin position)
      (readVariable name other position) fun later id twin => Paired outset later id twin := by
  apply Lockstep.get
  intro one two inStep
  have bound := inStep.bindings name
  cases foundOne : one.graph.scopes.find? name with
  | none =>
      rw [foundOne] at bound
      cases foundTwo : two.graph.scopes.find? name with
      | none =>
          apply (lockstep_addNode .localVar (some origin) (some other) position .unknown).bind
          intro middle id twin _ twins
          apply (lockstep_bindVariable name twins.paired).bind
          intro later _ _ before _
          exact .pure (twins.paired.mono before)
      | some twin =>
          rw [foundTwo] at bound
          nomatch bound
  | some id =>
      rw [foundOne] at bound
      cases foundTwo : two.graph.scopes.find? name with
      | none =>
          rw [foundTwo] at bound
          nomatch bound
      | some twin =>
          rw [foundTwo] at bound
          cases bound with
          | some paired => exact .pure paired

end Walker

end EscapePlan
