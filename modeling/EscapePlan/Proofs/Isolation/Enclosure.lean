import EscapePlan.Proofs.Isolation.Mirror

/-!
# A body among other code

A walk goes over what comes before a function body, over the body and over what comes after it.
Before, there are no values of the body yet; afterwards, no name is bound to any.  So what is noted
before and after concerns no value and no scope of the body, and bodies that two walks go over in
step are isolated.
-/

namespace EscapePlan

/-- A list that is noted before a body and afterwards holds nothing that is of account for the
body. -/
structure Surrounds {α : Type} (beside : α → Prop) (start inner final : List α) : Prop where
  before : ∀ item ∈ start, beside item
  after : ∃ more, final = inner ++ more ∧ ∀ item ∈ more, beside item

namespace Walk

open Walker (enterBody leaveBody)

theorem Added.surrounds {α : Type} {early late : α → α → Prop} {beside : α → Prop}
    {start inner final : List α} (before : Added early [] [] start start)
    (after : Added late inner inner final final)
    (earlyBeside : ∀ item, early item item → beside item)
    (lateBeside : ∀ item, late item item → beside item) : Surrounds beside start inner final := by
  obtain ⟨first, rfl, earlies⟩ := before.diagonal
  obtain ⟨more, finalEq, lates⟩ := after.diagonal
  exact ⟨fun item member => earlyBeside item (earlies item member), more, finalEq,
    fun item member => lateBeside item (lates item member)⟩

/-- What two lists have grown by corresponds, and what surrounds it is of no account. -/
theorem Added.mirror {α : Type} {corresponds : α → α → Prop} {besideOne besideTwo : α → Prop}
    {start startTwin inner innerTwin final finalTwin : List α}
    (added : Added corresponds start startTwin inner innerTwin)
    (one : Surrounds besideOne start inner final)
    (two : Surrounds besideTwo startTwin innerTwin finalTwin) :
    Mirror corresponds besideOne besideTwo final finalTwin := by
  obtain ⟨more, others, rfl, rfl, all⟩ := added
  obtain ⟨last, rfl, lastBeside⟩ := one.after
  obtain ⟨rest, rfl, restBeside⟩ := two.after
  exact ((Mirror.of_beside one.before two.before).append (.of_forall₂ all)).append
    (.of_beside lastBeside restBeside)

variable {config : Config} {outset other : Outset} {stage later : Stage} {frame : Frame}
  {one two : Walk}

/-! ## What lies outside -/

/-- Nothing that corresponds in one run lies inside of what corresponds in another. -/
structure Avoids (other : Outset) (later : Stage) (outset : Outset) (stage : Stage) : Prop where
  values : ∀ {first second}, Paired other later first second → ¬ Inner outset stage first
  scopes : ∀ {first second}, PairedScopes other later first second →
    ¬ InnerScope outset stage first

namespace Avoids

variable (avoids : Avoids other later outset stage)
include avoids

theorem mention {first second : NodeId × VarKey}
    (paired : PairedMentions other later first second) : BesideMention outset stage first := by
  constructor
  · simpa using avoids.values paired.value
  · simpa using avoids.scopes paired.key.scopes

theorem flow {first second : VarKey × NodeId} (paired : PairedFlows other later first second) :
    BesideFlow outset stage first := by
  constructor
  · simpa using avoids.values paired.value
  · simpa using avoids.scopes paired.key.scopes

theorem site {first second : NodeId × Nat} (paired : PairedSites other later first second) :
    BesideSite outset stage first := by
  constructor
  · simpa using avoids.values paired.node
  · simpa using avoids.scopes paired.scope

theorem sink {first second : Sink} (paired : PairedSinks other later first second) :
    BesideSink outset stage first := by
  refine ⟨?_, nofun⟩
  simpa using ⟨avoids.values paired.value, avoids.values paired.target.paired⟩

theorem access {first second : Access} (paired : PairedAccesses other later first second) :
    BesideAccess outset stage first := by
  refine ⟨?_, nofun⟩
  simpa using ⟨avoids.values paired.base, avoids.values paired.node.paired⟩

theorem edge {first second : Edge} (paired : PairedEdges other later first second) :
    BesideEdge outset stage first := by
  refine ⟨?_, nofun⟩
  simpa using ⟨avoids.values paired.source, avoids.values paired.target.paired⟩

end Avoids

/-! ## Bodies -/

theorem lt_of_inner {start twin : Walk} {id : NodeId}
    (inside : Inner (.apart (enterBody start) twin) stage id) :
    start.graph.values.size ≤ id ∧ id < start.graph.values.size + stage.nodes.length := by
  obtain ⟨_, _, twins⟩ := inside
  cases twins with
  | shared never => exact never.elim
  | made found =>
      exact ⟨Nat.le_add_right _ _, Nat.add_lt_add_left (List.getElem?_eq_some_iff.1 found).1 _⟩

theorem lt_of_innerScope {start twin : Walk} {scope : Nat}
    (inside : InnerScope (.apart (enterBody start) twin) stage scope) :
    start.scopeCount < scope ∧ scope ≤ start.scopeCount + 1 + stage.scopes := by
  obtain ⟨_, scopes⟩ := inside
  cases scopes with
  | outer => exact ⟨Nat.lt_succ_self _, Nat.le_add_right _ _⟩
  | @entered place known =>
      show start.scopeCount < start.scopeCount + 1 + 1 + place ∧
        start.scopeCount + 1 + 1 + place ≤ start.scopeCount + 1 + stage.scopes
      omega

theorem scopes_unique_enterBody {start twin : Walk} {first second third fourth : Nat}
    (paired : PairedScopes (.apart (enterBody start) (enterBody twin)) stage first second)
    (others : PairedScopes (.apart (enterBody start) (enterBody twin)) stage third fourth) :
    first = third ↔ second = fourth := by
  have scopes {one two : Nat}
      (paired : PairedScopes (.apart (enterBody start) (enterBody twin)) stage one two) :
      ∃ place, one = start.scopeCount + 1 + place ∧ two = twin.scopeCount + 1 + place := by
    cases paired with
    | outer => exact ⟨0, rfl, rfl⟩
    | @entered place _ => exact ⟨1 + place, Nat.add_assoc _ _ _, Nat.add_assoc _ _ _⟩
  obtain ⟨place, rfl, rfl⟩ := scopes paired
  obtain ⟨another, rfl, rfl⟩ := scopes others
  rw [Nat.add_left_cancel_iff, Nat.add_left_cancel_iff]

/-- What was there before a body lies outside. -/
theorem InStep.avoids_before {start : Walk}
    (early : InStep config (.diagonal initial fun _ => False) ⟨0, 0, [], []⟩ later start start)
    (twin : Walk) (stage : Stage) :
    Avoids (.diagonal initial fun _ => False) later (.apart (enterBody start) twin) stage where
  values paired inside :=
    absurd (early.lt paired).1 (Nat.not_lt_of_le (lt_of_inner inside).1)
  scopes paired inside := by
    have beyond := (lt_of_innerScope inside).1
    have count := early.scopeCount_one
    cases paired with
    | outer => exact Nat.not_lt_zero _ beyond
    | @entered place known =>
        have counted : start.scopeCount = 0 + later.scopes := count
        have entered : start.scopeCount < 0 + 1 + place := beyond
        omega

/-- What comes after a body lies outside if it shares no values of the body. -/
theorem avoids_after {start inner : Walk}
    (size : inner.graph.values.size = start.graph.values.size + stage.nodes.length)
    (scopeCount : inner.scopeCount = start.scopeCount + 1 + stage.scopes)
    (scope : start.scope ≤ start.scopeCount) (twin : Walk) (later : Stage) :
    Avoids (.diagonal (leaveBody start inner) (· < start.graph.values.size)) later
      (.apart (enterBody start) twin) stage where
  values paired inside := by
    obtain ⟨atLeast, below⟩ := lt_of_inner inside
    obtain ⟨_, twins⟩ := paired
    cases twins with
    | shared shares => exact absurd shares.2.2 (Nat.not_lt_of_le atLeast)
    | @made place _ =>
        have known : inner.graph.values.size + place < _ := below
        omega
  scopes paired inside := by
    obtain ⟨beyond, atMost⟩ := lt_of_innerScope inside
    cases paired with
    | outer => exact absurd scope (Nat.not_le_of_lt beyond)
    | @entered place _ =>
        have known : inner.scopeCount + 1 + place ≤ _ := atMost
        omega

/-- A walk has gone over a body, which the rest of it does not concern. -/
structure Encloses (outset : Outset) (stage : Stage) (start inner final : Walk) : Prop where
  mentions : Surrounds (BesideMention outset stage) start.mentions.toList inner.mentions.toList
    final.mentions.toList
  flows : Surrounds (BesideFlow outset stage) start.flows.toList inner.flows.toList
    final.flows.toList
  sinks : Surrounds (BesideSink outset stage) start.sinks.toList inner.sinks.toList
    final.sinks.toList
  accesses : Surrounds (BesideAccess outset stage) start.accesses.toList inner.accesses.toList
    final.accesses.toList
  sites : Surrounds (BesideSite outset stage) start.sites.toList inner.sites.toList
    final.sites.toList
  truncated : Surrounds (fun scope => ¬ InnerScope outset stage scope) start.truncated.reverse
    inner.truncated.reverse final.truncated.reverse
  edges_before : ∀ edge ∈ start.graph.values.edges, BesideEdge outset stage edge
  edges_after : ∀ edge ∈ final.graph.values.edges,
    edge ∈ inner.graph.values.edges ∨ BesideEdge outset stage edge
  edges_kept : ∀ edge ∈ inner.graph.values.edges, edge ∈ final.graph.values.edges
  kind?_eq : ∀ id < inner.graph.values.size, final.kind? id = inner.kind? id
  records_eq : ∀ id < inner.graph.values.size, final.records.find? id = inner.records.find? id

/-- Values that were there when two walks began to go in step keep their kinds. -/
theorem InStep.kind?_kept (inStep : InStep config outset frame stage one two) {id : NodeId}
    (known : id < outset.one.graph.values.size) : one.kind? id = outset.one.kind? id := by
  have bare (walk : Walk) :
      walk.kind? id = ((walk.graph.values.nodes.toList.map (·.bare))[id]?).map (·.kind) := by
    rw [kind?, ValueGraph.kind?, ValueGraph.node?, List.getElem?_map, Array.getElem?_toList,
      Option.map_map]
    rfl
  rw [bare, bare, inStep.nodes_one, List.getElem?_append_left]
  simpa [ValueGraph.size] using known

theorem InStep.encloses {start inner final : Walk} {keeps : NodeId → Prop} {lateFrame : Frame}
    {early late : Stage}
    (before : InStep config (.diagonal initial fun _ => False) ⟨0, 0, [], []⟩ early start start)
    (after : InStep config (.diagonal (leaveBody start inner) keeps) lateFrame late final final)
    (avoidsBefore : Avoids (.diagonal initial fun _ => False) early outset stage)
    (avoidsAfter : Avoids (.diagonal (leaveBody start inner) keeps) late outset stage) :
    Encloses outset stage start inner final where
  mentions := before.noted.mentions.surrounds after.noted.mentions
    (fun _ => avoidsBefore.mention) fun _ => avoidsAfter.mention
  flows := before.noted.flows.surrounds after.noted.flows
    (fun _ => avoidsBefore.flow) fun _ => avoidsAfter.flow
  sinks := before.noted.sinks.surrounds after.noted.sinks
    (fun _ => avoidsBefore.sink) fun _ => avoidsAfter.sink
  accesses := before.noted.accesses.surrounds after.noted.accesses
    (fun _ => avoidsBefore.access) fun _ => avoidsAfter.access
  sites := before.noted.sites.surrounds after.noted.sites
    (fun _ => avoidsBefore.site) fun _ => avoidsAfter.site
  truncated := before.noted.truncated.surrounds after.noted.truncated
    (fun _ => avoidsBefore.scopes) fun _ => avoidsAfter.scopes
  edges_before edge listed := by
    rcases before.edges_one edge listed with never | ⟨other, paired⟩
    · exact absurd never (Array.not_mem_empty edge)
    · exact avoidsBefore.edge paired
  edges_after edge listed :=
    (after.edges_one edge listed).imp_right fun ⟨_, paired⟩ => avoidsAfter.edge paired
  edges_kept := after.kept_one
  kind?_eq _ known := after.kind?_kept known
  records_eq := after.records_one

/-- Bodies that two walks go over in step are isolated. -/
theorem InStep.isolated {start startTwin inner innerTwin final finalTwin : Walk}
    (inStep : InStep config (.apart (enterBody start) (enterBody startTwin)) frame stage inner
      innerTwin)
    (one : Encloses (.apart (enterBody start) (enterBody startTwin)) stage start inner final)
    (two : Encloses (.apart (enterBody startTwin) (enterBody start)) stage startTwin innerTwin
      finalTwin)
    (soundOne : final.Sound) (soundTwo : finalTwin.Sound) (orderlyOne : final.Orderly config)
    (orderlyTwo : finalTwin.Orderly config) :
    Isolated config (.apart (enterBody start) (enterBody startTwin)) stage final finalTwin where
  sound_one := soundOne
  sound_two := soundTwo
  orderly_one := orderlyOne
  orderly_two := orderlyTwo
  scopes_unique := scopes_unique_enterBody
  kind?_eq twins := by
    obtain ⟨knownOne, knownTwo⟩ := inStep.lt twins.paired
    rw [one.kind?_eq _ knownOne, two.kind?_eq _ knownTwo]
    exact inStep.kind?_eq twins
  records paired := by
    obtain ⟨knownOne, knownTwo⟩ := inStep.lt paired
    rw [one.records_eq _ knownOne, two.records_eq _ knownTwo]
    obtain ⟨_, twins⟩ := paired
    cases twins with
    | shared never => exact never.elim
    | @made place _ => exact inStep.records place
  edges_one edge listed := by
    obtain ⟨source, target, kind⟩ := edge
    rcases one.edges_after _ listed with inside | beside
    · rcases inStep.edges_one _ inside with old | ⟨⟨_, _, _⟩, ⟨sources, targets, rfl⟩⟩
      · exact .inl (one.edges_before _ old)
      · exact .inr ⟨_, two.edges_kept _ ((inStep.edge_iff sources targets.paired kind).1 inside),
          sources, targets, rfl⟩
    · exact .inl beside
  edges_two edge listed := by
    obtain ⟨source, target, kind⟩ := edge
    rcases two.edges_after _ listed with inside | beside
    · rcases inStep.edges_two _ inside with old | ⟨⟨_, _, _⟩, ⟨sources, targets, rfl⟩⟩
      · exact .inl (two.edges_before _ old)
      · exact .inr ⟨_, one.edges_kept _ ((inStep.edge_iff sources targets.paired _).2 inside),
          sources, targets, rfl⟩
    · exact .inl beside
  mentions := inStep.noted.mentions.mirror one.mentions two.mentions
  flows := inStep.noted.flows.mirror one.flows two.flows
  sinks := inStep.noted.sinks.mirror one.sinks two.sinks
  accesses := inStep.noted.accesses.mirror one.accesses two.accesses
  sites := inStep.noted.sites.mirror one.sites two.sites
  truncated := inStep.noted.truncated.mirror one.truncated two.truncated

end Walk

end EscapePlan
