import EscapePlan.Proofs.Analysis.Records
import EscapePlan.Proofs.Isolation.Mirror

/-!
# Settling isolated parts

When two walks are settled, accesses and sinks of one part concern nothing but the objects of that
part.  So the parts stay isolated, and records that correspond go on to be the same, but for the
numbers of their nodes.
-/

namespace EscapePlan

namespace EscapeRecord

/-- A record without the number of its node. -/
def unnumbered (record : EscapeRecord) : EscapeRecord :=
  { record with node := 0 }

theorem unnumbered_siteRecord (config : Config) (node : NodeId) (objectType : ObjectType)
    (className : Option String) (position : Option Position) (count : Nat) :
    (Walker.siteRecord config node objectType className position count).unnumbered =
      Walker.siteRecord config 0 objectType className position count := by
  rw [Walker.siteRecord, Walker.siteRecord]
  split <;> rfl

theorem unnumbered_access (record : EscapeRecord) (access : Access) :
    (record.access access).unnumbered = record.unnumbered.access access := by
  rw [EscapeRecord.access, EscapeRecord.access]
  split <;> rfl

theorem unnumbered_escalate (record : EscapeRecord) (state : EscapeState) (reason : EscapeReason)
    (position : Option Position) : (record.escalate state reason position).unnumbered =
      record.unnumbered.escalate state reason position := by
  rw [escalate, escalate]
  show EscapeRecord.unnumbered (if record.state.merge state = record.state then _ else _) =
    if record.state.merge state = record.state then _ else _
  split <;> rfl

end EscapeRecord

namespace Walk.Isolated

variable {config : Config} {outset : Outset} {stage : Stage} {one two : Walk}
  (isolated : Isolated config outset stage one two) {first second : NodeId}
include isolated

/-! ## Records -/

/-- Nothing outside is an alias of a value inside. -/
theorem notMem_aliases {value : NodeId} (beside : ¬ Inner outset stage value)
    (paired : Paired outset stage first second) : first ∉ one.resolveAliases.aliases value :=
  fun listed => beside (isolated.inner_of_mem_aliases listed ⟨second, paired⟩)

/-- A run over notes keeps records the same that correspond, if every note concerns what one value
may denote and does the same to records that are the same. -/
theorem unnumbered_foldl {α : Type} {corresponds : α → α → Prop} {besideOne besideTwo : α → Prop}
    {items others : List α} (mirror : Mirror corresponds besideOne besideTwo items others)
    {value : α → NodeId} {change : EscapeRecord → α → EscapeRecord}
    (outsideOne : ∀ item, besideOne item → ¬ Inner outset stage (value item))
    (outsideTwo : ∀ item, besideTwo item → ¬ Inner outset.swap stage (value item))
    (values : ∀ item other, corresponds item other →
      Paired outset stage (value item) (value other))
    (changes : ∀ item other, corresponds item other → ∀ record another : EscapeRecord,
      record.unnumbered = another.unnumbered →
        (change record item).unnumbered = (change another other).unnumbered)
    (paired : Paired outset stage first second) {record another : EscapeRecord}
    (same : record.unnumbered = another.unnumbered) :
    (items.foldl (fun record item =>
        if first ∈ one.resolveAliases.aliases (value item) then change record item else record)
      record).unnumbered =
    (others.foldl (fun record item =>
        if second ∈ two.resolveAliases.aliases (value item) then change record item else record)
      another).unnumbered := by
  refine @Mirror.foldl _ _ _ _ _ _ _ _
    (fun record another : EscapeRecord => record.unnumbered = another.unnumbered) _ _ ?_ ?_ ?_
    mirror _ _ same
  · exact fun record item beside =>
      if_neg (isolated.notMem_aliases (outsideOne item beside) paired)
  · exact fun record item beside =>
      if_neg (isolated.swap.notMem_aliases (outsideTwo item beside) paired.swap)
  · intro record another item other same corresponding
    have iff := isolated.mem_aliases_iff (values item other corresponding) paired
    by_cases listed : first ∈ one.resolveAliases.aliases (value item)
    · rw [if_pos listed, if_pos (iff.1 listed)]
      exact changes item other corresponding record another same
    · rw [if_neg listed, if_neg (mt iff.2 listed)]
      exact same

theorem unnumbered_sunkRecord (paired : Paired outset stage first second)
    {record another : EscapeRecord} (same : record.unnumbered = another.unnumbered) :
    (one.sunkRecord first record).unnumbered = (two.sunkRecord second another).unnumbered := by
  refine isolated.unnumbered_foldl isolated.sinks ?_ ?_ ?_ ?_ paired
    (isolated.unnumbered_foldl isolated.accesses ?_ ?_ ?_ ?_ paired same)
  · exact fun sink beside => beside.values _ List.mem_cons_self
  · exact fun sink beside => beside.values _ List.mem_cons_self
  · exact fun sink other sinks => sinks.value
  · intro sink other sinks record another same
    rw [EscapeRecord.sink, EscapeRecord.sink, EscapeRecord.unnumbered_escalate,
      EscapeRecord.unnumbered_escalate, same, sinks.reason_eq, sinks.position_eq]
  · exact fun access beside => beside.values _ List.mem_cons_self
  · exact fun access beside => beside.values _ List.mem_cons_self
  · exact fun access other accesses => accesses.base
  · intro access other accesses record another same
    rw [EscapeRecord.unnumbered_access, EscapeRecord.unnumbered_access, same,
      EscapeRecord.access, EscapeRecord.access, accesses.field_eq, accesses.type_eq]

theorem truncated_of_paired {scope other : Nat} (paired : PairedScopes outset stage scope other)
    (cut : scope ∈ one.truncated) : other ∈ two.truncated := by
  rcases isolated.truncated.exists_other (List.mem_reverse.2 cut) with
    beside | ⟨another, known, pairedAnother⟩
  · exact absurd ⟨other, paired⟩ beside
  · rw [(isolated.scopes_unique paired pairedAnother).1 rfl]
    exact List.mem_reverse.1 known

/-- Scopes that are cut off reach values that correspond. -/
theorem mem_truncatedReach (paired : Paired outset stage first second)
    (reached : first ∈ one.applySinks.truncatedReach) : second ∈ two.applySinks.truncatedReach := by
  rw [isolated.sound_two.mem_truncatedReach]
  rcases isolated.sound_one.mem_truncatedReach.1 reached with
    ⟨scope, cut, site⟩ | ⟨⟨id, key⟩, noted, cut, listed⟩
  · rcases isolated.sites.exists_other (Array.mem_toList_iff.2 site) with
      beside | ⟨⟨other, another⟩, siteTwin, sites⟩
    · exact absurd ⟨second, paired⟩ (beside.values _ List.mem_cons_self)
    · obtain rfl := (sites.node.unique paired).1 rfl
      exact .inl ⟨another, isolated.truncated_of_paired sites.scope cut,
        Array.mem_toList_iff.1 siteTwin⟩
  · rcases isolated.mentions.exists_other (Array.mem_toList_iff.2 noted) with
      beside | ⟨other, notedTwin, mentions⟩
    · exact absurd (isolated.inner_of_mem_aliases listed ⟨second, paired⟩)
        (beside.values _ List.mem_cons_self)
    · exact .inr ⟨other, Array.mem_toList_iff.1 notedTwin,
        isolated.truncated_of_paired mentions.key.scopes cut,
        isolated.mem_aliases mentions.value paired listed⟩

theorem unnumbered_settledRecord (paired : Paired outset stage first second)
    {record another : EscapeRecord} (same : record.unnumbered = another.unnumbered) :
    (one.settledRecord first record).unnumbered =
      (two.settledRecord second another).unnumbered := by
  have sunk := isolated.unnumbered_sunkRecord paired same
  rw [settledRecord, settledRecord]
  by_cases reached : first ∈ one.applySinks.truncatedReach
  · rw [if_pos reached, if_pos (isolated.mem_truncatedReach paired reached),
      EscapeRecord.unnumbered_escalate, EscapeRecord.unnumbered_escalate, sunk]
  · rw [if_neg reached, if_neg (mt (isolated.swap.mem_truncatedReach paired.swap) reached), sunk]

/-- Values that correspond have the same records once both walks are settled. -/
theorem find?_settle (paired : Paired outset stage first second) :
    Option.Rel (fun record another : EscapeRecord => record.unnumbered = another.unnumbered)
      (one.settle.records.find? first) (two.settle.records.find? second) := by
  rw [isolated.sound_one.find?_settle, isolated.sound_two.find?_settle]
  rcases isolated.records paired with
    ⟨none, noneTwo⟩ | ⟨objectType, className, position, count, foundOne, foundTwo⟩
  · rw [none, noneTwo]
    exact .none
  · rw [foundOne, foundTwo]
    refine .some (isolated.unnumbered_settledRecord paired ?_)
    rw [EscapeRecord.unnumbered_siteRecord, EscapeRecord.unnumbered_siteRecord]

/-! ## Edges -/

omit isolated in
theorem beside_edge {source target : NodeId} (sources : ¬ Inner outset stage source)
    (targets : ¬ Inner outset stage target) (kind : EdgeKind) :
    BesideEdge outset stage ⟨source, target, kind⟩ := by
  refine ⟨?_, nofun⟩
  simp [sources, targets]

theorem receivers_of_allocation (paired : Paired outset stage first second)
    (kind : one.kind? first = some .allocation) : Receivers outset stage first second := by
  obtain ⟨node, twins⟩ := paired
  refine ⟨node, twins, ?_⟩
  have kinds := (isolated.kind?_eq twins).1.symm.trans kind
  rintro parameter
  rw [parameter] at kinds
  nomatch kinds

/-- An edge that a note adds for what a value may denote lies outside, or it is mirrored. -/
theorem exists_edge_of_note {value other target another : NodeId} {kind : EdgeKind}
    (values : Paired outset stage value other) (targets : Receivers outset stage target another)
    {allocation : NodeId} (listed : allocation ∈ one.resolveAliases.aliases value)
    (added : ∀ denoted ∈ two.resolveAliases.aliases other,
      ⟨denoted, another, kind⟩ ∈ two.settle.graph.values.edges) :
    ∃ edge ∈ two.settle.graph.values.edges,
      PairedEdges outset stage ⟨allocation, target, kind⟩ edge := by
  obtain ⟨denoted, paired, listedTwin⟩ := isolated.exists_mem_aliases values listed
  exact ⟨_, added denoted listedTwin, paired, targets, rfl⟩

/-- Settling joins the parts to nothing else, and adds edges to them that correspond. -/
theorem exists_edge_settle {edge : Edge} (listed : edge ∈ one.settle.graph.values.edges) :
    BesideEdge outset stage edge ∨
      ∃ other ∈ two.settle.graph.values.edges, PairedEdges outset stage edge other := by
  have kept : ∀ edge ∈ two.resolveAliases.graph.values.edges,
      edge ∈ two.settle.graph.values.edges := isolated.sound_two.settles.edges
  rcases isolated.sound_one.of_mem_edges_settle listed with
    resolved | ⟨access, noted, allocation, denoted, rfl⟩ | ⟨sink, noted, allocation, denoted, rfl⟩
  · rcases ValueGraph.mem_foldl_addEdge resolved with old | added
    · refine (isolated.edges_one edge old).imp_right fun ⟨other, known, paired⟩ =>
        ⟨other, kept other ?_, paired⟩
      exact ValueGraph.mem_edges_foldl_addEdge known
    · obtain ⟨source, target, kind⟩ := edge
      rcases (mem_aliasEdges_iff.1 added).2 with ⟨key, varKey, denotes, rfl⟩
      by_cases inside : Inner outset stage source
      · obtain ⟨other, paired⟩ := inside
        have keys := isolated.varKey?_rel paired
        rw [varKey] at keys
        cases varKeyTwin : two.varKey? other with
        | none =>
            rw [varKeyTwin] at keys
            nomatch keys
        | some twin =>
            rw [varKeyTwin] at keys
            cases keys with
            | some keys =>
                obtain ⟨denoted, pairedDenoted, denotesTwin⟩ := isolated.exists_denotes keys denotes
                refine .inr ⟨⟨other, denoted, .pointsTo⟩, kept _ ?_, paired, ?_, rfl⟩
                · refine ValueGraph.mem_pointsTo.1 ?_
                  rw [mem_pointsTo_resolveAliases isolated.sound_two.unresolved]
                  exact ⟨_, varKeyTwin, denotesTwin⟩
                · exact isolated.receivers_of_allocation pairedDenoted denotes.kind_eq
      · refine .inl (beside_edge inside (fun insideTarget => inside ?_) _)
        exact isolated.inner_of_varKey? varKey (isolated.innerScope_of_denotes denotes insideTarget)
  · rcases isolated.accesses.exists_other (Array.mem_toList_iff.2 noted) with
      beside | ⟨other, notedTwin, accesses⟩
    · refine .inl (beside_edge (fun inside => ?_) (beside.values _ (by simp)) _)
      exact beside.values _ List.mem_cons_self (isolated.inner_of_mem_aliases denoted inside)
    · refine .inr (isolated.exists_edge_of_note accesses.base accesses.node denoted ?_)
      intro id listed
      exact isolated.sound_two.joined_access (Array.mem_toList_iff.1 notedTwin) listed
  · rcases isolated.sinks.exists_other (Array.mem_toList_iff.2 noted) with
      beside | ⟨other, notedTwin, sinks⟩
    · refine .inl (beside_edge (fun inside => ?_) (beside.values _ (by simp)) _)
      exact beside.values _ List.mem_cons_self (isolated.inner_of_mem_aliases denoted inside)
    · refine .inr (isolated.exists_edge_of_note sinks.value sinks.target denoted ?_)
      intro id listed
      have sunk := Array.mem_toList_iff.1 notedTwin
      rcases isolated.orderly_two.sink_target other sunk with ⟨kind, target, -⟩
      rw [sinks.kind_eq]
      exact isolated.sound_two.joined_sink sunk listed target

end Walk.Isolated

end EscapePlan
