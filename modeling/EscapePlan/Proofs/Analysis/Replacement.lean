import EscapePlan.Proofs.Analysis.Completion
import Mathlib.Data.List.Nodup

/-!
# Which objects can be taken apart

An object that does not escape can be replaced by locals exactly if some field of it is accessed by
name, and whatever accesses it accesses a named field of nothing else.  Nothing but accesses and
sinks leaves an allocation in the final graph, and what meets a sink escapes.
-/

namespace EscapePlan

namespace Law

/-- A field of the objects of a site, or an element if no field is named, may be accessed. -/
def Touches (law : Law) (field : Option String) (site : Site) : Prop :=
  ∃ source, law.accesses field source ∧ law.Denotes source site

/-- Whatever may access the objects of a site accesses a named field of nothing else. -/
def Exclusive (law : Law) (site : Site) : Prop :=
  ∀ field source, law.accesses field source → law.Denotes source site →
    field ≠ none ∧ ∀ other, law.Denotes source other → other = site

end Law

namespace Walk

variable {walk : Walk} {tree : Tree} {top : Place}

theorem Sound.kind?_settle (sound : walk.Sound) (id : NodeId) :
    walk.settle.kind? id = walk.kind? id :=
  (sound.settles.kind?_eq id).trans (kind?_resolveAliases id)

/-! ## Accesses -/

/-- What may be accessed has been accessed. -/
theorem Accounts.exists_access (accounts : Accounts tree top walk) {field : Option String}
    {source : Source} (accesses : (Law.ofPlace tree top).accesses field source) :
    ∃ access ∈ walk.accesses, access.field = field ∧ walk.Represents access.base source := by
  rcases accesses with ⟨place, base, below, accesses, yields⟩
  exact (accounts.covers place below).accesses base field source accesses yields

/-- The base of an access denotes exactly what is denoted in the tree. -/
theorem Accounts.mem_aliases_iff (accounts : Accounts tree top walk) {value id : NodeId}
    {source : Source} {site : Site} (representsValue : walk.Represents value source)
    (represents : walk.Represents id (.site site)) :
    id ∈ walk.resolveAliases.aliases value ↔ (Law.ofPlace tree top).Denotes source site := by
  constructor
  · intro listed
    have within_ : walk.Within (· = source) value := .inr ⟨source, rfl, representsValue⟩
    rcases accounts.exists_source within_ represents listed with ⟨_, rfl, -, denotes⟩
    exact denotes
  · intro denotes
    rcases accounts.exists_mem_aliases representsValue denotes with ⟨node, representsSite, listed⟩
    cases represents.node_unique representsSite
    exact listed

/-- The fields that are used are those that may be accessed. -/
theorem Accounts.usesField_iff (accounts : Accounts tree top walk) {id : NodeId} {site : Site}
    (represents : walk.Represents id (.site site)) {field : String} :
    UsesField id field walk.settle ↔ (Law.ofPlace tree top).Touches (some field) site := by
  constructor
  · intro uses
    rcases accounts.sound.of_usesField_settle uses with ⟨access, noted, fieldEq, listed⟩
    rcases accounts.exists_source (accounts.lawful.accesses access noted) represents listed with
      ⟨source, allowed, -, denotes⟩
    exact ⟨source, fieldEq ▸ allowed, denotes⟩
  · rintro ⟨source, accesses, denotes⟩
    rcases accounts.exists_access accesses with ⟨access, noted, fieldEq, representsBase⟩
    have listed := (accounts.mem_aliases_iff representsBase represents).2 denotes
    have known := accounts.sound.known_of_represents represents
    exact accounts.sound.usesField_settle noted listed known fieldEq

/-! ## The edges of allocations -/

/-- An access to an allocation is one of its uses in the final graph. -/
theorem Sound.edge_of_access (sound : walk.Sound) (config : Config) {access : Access}
    (noted : access ∈ walk.accesses) {id : NodeId}
    (listed : id ∈ walk.resolveAliases.aliases access.base) :
    ⟨id, access.node, .defUse⟩ ∈ (Analysis.ofWalk config walk.settle).graph.values.edges := by
  rw [Analysis.edges_ofWalk]
  exact DataFlowGraph.mem_edges_convertToSsa (sound.joined_access noted listed)

theorem Sound.kind?_ofWalk_settle (sound : walk.Sound) {config : Config} {id : NodeId}
    {kind : NodeKind} (known : walk.kind? id = some kind) :
    (Analysis.ofWalk config walk.settle).graph.values.kind? id = some kind :=
  Analysis.kind?_ofWalk ((sound.kind?_settle id).trans known)

theorem Sound.isAllocation_ofWalk_settle (sound : walk.Sound) {config : Config} {id : NodeId}
    {site : Site} (represents : walk.Represents id (.site site)) :
    (Analysis.ofWalk config walk.settle).graph.values.isAllocation id = true :=
  decide_eq_true (sound.kind?_ofWalk_settle represents.kind?_eq)

/-- The node of a variable is no allocation in the final graph either. -/
theorem Sound.not_isAllocation (sound : walk.Sound) {config : Config} {id : NodeId} {kind : NodeKind}
    (known : walk.kind? id = some kind) (other : kind ≠ .allocation) :
    ¬ (Analysis.ofWalk config walk.settle).graph.values.isAllocation id = true := by
  rw [ValueGraph.isAllocation, sound.kind?_ofWalk_settle known, decide_eq_true_eq]
  exact fun same => other (Option.some.inj same)

theorem Sound.not_isAllocation_of_varKey? (sound : walk.Sound) {config : Config} {id : NodeId}
    {key : VarKey} (varKey : walk.varKey? id = some key) :
    ¬ (Analysis.ofWalk config walk.settle).graph.values.isAllocation id = true := by
  rcases sound.varKey?_kind varKey with ⟨kind, known, -⟩
  refine sound.not_isAllocation known ?_
  rintro rfl
  exact sound.kind?_ne varKey known

/-- An edge that leaves an allocation in the final graph has been there since the walk was settled:
allocations have no versions. -/
theorem Sound.mem_edges_settle (sound : walk.Sound) {config : Config} {edge : Edge}
    (listed : edge ∈ (Analysis.ofWalk config walk.settle).graph.values.edges)
    (allocates : (Analysis.ofWalk config walk.settle).graph.values.isAllocation edge.source = true) :
    edge ∈ walk.settle.graph.values.edges := by
  rw [Analysis.edges_ofWalk] at listed
  rcases DataFlowGraph.of_mem_edges_convertToSsa listed with settled | ⟨names | phi, -⟩
  · exact settled
  · rw [sound.settles.flow_eq] at names
    rcases sound.named edge.source names with ⟨key, varKey⟩
    exact absurd allocates (sound.not_isAllocation_of_varKey? varKey)
  · rw [← @Analysis.kind?_convertToSsa config] at phi
    rw [ValueGraph.isAllocation, phi] at allocates
    contradiction

/-- Nothing but accesses and sinks leaves an allocation in the final graph. -/
theorem Sound.of_edge (sound : walk.Sound) {config : Config} {edge : Edge}
    (listed : edge ∈ (Analysis.ofWalk config walk.settle).graph.values.edges)
    (allocates : (Analysis.ofWalk config walk.settle).graph.values.isAllocation edge.source = true) :
    (∃ access ∈ walk.accesses, edge.source ∈ walk.resolveAliases.aliases access.base ∧
        edge.target = access.node) ∨
      ∃ sink ∈ walk.sinks, edge.source ∈ walk.resolveAliases.aliases sink.value ∧
        edge.target = sink.target ∧ edge.kind = sink.kind := by
  rcases sound.of_mem_edges_settle (sound.mem_edges_settle listed allocates) with
    resolved | ⟨access, noted, id, mem, rfl⟩ | ⟨sink, noted, id, mem, rfl⟩
  · rcases ValueGraph.mem_foldl_addEdge resolved with old | alias_
    · rcases sound.plain edge old with ⟨-, kind, known, other⟩
      exact absurd allocates (sound.not_isAllocation known other)
    · rcases (mem_aliasEdges_iff.1 alias_).2 with ⟨key, varKey, -⟩
      exact absurd allocates (sound.not_isAllocation_of_varKey? varKey)
  · exact .inl ⟨access, noted, mem, rfl⟩
  · exact .inr ⟨sink, noted, mem, rfl, rfl⟩

/-- An allocation that is used by the access to a field is one that its base may denote: every access
has a node of its own, and no sink leads there. -/
theorem Sound.mem_aliases_of_edge (sound : walk.Sound) {config : Config} {access : Access}
    (noted : access ∈ walk.accesses) (named : access.field ≠ none) {edge : Edge}
    (listed : edge ∈ (Analysis.ofWalk config walk.settle).graph.values.edges)
    (allocates : (Analysis.ofWalk config walk.settle).graph.values.isAllocation edge.source = true)
    (target : edge.target = access.node) (use : edge.kind = .defUse) :
    edge.source ∈ walk.resolveAliases.aliases access.base := by
  rcases sound.of_edge listed allocates with
    ⟨other, notedOther, mem, targetOther⟩ | ⟨sink, notedSink, -, targetSink, kindSink⟩
  · have nodes : other.node = access.node := targetOther.symm.trans target
    cases List.inj_on_of_nodup_map sound.access_nodup (Array.mem_toList_iff.2 notedOther)
      (Array.mem_toList_iff.2 noted) nodes
    exact mem
  · rcases sound.access_known access noted with ⟨kind, known, isField, -⟩
    rcases (sound.sink_known sink notedSink).2 (kindSink ▸ use) with ⟨other, knownSink, noField⟩
    rw [← targetSink, target, known] at knownSink
    cases knownSink
    rw [isField, Option.isSome_eq_false_iff, Option.isNone_iff_eq_none] at noField
    exact absurd noField named

/-- Where an allocation is used by the accesses to fields only, none of which is shared, whatever
may access its objects accesses a named field of nothing else. -/
theorem Accounts.exclusive_of_usedByFieldsOnly (accounts : Accounts tree top walk) (config : Config)
    {id : NodeId} {site : Site} (represents : walk.Represents id (.site site))
    (only : usedByFieldsOnly (Analysis.ofWalk config walk.settle).graph.values id = true) :
    (Law.ofPlace tree top).Exclusive site := by
  intro field source accesses denotes
  rcases accounts.exists_access accesses with ⟨access, noted, rfl, representsBase⟩
  have listed := (accounts.mem_aliases_iff representsBase represents).2 denotes
  have used := accounts.sound.edge_of_access config noted listed
  rcases Propagation.usedByFieldsOnly_iff.1 only _ used rfl with
    ⟨⟨kind, known, isField⟩, unshared⟩
  rcases accounts.sound.access_known access noted with ⟨other, knownOther, named, -⟩
  cases known.symm.trans (accounts.sound.kind?_ofWalk_settle knownOther)
  refine ⟨fun none => ?_, fun site denotesOther => ?_⟩
  · rw [isField, none] at named
    contradiction
  · rcases accounts.exists_mem_aliases representsBase denotesOther with
      ⟨node, representsOther, listedOther⟩
    have same := unshared _ (accounts.sound.edge_of_access config noted listedOther)
      rfl rfl (accounts.sound.isAllocation_ofWalk_settle representsOther)
    subst same
    exact representsOther.site_unique accounts.sound represents

/-- Where whatever may access the objects of an allocation accesses a named field of nothing else, it
is used by the accesses to fields only, none of which is shared, unless it meets a sink. -/
theorem Accounts.usedByFieldsOnly_of_exclusive (accounts : Accounts tree top walk) (config : Config)
    {id : NodeId} {site : Site} (represents : walk.Represents id (.site site))
    (unsunk : ∀ sink ∈ walk.sinks, id ∉ walk.resolveAliases.aliases sink.value)
    (exclusive : (Law.ofPlace tree top).Exclusive site) :
    usedByFieldsOnly (Analysis.ofWalk config walk.settle).graph.values id = true := by
  have sound := accounts.sound
  rw [Propagation.usedByFieldsOnly_iff]
  rintro edge listed rfl
  rcases sound.of_edge listed (sound.isAllocation_ofWalk_settle represents) with
    ⟨access, noted, mem, target⟩ | ⟨sink, noted, mem, -⟩
  · rcases accounts.exists_source (accounts.lawful.accesses access noted) represents mem with
      ⟨source, allowed, representsBase, denotes⟩
    rcases exclusive _ source allowed denotes with ⟨named, alone⟩
    rcases sound.access_known access noted with ⟨kind, known, isField, -⟩
    have field : kind.isFieldAccess = true := isField.trans (Option.isSome_iff_ne_none.2 named)
    refine ⟨⟨kind, target ▸ sound.kind?_ofWalk_settle known, field⟩, ?_⟩
    intro other listedOther targetOther use allocates
    have memOther := sound.mem_aliases_of_edge noted named listedOther allocates
      (targetOther.trans target) use
    have within_ : walk.Within (· = source) access.base := .inr ⟨source, rfl, representsBase⟩
    rcases exists_denotes sound accounts.lawful within_ memOther with
      ⟨_, found, rfl, -, representsOther, denotesOther⟩
    cases alone found denotesOther
    exact representsOther.node_unique represents
  · exact absurd mem (unsunk sink noted)

end Walk

namespace Analysis

open Walk

variable {walk : Walk} {tree : Tree} {top : Place} {config : Config} {site : Site}
  {judged : EscapeRecord}

/-- What meets a sink is found to escape. -/
theorem not_mem_aliases_of_noEscape (sound : walk.Sound)
    (found : (ofWalk config walk.settle).recordOf? site = some judged)
    (noEscape : judged.state = .noEscape) {sink : Sink} (noted : sink ∈ walk.sinks) :
    judged.node ∉ walk.resolveAliases.aliases sink.value := by
  intro listed
  rcases (recordOf?_iff sound).1 found with ⟨represents, -⟩
  have escapes := sound.escapes_settle noted listed (sound.known_of_represents represents)
  exact not_letsEscape_of_noEscape found noEscape (letsEscape_ofWalk sound represents escapes)

/-- If nothing lies above what is unknown, then whatever is accessed is not known to stay where it
was made. -/
theorem not_noEscape_of_touches (accounts : Accounts tree top walk)
    (found : (ofWalk config walk.settle).recordOf? site = some judged)
    (above : config.unknownIsBottom = false) {field : Option String}
    (touches : (Law.ofPlace tree top).Touches field site) : judged.state ≠ .noEscape := by
  have sound := accounts.sound
  rcases judges_of_recordOf? sound found with ⟨represents, record, -, judges⟩
  rcases touches with ⟨source, accesses, denotes⟩
  rcases accounts.exists_access accesses with ⟨access, noted, -, representsBase⟩
  have listed := (accounts.mem_aliases_iff representsBase represents).2 denotes
  have edge := accounts.sound.edge_of_access config noted listed
  rw [edges_ofWalk] at edge
  rcases sound.access_known access noted with ⟨kind, known, -, initial⟩
  rw [← sound.kind?_settle] at known
  rcases Option.map_eq_some_iff.1 known with ⟨node, foundNode, rfl⟩
  have kindEq := (sound.kind?_settle judged.node).trans represents.kind?_eq
  rcases Option.map_eq_some_iff.1 (@kind?_ofWalk config walk.settle _ _ kindEq) with
    ⟨final, foundFinal, -⟩
  have reached : (ofWalk config walk.settle).graph.values.state? judged.node = some final.state :=
    congrArg (Option.map ValueNode.state) foundFinal
  have rises := Propagation.level_initialState_le edge
    (DataFlowGraph.node?_convertToSsa foundNode) reached
  have judged_ := Nat.le_trans rises (judges.level_node_le _ reached)
  rw [initial, above] at judged_
  intro noEscape
  rw [noEscape] at judged_
  exact absurd judged_ (by decide)

/-- The fields that are listed in a record are those that may be accessed. -/
theorem uses_iff (accounts : Accounts tree top walk)
    (found : (ofWalk config walk.settle).recordOf? site = some judged) {field : String} :
    judged.Uses field ↔ (Law.ofPlace tree top).Touches (some field) site := by
  rcases judges_of_recordOf? accounts.sound found with ⟨represents, record, foundRecord, judges⟩
  rw [← accounts.usesField_iff represents, EscapeRecord.Uses, judges.fields_eq]
  refine ⟨fun uses => ⟨record, foundRecord, uses⟩, ?_⟩
  rintro ⟨same, foundSame, uses⟩
  cases foundRecord.symm.trans foundSame
  exact uses

/-- An object that does not escape can be taken apart exactly if some field of it may be accessed
by name, and whatever may access it accesses a named field of nothing else. -/
theorem isScalarReplaceable_iff (accounts : Accounts tree top walk)
    (found : (ofWalk config walk.settle).recordOf? site = some judged)
    (noEscape : judged.state = .noEscape) :
    judged.isScalarReplaceable = true ↔
      config.enableScalarReplacement = true ∧
        (∃ field, (Law.ofPlace tree top).Touches (some field) site) ∧
        (Law.ofPlace tree top).Exclusive site := by
  have sound := accounts.sound
  rcases judges_of_recordOf? sound found with ⟨represents, record, -, judges⟩
  have unsunk : ∀ sink ∈ walk.sinks, judged.node ∉ walk.resolveAliases.aliases sink.value :=
    fun sink noted => not_mem_aliases_of_noEscape sound found noEscape noted
  have only : usedByFieldsOnly (ofWalk config walk.settle).graph.values judged.node = true ↔
      (Law.ofPlace tree top).Exclusive site :=
    ⟨accounts.exclusive_of_usedByFieldsOnly config represents,
      accounts.usedByFieldsOnly_of_exclusive config represents unsunk⟩
  rw [judges.replaceable_iff, only]
  simp only [uses_iff accounts found, noEscape, true_and]

end Analysis

end EscapePlan
