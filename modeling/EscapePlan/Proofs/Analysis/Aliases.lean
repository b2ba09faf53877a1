import EscapePlan.Proofs.Analysis.LeastSolution
import EscapePlan.Proofs.Analysis.Visits

/-!
# What variables are found to denote

A walk over a tree has noted flows whose least solution is what variables may denote in the tree.
So once aliases are resolved, values stand for what they may denote.
-/

namespace EscapePlan

namespace Walk

variable {walk : Walk}

theorem Sound.varKey?_kind (sound : walk.Sound) {id : NodeId} {key : VarKey}
    (varKey : walk.varKey? id = some key) :
    ∃ kind, walk.kind? id = some kind ∧ kind.isVariable = true := by
  rcases Option.map_eq_some_iff.1 varKey with ⟨mention, found, -⟩
  have same : mention.1 = id := by simpa using Array.find?_some found
  exact same ▸ sound.mention_known mention (Array.mem_of_find?_eq_some found)

theorem Sound.kind?_ne (sound : walk.Sound) {id : NodeId} {key : VarKey}
    (varKey : walk.varKey? id = some key) : walk.kind? id ≠ some .allocation := by
  rcases sound.varKey?_kind varKey with ⟨kind, known, variable_⟩
  rw [known]
  rintro same
  cases same
  contradiction

theorem nodes_resolveAliases : walk.resolveAliases.graph.values.nodes = walk.graph.values.nodes :=
  ValueGraph.nodes_foldl_addEdge _ _

theorem node?_resolveAliases (id : NodeId) :
    walk.resolveAliases.graph.values.node? id = walk.graph.values.node? id := by
  rw [ValueGraph.node?, nodes_resolveAliases]
  rfl

theorem kind?_resolveAliases (id : NodeId) : walk.resolveAliases.kind? id = walk.kind? id :=
  congrArg (Option.map ValueNode.kind) (node?_resolveAliases id)

theorem isAllocation_resolveAliases {id : NodeId} :
    walk.resolveAliases.graph.values.isAllocation id = true ↔ walk.kind? id = some .allocation := by
  rw [← kind?_resolveAliases]
  exact decide_eq_true_iff

/-- A walk has resolved nothing yet. -/
theorem Sound.unresolved (sound : walk.Sound) : walk.Unresolved where
  mention_known mention listed := by
    rcases sound.mention_known mention listed with ⟨kind, known, -⟩
    exact Walker.kind?_lt known
  plain edge listed := (sound.plain edge listed).1

/-- A node of a variable points to every allocation that the variable denotes. -/
theorem mem_aliases_resolveAliases (sound : walk.Sound) {id allocation : NodeId} {key : VarKey}
    (varKey : walk.varKey? id = some key) (denotes : walk.Denotes key allocation) :
    allocation ∈ walk.resolveAliases.aliases id := by
  have notAllocation : ¬ walk.resolveAliases.graph.values.isAllocation id = true :=
    mt isAllocation_resolveAliases.1 (sound.kind?_ne varKey)
  rw [aliases, if_neg notAllocation, mem_pointsTo_resolveAliases sound.unresolved]
  exact ⟨key, varKey, denotes⟩

/-- Allocations denote themselves, the nodes of variables what the variables denote, and other
values nothing. -/
theorem of_mem_aliases_resolveAliases (sound : walk.Sound) {id allocation : NodeId}
    (listed : allocation ∈ walk.resolveAliases.aliases id) :
    allocation = id ∧ walk.kind? id = some .allocation ∨
      ∃ key, walk.varKey? id = some key ∧ walk.Denotes key allocation := by
  rw [aliases] at listed
  split at listed
  next allocates =>
    exact .inl ⟨List.mem_singleton.1 listed, isAllocation_resolveAliases.1 allocates⟩
  next =>
    rw [mem_pointsTo_resolveAliases sound.unresolved] at listed
    exact .inr listed

theorem Sound.kind?_of_mem_aliases (sound : walk.Sound) {id allocation : NodeId}
    (listed : allocation ∈ walk.resolveAliases.aliases id) :
    walk.kind? allocation = some .allocation := by
  rcases of_mem_aliases_resolveAliases sound listed with ⟨rfl, kind⟩ | ⟨key, -, denotes⟩
  · exact kind
  · exact denotes.kind_eq

/-! ## What values stand for -/

theorem Represents.kind?_eq {id : NodeId} {site : Site} (represents : walk.Represents id (.site site)) :
    walk.kind? id = some .allocation := by
  rcases represents with ⟨-, node, found, kind, -⟩
  exact Option.map_eq_some_iff.2 ⟨node, found, kind⟩

theorem not_mute_of_allocation {id : NodeId} (kind : walk.kind? id = some .allocation) :
    ¬ walk.Mute id := by
  rintro ⟨other, known, mute⟩
  cases kind.symm.trans known
  contradiction

theorem Sound.not_mute (sound : walk.Sound) {id : NodeId} {key : VarKey}
    (varKey : walk.varKey? id = some key) : ¬ walk.Mute id := by
  rintro ⟨kind, known, mute⟩
  rcases sound.varKey?_kind varKey with ⟨other, knownOther, variable_⟩
  cases known.symm.trans knownOther
  rw [NodeKind.isMute, variable_, Bool.not_true, Bool.and_false] at mute
  contradiction

theorem Represents.node_unique {first second : NodeId} {site : Site}
    (one : walk.Represents first (.site site)) (two : walk.Represents second (.site site)) :
    first = second := by
  rcases one.1 with ⟨scope, foundFirst⟩
  rcases two.1 with ⟨other, foundSecond⟩
  cases foundFirst.symm.trans foundSecond
  rfl

theorem Sound.nodup (sound : walk.Sound) : (walk.sites.toList.map (·.1)).Nodup := by
  rw [← sound.keys_eq]
  exact List.Pairwise.imp Nat.ne_of_lt (List.pairwise_map.2 walk.records.ascending)

theorem Represents.site_unique (sound : walk.Sound) {id : NodeId} {first second : Site}
    (one : walk.Represents id (.site first)) (two : walk.Represents id (.site second)) :
    first = second := by
  rcases one with ⟨⟨scope, foundFirst⟩, node, nodeFirst, -, originFirst⟩
  rcases two with ⟨⟨other, foundSecond⟩, later, nodeSecond, -, originSecond⟩
  cases nodeFirst.symm.trans nodeSecond
  have numbers : first.number = second.number := by
    rw [← Array.getElem?_toList] at foundFirst foundSecond
    have keyFirst : (walk.sites.toList.map (·.1))[first.number]? = some id := by
      rw [List.getElem?_map, foundFirst]
      rfl
    have keySecond : (walk.sites.toList.map (·.1))[second.number]? = some id := by
      rw [List.getElem?_map, foundSecond]
      rfl
    have known : first.number < (walk.sites.toList.map (·.1)).length :=
      (List.getElem?_eq_some_iff.1 keyFirst).1
    exact (List.getElem?_inj known sound.nodup).1 (keyFirst.trans keySecond.symm)
  cases first
  cases second
  cases numbers
  cases Option.some.inj (originFirst.symm.trans originSecond)
  rfl

end Walk

/-! ## What the tree says -/

/-- The least solution of the flows that a law allows. -/
inductive Law.Denotes (law : Law) : Source → Site → Prop where
  | site (site : Site) : Denotes law (.site site) site
  | flow {key : VarKey} {source : Source} {site : Site} :
      law.flows key source → Denotes law source site → Denotes law (.named key) site

/-- In the tree, names being global where the order of evaluation makes them so, it is what may be
denoted. -/
theorem Law.denotes_iff_mayDenote {tree : Tree} {source : Source} {site : Site} :
    (ofPlace tree tree.start).Denotes source site ↔
      tree.MayDenote Progress.IsGlobal source site := by
  constructor
  · intro denotes
    induction denotes with
    | site site => exact .site site
    | flow allowed _ inductionHypothesis =>
        rcases allowed with ⟨place, below, flows⟩
        exact .flow below flows inductionHypothesis
  · intro mayDenote
    induction mayDenote with
    | site site => exact .site site
    | flow occurs flows _ inductionHypothesis => exact .flow ⟨_, occurs, flows⟩ inductionHypothesis

namespace Walk

variable {walk : Walk} {tree : Tree} {top : Place}

/-- What a variable may denote in the tree it denotes by the flows that have been noted. -/
theorem Accounts.denotes (accounts : Accounts tree top walk) {source : Source} {site : Site}
    (denotes : (Law.ofPlace tree top).Denotes source site) {key : VarKey}
    (named : source = .named key) :
    ∃ node, walk.Represents node (.site site) ∧ walk.Denotes key node := by
  induction denotes generalizing key with
  | site site => contradiction
  | @flow target source site allowed denotes inductionHypothesis =>
      cases named
      rcases allowed with ⟨place, below, flows⟩
      rcases (accounts.covers place below).flows target source flows with ⟨id, flowed, represents⟩
      cases source with
      | site other =>
          cases denotes
          exact ⟨id, represents, .allocation flowed represents.kind?_eq⟩
      | named source =>
          rcases inductionHypothesis rfl with ⟨node, representsSite, denotes⟩
          exact ⟨node, representsSite,
            .copy flowed (accounts.sound.kind?_ne represents) represents denotes⟩

/-- By the flows that have been noted a variable denotes nothing else. -/
theorem Denotes.lawful {law : Law} (sound : walk.Sound) (lawful : walk.Lawful law) {key : VarKey}
    {node : NodeId} (denotes : walk.Denotes key node) :
    ∃ site, walk.Represents node (.site site) ∧ law.Denotes (.named key) site := by
  induction denotes with
  | @allocation key id flowed kind =>
      rcases lawful.flows _ flowed with mute | ⟨source, allowed, represents⟩
      · exact absurd mute (not_mute_of_allocation kind)
      · cases source with
        | site site => exact ⟨site, represents, .flow allowed (.site site)⟩
        | named source => exact absurd kind (sound.kind?_ne represents)
  | @copy key source id allocation flowed kind varKey denotes inductionHypothesis =>
      rcases inductionHypothesis with ⟨site, represents, denotesSite⟩
      rcases lawful.flows _ flowed with mute | ⟨other, allowed, representsOther⟩
      · exact absurd mute (sound.not_mute varKey)
      · cases other with
        | site other => exact absurd representsOther.kind?_eq kind
        | named other =>
            cases varKey.symm.trans representsOther
            exact ⟨site, represents, .flow allowed denotesSite⟩

/-- Aliases are resolved for everything that may be denoted in the tree. -/
theorem Accounts.exists_mem_aliases (accounts : Accounts tree top walk) {id : NodeId}
    {source : Source} {site : Site} (represents : walk.Represents id source)
    (denotes : (Law.ofPlace tree top).Denotes source site) :
    ∃ node, walk.Represents node (.site site) ∧ node ∈ walk.resolveAliases.aliases id := by
  cases source with
  | site other =>
      cases denotes
      refine ⟨id, represents, ?_⟩
      rw [aliases, if_pos (isAllocation_resolveAliases.2 represents.kind?_eq)]
      exact List.mem_singleton_self id
  | named key =>
      rcases accounts.denotes denotes rfl with ⟨node, representsSite, denotes⟩
      exact ⟨node, representsSite, mem_aliases_resolveAliases accounts.sound represents denotes⟩

/-- They are resolved for nothing else. -/
theorem exists_denotes {law : Law} (sound : walk.Sound) (lawful : walk.Lawful law)
    {sources : Source → Prop} {id node : NodeId} (within_ : walk.Within sources id)
    (listed : node ∈ walk.resolveAliases.aliases id) :
    ∃ source site, sources source ∧ walk.Represents id source ∧
      walk.Represents node (.site site) ∧ law.Denotes source site := by
  rcases of_mem_aliases_resolveAliases sound listed with ⟨rfl, kind⟩ | ⟨key, varKey, denotes⟩
  · rcases within_ with mute | ⟨source, allowed, represents⟩
    · exact absurd mute (not_mute_of_allocation kind)
    · cases source with
      | site site => exact ⟨_, site, allowed, represents, represents, .site site⟩
      | named source => exact absurd kind (sound.kind?_ne represents)
  · rcases denotes.lawful sound lawful with ⟨site, representsSite, denotesSite⟩
    rcases within_ with mute | ⟨source, allowed, represents⟩
    · exact absurd mute (sound.not_mute varKey)
    · cases source with
      | site other => exact absurd represents.kind?_eq (sound.kind?_ne varKey)
      | named source =>
          cases varKey.symm.trans represents
          exact ⟨_, site, allowed, represents, representsSite, denotesSite⟩

/-- A value whose aliases hold the node of a site stands for something that denotes the site. -/
theorem Accounts.exists_source (accounts : Accounts tree top walk) {sources : Source → Prop}
    {value id : NodeId} {site : Site} (within_ : walk.Within sources value)
    (represents : walk.Represents id (.site site))
    (listed : id ∈ walk.resolveAliases.aliases value) :
    ∃ source, sources source ∧ walk.Represents value source ∧
      (Law.ofPlace tree top).Denotes source site := by
  rcases exists_denotes accounts.sound accounts.lawful within_ listed with
    ⟨source, other, allowed, representsValue, representsOther, denotes⟩
  cases represents.site_unique accounts.sound representsOther
  exact ⟨source, allowed, representsValue, denotes⟩

end Walk

end EscapePlan
