import EscapePlan.Proofs.Isolation.Outsets

/-!
# Parts that mirror each other

Two walks that have gone in step for a while hold each a part that was made then.  `Isolated` says
that nothing joins these parts to what else there is, and that they mirror each other.  What a
variable of one part may denote then lies in that part, and the other part mirrors it.
-/

namespace EscapePlan

/-- The items of two lists correspond in order, but for some of each that are of no account. -/
inductive Mirror {α : Type} (corresponds : α → α → Prop) (besideOne besideTwo : α → Prop) :
    List α → List α → Prop where
  | nil : Mirror corresponds besideOne besideTwo [] []
  | one {item : α} {items others : List α} : besideOne item →
      Mirror corresponds besideOne besideTwo items others →
      Mirror corresponds besideOne besideTwo (item :: items) others
  | two {item : α} {items others : List α} : besideTwo item →
      Mirror corresponds besideOne besideTwo items others →
      Mirror corresponds besideOne besideTwo items (item :: others)
  | both {item other : α} {items others : List α} : corresponds item other →
      Mirror corresponds besideOne besideTwo items others →
      Mirror corresponds besideOne besideTwo (item :: items) (other :: others)

namespace Mirror

variable {α : Type} {corresponds : α → α → Prop} {besideOne besideTwo : α → Prop}
  {items others : List α}

theorem swap {reversed : α → α → Prop}
    (enough : ∀ first second, corresponds first second → reversed second first)
    (mirror : Mirror corresponds besideOne besideTwo items others) :
    Mirror reversed besideTwo besideOne others items := by
  induction mirror with
  | nil => exact .nil
  | one beside _ inductionHypothesis => exact .two beside inductionHypothesis
  | two beside _ inductionHypothesis => exact .one beside inductionHypothesis
  | both corresponding _ inductionHypothesis =>
      exact .both (enough _ _ corresponding) inductionHypothesis

theorem append {more rest : List α} (mirror : Mirror corresponds besideOne besideTwo items others)
    (later : Mirror corresponds besideOne besideTwo more rest) :
    Mirror corresponds besideOne besideTwo (items ++ more) (others ++ rest) := by
  induction mirror with
  | nil => exact later
  | one beside _ inductionHypothesis => exact .one beside inductionHypothesis
  | two beside _ inductionHypothesis => exact .two beside inductionHypothesis
  | both corresponding _ inductionHypothesis => exact .both corresponding inductionHypothesis

theorem of_forall₂ (all : List.Forall₂ corresponds items others) :
    Mirror corresponds besideOne besideTwo items others := by
  induction all with
  | nil => exact .nil
  | cons corresponding _ inductionHypothesis => exact .both corresponding inductionHypothesis

theorem of_beside (one : ∀ item ∈ items, besideOne item) (two : ∀ item ∈ others, besideTwo item) :
    Mirror corresponds besideOne besideTwo items others := by
  induction items with
  | nil =>
      induction others with
      | nil => exact .nil
      | cons other others inductionHypothesis =>
          rcases List.forall_mem_cons.1 two with ⟨first, rest⟩
          exact .two first (inductionHypothesis rest)
  | cons item items inductionHypothesis =>
      rcases List.forall_mem_cons.1 one with ⟨first, rest⟩
      exact .one first (inductionHypothesis rest)

theorem exists_other (mirror : Mirror corresponds besideOne besideTwo items others) {item : α}
    (member : item ∈ items) : besideOne item ∨ ∃ other ∈ others, corresponds item other := by
  induction mirror with
  | nil => contradiction
  | one beside _ inductionHypothesis =>
      rcases List.mem_cons.1 member with rfl | later
      · exact .inl beside
      · exact inductionHypothesis later
  | two _ _ inductionHypothesis =>
      exact (inductionHypothesis member).imp_right fun ⟨other, known, corresponding⟩ =>
        ⟨other, List.mem_cons_of_mem _ known, corresponding⟩
  | both corresponding _ inductionHypothesis =>
      rcases List.mem_cons.1 member with rfl | later
      · exact .inr ⟨_, List.mem_cons_self, corresponding⟩
      · exact (inductionHypothesis later).imp_right fun ⟨other, known, corresponding⟩ =>
          ⟨other, List.mem_cons_of_mem _ known, corresponding⟩

/-- A search that passes over what is of no account finds items that correspond. -/
theorem find? {wanted wantedTwin : α → Bool}
    (mirror : Mirror corresponds besideOne besideTwo items others)
    (one : ∀ item, besideOne item → wanted item = false)
    (two : ∀ item, besideTwo item → wantedTwin item = false)
    (both : ∀ item other, corresponds item other → wanted item = wantedTwin other) :
    Option.Rel corresponds (items.find? wanted) (others.find? wantedTwin) := by
  induction mirror with
  | nil => exact .none
  | one beside _ inductionHypothesis =>
      rw [List.find?_cons, one _ beside]
      exact inductionHypothesis
  | two beside _ inductionHypothesis =>
      rw [@List.find?_cons _ _ _ wantedTwin, two _ beside]
      exact inductionHypothesis
  | both corresponding _ inductionHypothesis =>
      rw [List.find?_cons, List.find?_cons, both _ _ corresponding]
      split
      next => exact .some corresponding
      next => exact inductionHypothesis

/-- Runs that what is of no account does not change stay related. -/
theorem foldl {σ τ : Type} {related : σ → τ → Prop} {step : σ → α → σ} {twin : τ → α → τ}
    (one : ∀ state item, besideOne item → step state item = state)
    (two : ∀ state item, besideTwo item → twin state item = state)
    (both : ∀ state other first second, related state other → corresponds first second →
      related (step state first) (twin other second))
    (mirror : Mirror corresponds besideOne besideTwo items others) {start : σ} {startTwin : τ}
    (begin : related start startTwin) :
    related (items.foldl step start) (others.foldl twin startTwin) := by
  induction mirror generalizing start startTwin with
  | nil => exact begin
  | one beside _ inductionHypothesis =>
      rw [List.foldl_cons, one _ _ beside]
      exact inductionHypothesis begin
  | @two item items others beside _ inductionHypothesis =>
      show related (items.foldl step start) (others.foldl twin (twin startTwin item))
      rw [two _ _ beside]
      exact inductionHypothesis begin
  | both corresponding _ inductionHypothesis =>
      exact inductionHypothesis (both _ _ _ _ begin corresponding)

end Mirror

namespace Walk

/-! ## The other way round -/

/-- The second walk first. -/
def Outset.swap (outset : Outset) : Outset where
  one := outset.two
  two := outset.one
  shares first second := outset.shares second first
  known shared := (outset.known shared).symm
  unique shared other := (outset.unique shared other).symm

section

variable {outset : Outset} {stage : Stage} {node : ValueNode} {first second : NodeId}

theorem Twins.swap (twins : Twins outset stage node first second) :
    Twins outset.swap stage node second first := by
  cases twins with
  | shared shares foundOne foundTwo bareOne bareTwo =>
      exact .shared shares foundTwo foundOne bareTwo bareOne
  | made found => exact .made found

theorem Paired.swap (paired : Paired outset stage first second) :
    Paired outset.swap stage second first :=
  paired.imp fun _ twins => twins.swap

theorem Receivers.swap (receivers : Receivers outset stage first second) :
    Receivers outset.swap stage second first :=
  receivers.imp fun _ known => ⟨known.1.swap, known.2⟩

theorem PairedScopes.swap {one two : Nat} (paired : PairedScopes outset stage one two) :
    PairedScopes outset.swap stage two one := by
  cases paired with
  | outer => exact .outer
  | entered known => exact .entered known

theorem PairedKeys.swap {one two : VarKey} (paired : PairedKeys outset stage one two) :
    PairedKeys outset.swap stage two one :=
  ⟨paired.scopes.swap, paired.name_eq.symm⟩

theorem PairedMentions.swap {one two : NodeId × VarKey}
    (paired : PairedMentions outset stage one two) : PairedMentions outset.swap stage two one :=
  ⟨paired.value.swap, paired.key.swap⟩

theorem PairedFlows.swap {one two : VarKey × NodeId} (paired : PairedFlows outset stage one two) :
    PairedFlows outset.swap stage two one :=
  ⟨paired.key.swap, paired.value.swap⟩

theorem PairedSites.swap {one two : NodeId × Nat} (paired : PairedSites outset stage one two) :
    PairedSites outset.swap stage two one :=
  ⟨paired.node.swap, paired.scope.swap⟩

theorem PairedEdges.swap {one two : Edge} (paired : PairedEdges outset stage one two) :
    PairedEdges outset.swap stage two one :=
  ⟨paired.source.swap, paired.target.swap, paired.kind_eq.symm⟩

theorem PairedSinks.swap {one two : Sink} (paired : PairedSinks outset stage one two) :
    PairedSinks outset.swap stage two one :=
  ⟨paired.value.swap, paired.target.swap, paired.kind_eq.symm, paired.reason_eq.symm,
    paired.position_eq.symm⟩

theorem PairedAccesses.swap {one two : Access} (paired : PairedAccesses outset stage one two) :
    PairedAccesses outset.swap stage two one :=
  ⟨paired.base.swap, paired.node.swap, paired.field_eq.symm, paired.type_eq.symm⟩

theorem PairedRecords.swap {config : Config} {one two : Option EscapeRecord}
    (paired : PairedRecords config first second one two) :
    PairedRecords config second first two one := by
  rcases paired with ⟨none, noneTwo⟩ | ⟨objectType, className, position, count, one, two⟩
  · exact .inl ⟨noneTwo, none⟩
  · exact .inr ⟨objectType, className, position, count, two, one⟩

end

/-! ## Isolated parts -/

section

variable (outset : Outset) (stage : Stage)

/-- A value of the first walk lies in the part that is mirrored. -/
def Inner (id : NodeId) : Prop :=
  ∃ other, Paired outset stage id other

/-- A scope of the first walk lies in the part that is mirrored. -/
def InnerScope (scope : Nat) : Prop :=
  ∃ other, PairedScopes outset stage scope other

/-- Some values and scopes of the first walk lie outside of the part that is mirrored. -/
structure Beside (ids : List NodeId) (scopes : List Nat) : Prop where
  values : ∀ id ∈ ids, ¬ Inner outset stage id
  scopes : ∀ scope ∈ scopes, ¬ InnerScope outset stage scope

/-- What has been noted outside. -/
abbrev BesideMention (mention : NodeId × VarKey) : Prop :=
  Beside outset stage [mention.1] [mention.2.scope]

abbrev BesideFlow (flow : VarKey × NodeId) : Prop :=
  Beside outset stage [flow.2] [flow.1.scope]

abbrev BesideSink (sink : Sink) : Prop :=
  Beside outset stage [sink.value, sink.target] []

abbrev BesideAccess (access : Access) : Prop :=
  Beside outset stage [access.base, access.node] []

abbrev BesideSite (site : NodeId × Nat) : Prop :=
  Beside outset stage [site.1] [site.2]

abbrev BesideEdge (edge : Edge) : Prop :=
  Beside outset stage [edge.source, edge.target] []

end

/-- What two walks made in step is joined to nothing else in either. -/
structure Isolated (config : Config) (outset : Outset) (stage : Stage) (one two : Walk) : Prop where
  sound_one : one.Sound
  sound_two : two.Sound
  orderly_one : one.Orderly config
  orderly_two : two.Orderly config
  scopes_unique : ∀ {first second other another}, PairedScopes outset stage first second →
    PairedScopes outset stage other another → (first = other ↔ second = another)
  kind?_eq : ∀ {node first second}, Twins outset stage node first second →
    one.kind? first = some node.kind ∧ two.kind? second = some node.kind
  records : ∀ {first second}, Paired outset stage first second →
    PairedRecords config first second (one.records.find? first) (two.records.find? second)
  edges_one : ∀ edge ∈ one.graph.values.edges, BesideEdge outset stage edge ∨
    ∃ other ∈ two.graph.values.edges, PairedEdges outset stage edge other
  edges_two : ∀ edge ∈ two.graph.values.edges, BesideEdge outset.swap stage edge ∨
    ∃ other ∈ one.graph.values.edges, PairedEdges outset stage other edge
  mentions : Mirror (PairedMentions outset stage) (BesideMention outset stage)
    (BesideMention outset.swap stage) one.mentions.toList two.mentions.toList
  flows : Mirror (PairedFlows outset stage) (BesideFlow outset stage)
    (BesideFlow outset.swap stage) one.flows.toList two.flows.toList
  sinks : Mirror (PairedSinks outset stage) (BesideSink outset stage)
    (BesideSink outset.swap stage) one.sinks.toList two.sinks.toList
  accesses : Mirror (PairedAccesses outset stage) (BesideAccess outset stage)
    (BesideAccess outset.swap stage) one.accesses.toList two.accesses.toList
  sites : Mirror (PairedSites outset stage) (BesideSite outset stage)
    (BesideSite outset.swap stage) one.sites.toList two.sites.toList
  truncated : Mirror (PairedScopes outset stage) (fun scope => ¬ InnerScope outset stage scope)
    (fun scope => ¬ InnerScope outset.swap stage scope) one.truncated.reverse two.truncated.reverse

namespace Isolated

variable {config : Config} {outset : Outset} {stage : Stage} {one two : Walk}

theorem swap (isolated : Isolated config outset stage one two) :
    Isolated config outset.swap stage two one where
  sound_one := isolated.sound_two
  sound_two := isolated.sound_one
  orderly_one := isolated.orderly_two
  orderly_two := isolated.orderly_one
  scopes_unique first second := (isolated.scopes_unique first.swap second.swap).symm
  kind?_eq twins := (isolated.kind?_eq twins.swap).symm
  records paired := (isolated.records paired.swap).swap
  edges_one edge listed := (isolated.edges_two edge listed).imp_right
    fun ⟨other, known, paired⟩ => ⟨other, known, paired.swap⟩
  edges_two edge listed := (isolated.edges_one edge listed).imp_right
    fun ⟨other, known, paired⟩ => ⟨other, known, paired.swap⟩
  mentions := isolated.mentions.swap fun _ _ => PairedMentions.swap
  flows := isolated.flows.swap fun _ _ => PairedFlows.swap
  sinks := isolated.sinks.swap fun _ _ => PairedSinks.swap
  accesses := isolated.accesses.swap fun _ _ => PairedAccesses.swap
  sites := isolated.sites.swap fun _ _ => PairedSites.swap
  truncated := isolated.truncated.swap fun _ _ => PairedScopes.swap

variable (isolated : Isolated config outset stage one two) {first second : NodeId}
include isolated

theorem keys_unique {key other twin another : VarKey} (keys : PairedKeys outset stage key twin)
    (others : PairedKeys outset stage other another) : key = other ↔ twin = another := by
  rw [VarKey.mk.injEq, VarKey.mk.injEq, isolated.scopes_unique keys.scopes others.scopes,
    keys.name_eq, others.name_eq]

theorem allocation_iff (paired : Paired outset stage first second) :
    one.kind? first = some .allocation ↔ two.kind? second = some .allocation := by
  obtain ⟨node, twins⟩ := paired
  obtain ⟨kindOne, kindTwo⟩ := isolated.kind?_eq twins
  rw [kindOne, kindTwo]

/-! ## What variables denote -/

/-- Value nodes that correspond belong to variables that correspond. -/
theorem varKey?_rel (paired : Paired outset stage first second) :
    Option.Rel (PairedKeys outset stage) (one.varKey? first) (two.varKey? second) := by
  have found : Option.Rel (PairedMentions outset stage)
      (one.mentions.toList.find? (·.1 = first)) (two.mentions.toList.find? (·.1 = second)) := by
    refine isolated.mentions.find? ?_ ?_ ?_
    · rintro mention beside
      rw [decide_eq_false_iff_not]
      rintro rfl
      exact beside.values _ List.mem_cons_self ⟨second, paired⟩
    · rintro mention beside
      rw [decide_eq_false_iff_not]
      rintro rfl
      exact beside.values _ List.mem_cons_self ⟨first, paired.swap⟩
    · intro mention other mentions
      rw [decide_eq_decide]
      exact mentions.value.unique paired
  rw [varKey?, varKey?, ← Array.find?_toList, ← Array.find?_toList]
  generalize one.mentions.toList.find? (·.1 = first) = mention at found
  generalize two.mentions.toList.find? (·.1 = second) = other at found
  cases found with
  | none => exact .none
  | some mentions => exact .some mentions.key

/-- A value node of a variable lies inside if the variable does. -/
theorem inner_of_varKey? {key : VarKey} (varKey : one.varKey? first = some key)
    (inside : InnerScope outset stage key.scope) : Inner outset stage first := by
  rcases Option.map_eq_some_iff.1 varKey with ⟨mention, found, rfl⟩
  rw [← Array.find?_toList] at found
  have same : mention.1 = first := by simpa using List.find?_some found
  rcases isolated.mentions.exists_other (List.mem_of_find?_eq_some found) with
    beside | ⟨other, -, paired⟩
  · exact absurd inside (beside.scopes _ List.mem_cons_self)
  · exact same ▸ ⟨other.1, paired.value⟩

/-- What a variable inside may denote lies inside, and is mirrored. -/
theorem exists_denotes {key twin : VarKey} (keys : PairedKeys outset stage key twin)
    {allocation : NodeId} (denotes : one.Denotes key allocation) :
    ∃ other, Paired outset stage allocation other ∧ two.Denotes twin other := by
  induction denotes generalizing twin with
  | @allocation key id flows kind =>
      rcases isolated.flows.exists_other (Array.mem_toList_iff.2 flows) with
        beside | ⟨⟨another, other⟩, flowsTwin, paired⟩
      · exact absurd ⟨_, keys.scopes⟩ (beside.scopes _ List.mem_cons_self)
      · obtain rfl := (isolated.keys_unique paired.key keys).1 rfl
        exact ⟨other, paired.value, .allocation (Array.mem_toList_iff.1 flowsTwin)
          ((isolated.allocation_iff paired.value).1 kind)⟩
  | @copy key source id allocation flows kind varKey _ inductionHypothesis =>
      rcases isolated.flows.exists_other (Array.mem_toList_iff.2 flows) with
        beside | ⟨⟨another, other⟩, flowsTwin, paired⟩
      · exact absurd ⟨_, keys.scopes⟩ (beside.scopes _ List.mem_cons_self)
      · obtain rfl := (isolated.keys_unique paired.key keys).1 rfl
        have sources := isolated.varKey?_rel paired.value
        rw [varKey] at sources
        cases varKeyTwin : two.varKey? other with
        | none =>
            rw [varKeyTwin] at sources
            nomatch sources
        | some sourceTwin =>
            rw [varKeyTwin] at sources
            cases sources with
            | some sources =>
                obtain ⟨denoted, pairedDenoted, denotesTwin⟩ := inductionHypothesis sources
                exact ⟨denoted, pairedDenoted, .copy (Array.mem_toList_iff.1 flowsTwin)
                  (mt (isolated.allocation_iff paired.value).2 kind) varKeyTwin denotesTwin⟩

/-- What a variable outside may denote lies outside. -/
theorem innerScope_of_denotes {key : VarKey} {allocation : NodeId}
    (denotes : one.Denotes key allocation) (inside : Inner outset stage allocation) :
    InnerScope outset stage key.scope := by
  induction denotes with
  | allocation flows =>
      rcases isolated.flows.exists_other (Array.mem_toList_iff.2 flows) with
        beside | ⟨other, -, paired⟩
      · exact absurd inside (beside.values _ List.mem_cons_self)
      · exact ⟨_, paired.key.scopes⟩
  | copy flows _ varKey _ inductionHypothesis =>
      rcases isolated.flows.exists_other (Array.mem_toList_iff.2 flows) with
        beside | ⟨other, -, paired⟩
      · exact absurd (isolated.inner_of_varKey? varKey (inductionHypothesis inside))
          (beside.values _ List.mem_cons_self)
      · exact ⟨_, paired.key.scopes⟩

/-! ## Aliases -/

/-- What a value inside may denote lies inside, and is mirrored. -/
theorem exists_mem_aliases (paired : Paired outset stage first second) {allocation : NodeId}
    (listed : allocation ∈ one.resolveAliases.aliases first) :
    ∃ other, Paired outset stage allocation other ∧ other ∈ two.resolveAliases.aliases second := by
  rcases of_mem_aliases_resolveAliases isolated.sound_one listed with
    ⟨rfl, kind⟩ | ⟨key, varKey, denotes⟩
  · refine ⟨second, paired, ?_⟩
    rw [aliases, if_pos (isAllocation_resolveAliases.2 ((isolated.allocation_iff paired).1 kind))]
    exact List.mem_singleton_self second
  · have keys := isolated.varKey?_rel paired
    rw [varKey] at keys
    cases varKeyTwin : two.varKey? second with
    | none =>
        rw [varKeyTwin] at keys
        cases keys
    | some twin =>
        rw [varKeyTwin] at keys
        cases keys with
        | some keys =>
            obtain ⟨other, pairedOther, denotesTwin⟩ := isolated.exists_denotes keys denotes
            exact ⟨other, pairedOther,
              mem_aliases_resolveAliases isolated.sound_two varKeyTwin denotesTwin⟩

/-- What a value outside may denote lies outside. -/
theorem inner_of_mem_aliases {value allocation : NodeId}
    (listed : allocation ∈ one.resolveAliases.aliases value)
    (inside : Inner outset stage allocation) : Inner outset stage value := by
  rcases of_mem_aliases_resolveAliases isolated.sound_one listed with
    ⟨rfl, -⟩ | ⟨key, varKey, denotes⟩
  · exact inside
  · exact isolated.inner_of_varKey? varKey (isolated.innerScope_of_denotes denotes inside)

theorem mem_aliases (paired : Paired outset stage first second) {allocation other : NodeId}
    (allocations : Paired outset stage allocation other)
    (listed : allocation ∈ one.resolveAliases.aliases first) :
    other ∈ two.resolveAliases.aliases second := by
  obtain ⟨another, pairedAnother, listedTwin⟩ := isolated.exists_mem_aliases paired listed
  rwa [(allocations.unique pairedAnother).1 rfl]

/-- Values that correspond may denote the same allocations. -/
theorem mem_aliases_iff (paired : Paired outset stage first second) {allocation other : NodeId}
    (allocations : Paired outset stage allocation other) :
    allocation ∈ one.resolveAliases.aliases first ↔
      other ∈ two.resolveAliases.aliases second :=
  ⟨isolated.mem_aliases paired allocations, isolated.swap.mem_aliases paired.swap allocations.swap⟩

end Isolated

end Walk

end EscapePlan
