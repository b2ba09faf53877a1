import EscapePlan.Proofs.Analysis.Names
import EscapePlan.Proofs.Isolation.Lockstep
import Mathlib.Data.Set.Function

/-!
# Walks under merged names

Names may be changed to names that are not all different.  As long as no two names that are used in
one function body come to the same name, variables are told apart as before: `Walk.Echoes` says that
a walk is another one under changed names, and `Walker.Echoes` that two actions keep it so.  Where
control goes is left out of account.
-/

namespace EscapePlan

namespace Walk

/-! ## Names that are told apart -/

/-- A function body that a walk is in: its scope, and the names that may be used in it. -/
structure Body where
  scope : Nat
  names : Set StrId

/-- A walk has noted something about a variable. -/
def HasNoted (walk : Walk) (key : VarKey) : Prop :=
  (∃ mention ∈ walk.mentions, mention.2 = key) ∨ ∃ flow ∈ walk.flows, flow.1 = key

/-- A walk is in some function bodies, the innermost first, and has used none but their names in
them.  Changing names merges neither names of one of the bodies nor variables that are known. -/
structure Distinct (change : StrId → StrId) (bodies : List Body) (walk : Walk) : Prop where
  scope_eq : bodies.head?.map Body.scope = some walk.scope
  scope_le : ∀ body ∈ bodies, body.scope ≤ walk.scopeCount
  nested : bodies.Pairwise fun inner outer => outer.scope < inner.scope
  injective : ∀ body ∈ bodies, Set.InjOn change body.names
  bound : List.Forall₂ (fun bindings body => ∀ binding ∈ bindings, binding.1 ∈ body.names)
    (walk.graph.scopes.current :: walk.graph.scopes.saved) bodies
  known_le : ∀ key, walk.HasNoted key → key.scope ≤ walk.scopeCount
  known_named : ∀ key, walk.HasNoted key → ∀ body ∈ bodies, key.scope = body.scope →
    key.name ∈ body.names
  apart : ∀ key other, walk.HasNoted key → walk.HasNoted other →
    key.rename change = other.rename change → key = other

namespace Distinct

variable {change : StrId → StrId} {body : Body} {bodies outer : List Body} {walk later : Walk}
  {name : StrId}

theorem scope_head (distinct : Distinct change (body :: outer) walk) : walk.scope = body.scope :=
  (Option.some.inj distinct.scope_eq).symm

/-- A variable of the innermost body becomes known. -/
theorem know (distinct : Distinct change (body :: outer) walk) (named : name ∈ body.names)
    (scopes_eq : later.graph.scopes = walk.graph.scopes) (scope_eq : later.scope = walk.scope)
    (scopeCount_eq : later.scopeCount = walk.scopeCount)
    (noted : ∀ key, later.HasNoted key → walk.HasNoted key ∨ key = ⟨body.scope, name⟩) :
    Distinct change (body :: outer) later where
  scope_eq := scope_eq ▸ distinct.scope_eq
  scope_le := scopeCount_eq ▸ distinct.scope_le
  nested := distinct.nested
  injective := distinct.injective
  bound := scopes_eq ▸ distinct.bound
  known_le key known := by
    rw [scopeCount_eq]
    rcases noted key known with old | rfl
    · exact distinct.known_le key old
    · exact distinct.scope_le body List.mem_cons_self
  known_named key known := by
    rcases noted key known with old | rfl
    · exact distinct.known_named key old
    · rintro other (_ | ⟨_, member⟩) same
      · exact named
      · exact absurd same (Nat.ne_of_gt ((List.pairwise_cons.1 distinct.nested).1 other member))
  apart := by
    -- A variable that comes to the same as the new one is of the same scope, so both names are of
    -- the innermost body, where names are told apart.
    have old_new (key : VarKey) (known : walk.HasNoted key)
        (same : key.rename change = VarKey.rename change ⟨body.scope, name⟩) :
        key = ⟨body.scope, name⟩ := by
      obtain ⟨scopes, names⟩ := VarKey.mk.inj same
      have keyNamed := distinct.known_named key known body List.mem_cons_self scopes
      have nameEq := distinct.injective body List.mem_cons_self keyNamed named names
      exact VarKey.mk.injEq .. ▸ ⟨scopes, nameEq⟩
    intro key other knownKey knownOther same
    rcases noted key knownKey with old | rfl
    · rcases noted other knownOther with oldOther | rfl
      · exact distinct.apart key other old oldOther same
      · exact old_new key old same
    · rcases noted other knownOther with oldOther | rfl
      · exact (old_new other oldOther same.symm).symm
      · rfl

/-- A name of the innermost body is bound. -/
theorem bind (distinct : Distinct change (body :: outer) walk) (named : name ∈ body.names)
    (node : NodeId) :
    Distinct change (body :: outer)
      { walk with graph := { walk.graph with scopes := walk.graph.scopes.bind name node } } :=
  { distinct with
    bound := by
      cases distinct.bound with
      | cons first rest => exact .cons (List.forall_mem_cons.2 ⟨named, first⟩) rest }

/-- A body begins. -/
theorem enterBody (distinct : Distinct change bodies walk) {names : Set StrId}
    (injective : Set.InjOn change names) :
    Distinct change (⟨walk.scopeCount + 1, names⟩ :: bodies) (Walker.enterBody walk) where
  scope_eq := rfl
  scope_le := List.forall_mem_cons.2 ⟨Nat.le_refl _, fun body member =>
    Nat.le_succ_of_le (distinct.scope_le body member)⟩
  nested := List.pairwise_cons.2 ⟨fun body member =>
    Nat.lt_succ_of_le (distinct.scope_le body member), distinct.nested⟩
  injective := List.forall_mem_cons.2 ⟨injective, distinct.injective⟩
  bound := .cons (fun _ member => absurd member List.not_mem_nil) distinct.bound
  known_le key known := Nat.le_succ_of_le (distinct.known_le key known)
  known_named key known := List.forall_mem_cons.2
    ⟨fun same => absurd (same ▸ distinct.known_le key known) (Nat.not_succ_le_self _),
      distinct.known_named key known⟩
  apart := distinct.apart

/-- A body ends, and the walk is back in the one around it. -/
theorem leaveBody {inner : Walk} (distinct : Distinct change (body :: outer) walk) {nested : Body}
    (inside : Distinct change (nested :: body :: outer) inner) :
    Distinct change (body :: outer) (Walker.leaveBody walk inner) where
  scope_eq := distinct.scope_eq
  scope_le := (List.forall_mem_cons.1 inside.scope_le).2
  nested := (List.pairwise_cons.1 inside.nested).2
  injective := (List.forall_mem_cons.1 inside.injective).2
  bound := by
    have bound := inside.bound
    rw [Walker.leaveBody, Scopes.pop]
    dsimp only
    cases bound with
    | cons _ rest =>
        cases saved : inner.graph.scopes.saved with
        | nil =>
            rw [saved] at rest
            cases rest
        | cons bindings more =>
            rw [saved] at rest
            exact rest
  known_le := inside.known_le
  known_named key known := (List.forall_mem_cons.1 (inside.known_named key known)).2
  apart := inside.apart

end Distinct

/-! ## Walks under changed names -/

/-- A walk is another one under changed names, but for control flow. -/
structure Echoes (change : StrId → StrId) (bodies : List Body) (one two : Walk) : Prop
    extends Distinct change bodies one where
  values_eq : two.graph.values = one.graph.values
  scopes_eq : two.graph.scopes = one.graph.scopes.rename change
  records_eq : two.records = one.records
  same_scope : two.scope = one.scope
  scopeCount_eq : two.scopeCount = one.scopeCount
  mentions_eq : two.mentions = one.mentions.map fun mention => (mention.1, mention.2.rename change)
  flows_eq : two.flows = one.flows.map fun flow => (flow.1.rename change, flow.2)
  sinks_eq : two.sinks = one.sinks
  accesses_eq : two.accesses = one.accesses
  sites_eq : two.sites = one.sites
  truncated_eq : two.truncated = one.truncated

namespace Echoes

variable {change : StrId → StrId} {body : Body} {bodies outer : List Body}
  {one two other another : Walk}

/-- Control flow does not matter. -/
theorem congr (echoes : Echoes change bodies one two) (sameOne : other.core = one.core)
    (sameTwo : another.core = two.core) : Echoes change bodies other another := by
  have cores : Echoes change bodies other.core another.core := by
    rw [sameOne, sameTwo]
    exact { echoes with }
  exact { cores with }

theorem kind?_eq (echoes : Echoes change bodies one two) : two.kind? = one.kind? := by
  funext id
  rw [kind?, echoes.values_eq]
  rfl

theorem find?_eq (echoes : Echoes change (body :: outer) one two) {name : StrId}
    (named : name ∈ body.names) :
    two.graph.scopes.find? (change name) = one.graph.scopes.find? name := by
  rw [echoes.scopes_eq]
  refine Scopes.find?_rename fun binding member same => ?_
  cases echoes.bound with
  | cons bound _ => exact echoes.injective body List.mem_cons_self (bound binding member) named same

end Echoes

end Walk

namespace Walker

open Walk (Body Echoes)

variable {α β γ δ : Type} {change : StrId → StrId} {body : Body} {bodies outer : List Body}

/-! ## Actions under changed names -/

/-- Two actions keep one walk another one under changed names, and their results correspond. -/
def Echoes (change : StrId → StrId) (bodies : List Body) (corresponds : α → β → Prop)
    (action : Walker α) (twin : Walker β) : Prop :=
  ∀ one two, Walk.Echoes change bodies one two →
    corresponds (action one).1 (twin two).1 ∧ Walk.Echoes change bodies (action one).2 (twin two).2

namespace Echoes

variable {corresponds : α → β → Prop} {next : α → Walker γ} {nextTwin : β → Walker δ}
  {correspondsNext : γ → δ → Prop} {action : Walker α} {twin : Walker β}

theorem pure {value : α} {other : β} (corresponding : corresponds value other) :
    Echoes change bodies corresponds (Pure.pure value : Walker α) (Pure.pure other) :=
  fun _ _ echoes => ⟨corresponding, echoes⟩

theorem bind (first : Echoes change bodies corresponds action twin)
    (rest : ∀ value other, corresponds value other →
      Echoes change bodies correspondsNext (next value) (nextTwin other)) :
    Echoes change bodies correspondsNext (action >>= next) (twin >>= nextTwin) := by
  intro one two echoes
  obtain ⟨corresponding, later⟩ := first one two echoes
  exact rest _ _ corresponding _ _ later

/-- The same value goes on. -/
theorem andThen {next : α → Walker γ} {nextTwin : α → Walker δ} {action twin : Walker α}
    (first : Echoes change bodies Eq action twin)
    (rest : ∀ value, Echoes change bodies correspondsNext (next value) (nextTwin value)) :
    Echoes change bodies correspondsNext (action >>= next) (twin >>= nextTwin) := by
  refine first.bind ?_
  rintro value _ rfl
  exact rest value

theorem map {turn : α → γ} {turnTwin : β → δ}
    (echoes : Echoes change bodies corresponds action twin)
    (same : ∀ value other, corresponds value other →
      correspondsNext (turn value) (turnTwin other)) :
    Echoes change bodies correspondsNext (turn <$> action) (turnTwin <$> twin) :=
  fun one two walks => (echoes one two walks).imp_left (same _ _)

/-- Both actions may look at their walks. -/
theorem get {next : Walk → Walker α} {nextTwin : Walk → Walker β}
    (rest : ∀ one two, Walk.Echoes change bodies one two →
      Echoes change bodies corresponds (next one) (nextTwin two)) :
    Echoes change bodies corresponds (MonadState.get >>= next) (MonadState.get >>= nextTwin) :=
  fun one two echoes => rest one two echoes one two echoes

/-- Loops over items that correspond. -/
theorem forIn {items : List γ} {turn : γ → δ} {round : γ → PUnit → Walker (ForInStep PUnit)}
    {roundTwin : δ → PUnit → Walker (ForInStep PUnit)}
    (each : ∀ item ∈ items,
      Echoes change bodies (fun next twin => next = .yield ⟨⟩ ∧ twin = .yield ⟨⟩) (round item ⟨⟩)
        (roundTwin (turn item) ⟨⟩)) :
    Echoes change bodies Eq (ForIn.forIn items PUnit.unit round)
      (ForIn.forIn (items.map turn) PUnit.unit roundTwin) := by
  induction items with
  | nil => exact .pure rfl
  | cons item items inductionHypothesis =>
      rw [List.map_cons, List.forIn_cons, List.forIn_cons]
      obtain ⟨first, rest⟩ := List.forall_mem_cons.1 each
      refine first.bind ?_
      rintro _ _ ⟨rfl, rfl⟩
      exact inductionHypothesis rest

/-- Loops over the same items. -/
theorem forIn_same {items : List γ} {round roundTwin : γ → PUnit → Walker (ForInStep PUnit)}
    (each : ∀ item ∈ items,
      Echoes change bodies (fun next twin => next = .yield ⟨⟩ ∧ twin = .yield ⟨⟩) (round item ⟨⟩)
        (roundTwin item ⟨⟩)) :
    Echoes change bodies Eq (ForIn.forIn items PUnit.unit round)
      (ForIn.forIn items PUnit.unit roundTwin) := by
  have echoes := @forIn γ γ change bodies items id round roundTwin each
  rwa [List.map_id] at echoes

theorem mapM {items : List γ} {turn : γ → δ} {action : γ → Walker α} {twin : δ → Walker β}
    (each : ∀ item ∈ items, Echoes change bodies corresponds (action item) (twin (turn item))) :
    Echoes change bodies (List.Forall₂ corresponds) (items.mapM action)
      ((items.map turn).mapM twin) := by
  induction items with
  | nil => exact .pure .nil
  | cons item items inductionHypothesis =>
      rw [List.map_cons, List.mapM_cons, List.mapM_cons]
      obtain ⟨first, rest⟩ := List.forall_mem_cons.1 each
      exact first.bind fun _ _ corresponding => (inductionHypothesis rest).bind fun _ _ all =>
        .pure (.cons corresponding all)

end Echoes

/-- Control flow does not matter. -/
theorem Quiet.echoesBind {action : Walker α} {twin : Walker β} {next : α → Walker γ}
    {nextTwin : β → Walker δ} {corresponds : γ → δ → Prop} (one : Quiet action) (two : Quiet twin)
    (rest : ∀ value other, Echoes change bodies corresponds (next value) (nextTwin other)) :
    Echoes change bodies corresponds (action >>= next) (twin >>= nextTwin) :=
  fun first second echoes => rest _ _ _ _ (echoes.congr (one first) (two second))

/-! ## Values -/

theorem echoes_addNode (kind : NodeKind) (origin : Option NodeIndex) (position : Option Position)
    (type : ValueType) :
    Echoes change bodies Eq (addNode kind origin position type)
      (addNode kind origin position type) := by
  intro one two echoes
  have added := congrArg (·.addNode kind origin position type) echoes.values_eq
  exact ⟨(congrArg Prod.fst added).symm, { echoes with values_eq := congrArg Prod.snd added }⟩

theorem echoes_addEdge (source target : NodeId) (kind : EdgeKind) :
    Echoes change bodies Eq (addEdge source target kind) (addEdge source target kind) :=
  fun _ _ echoes =>
    ⟨rfl, { echoes with values_eq := congrArg (·.addEdge ⟨source, target, kind⟩) echoes.values_eq }⟩

theorem echoes_addUse (value target : NodeId) :
    Echoes change bodies Eq (addUse value target) (addUse value target) := by
  refine .get fun one two echoes => ?_
  rw [echoes.kind?_eq]
  split
  next => exact echoes_addEdge value target .defUse
  next => exact .pure rfl

/-! ## Notes -/

theorem echoes_truncate : Echoes change bodies Eq truncate truncate := by
  intro one two echoes
  refine ⟨rfl, { echoes with truncated_eq := ?_ }⟩
  show two.scope :: two.truncated = one.scope :: one.truncated
  rw [echoes.same_scope, echoes.truncated_eq]

theorem echoes_addSink (value target : NodeId) (kind : EdgeKind) (reason : EscapeReason)
    (position : Option Position) :
    Echoes change bodies Eq (addSink value target kind reason position)
      (addSink value target kind reason position) :=
  (echoes_addUse value target).andThen fun _ _ _ echoes =>
    ⟨rfl, { echoes with
      sinks_eq := congrArg (·.push ⟨value, target, kind, reason, position⟩) echoes.sinks_eq }⟩

theorem echoes_addAccess (base node : NodeId) (field : Option String) (type : ValueType) :
    Echoes change bodies Eq (addAccess base node field type) (addAccess base node field type) :=
  (echoes_addUse base node).andThen fun _ _ _ echoes =>
    ⟨rfl, { echoes with
      accesses_eq := congrArg (·.push ⟨base, node, field, type⟩) echoes.accesses_eq }⟩

theorem echoes_passToUnknown (value : NodeId) (origin : Option NodeIndex)
    (position : Option Position) :
    Echoes change bodies Eq (passToUnknown value origin position)
      (passToUnknown value origin position) :=
  (echoes_addNode .callArg origin position .unknown).andThen fun arg =>
    echoes_addSink value arg .defUse .passedToUnknown position

theorem echoes_noteSite {one two : Walk} (echoes : Walk.Echoes change bodies one two)
    (record : EscapeRecord) :
    Walk.Echoes change bodies (noteSite record one) (noteSite record two) :=
  { echoes with
    records_eq := congrArg (·.insert record.node record) echoes.records_eq
    sites_eq := by
      show two.sites.push (record.node, two.scope) = one.sites.push (record.node, one.scope)
      rw [echoes.sites_eq, echoes.same_scope] }

theorem echoes_addAllocation (config : Config) (origin : NodeIndex) (position : Option Position)
    (objectType : ObjectType) (className : Option String) (count : Nat) :
    Echoes change bodies Eq (addAllocation config origin position objectType className count)
      (addAllocation config origin position objectType className count) := by
  intro one two echoes
  obtain ⟨-, added⟩ := echoes_addNode .allocation (some origin) position
    (allocatedType objectType) one two echoes
  have size : two.graph.values.size = one.graph.values.size :=
    congrArg ValueGraph.size echoes.values_eq
  rw [addAllocation_eq, addAllocation_eq, size]
  exact ⟨rfl, echoes_noteSite added _⟩

/-! ## Names -/

theorem echoes_bind {name : StrId} (named : name ∈ body.names) (node : NodeId) :
    Echoes change (body :: outer) Eq (modifyScopes (·.bind name node))
      (modifyScopes (·.bind (change name) node)) := by
  intro one two echoes
  refine ⟨rfl, { echoes with toDistinct := echoes.toDistinct.bind named node, scopes_eq := ?_ }⟩
  exact congrArg (·.bind (change name) node) echoes.scopes_eq

/-- A variable under the changed name of one of the innermost body. -/
def KeysEcho (change : StrId → StrId) (body : Body) (name : StrId) (key other : VarKey) : Prop :=
  key = ⟨body.scope, name⟩ ∧ other = ⟨body.scope, change name⟩

theorem echoes_bindVariable {name : StrId} (named : name ∈ body.names) (node : NodeId) :
    Echoes change (body :: outer) (KeysEcho change body name) (bindVariable name node)
      (bindVariable (change name) node) := by
  refine .get fun one two echoes => ?_
  have scope := echoes.toDistinct.scope_head
  have scopeTwin := echoes.same_scope.trans scope
  rw [scope, scopeTwin]
  have mentioned : Echoes change (body :: outer) Eq
      (modify fun walk => { walk with mentions := walk.mentions.push (node, ⟨body.scope, name⟩) })
      (modify fun walk =>
        { walk with mentions := walk.mentions.push (node, ⟨body.scope, change name⟩) }) := by
    intro one two echoes
    refine ⟨rfl, { echoes with
      toDistinct := echoes.toDistinct.know named rfl rfl rfl ?_, mentions_eq := ?_ }⟩
    · rintro key (⟨mention, noted, rfl⟩ | flowed)
      · rcases Array.mem_push.1 noted with old | rfl
        · exact .inl (.inl ⟨mention, old, rfl⟩)
        · exact .inr rfl
      · exact .inl (.inr flowed)
    · show two.mentions.push _ = (one.mentions.push _).map _
      rw [echoes.mentions_eq, Array.map_push]
      rfl
  exact mentioned.andThen fun _ => (echoes_bind named node).andThen fun _ => .pure ⟨rfl, rfl⟩

theorem echoes_defineVariable {name : StrId} (named : name ∈ body.names) (node : NodeId) :
    Echoes change (body :: outer) (KeysEcho change body name) (defineVariable name node)
      (defineVariable (change name) node) :=
  (echoes_bindVariable named node).bind fun _ _ keys =>
    quiet_currentBlock.echoesBind quiet_currentBlock fun _ _ =>
      (quiet_recordDefinition _ _ _).echoesBind (quiet_recordDefinition _ _ _) fun _ _ => .pure keys

theorem echoes_readVariable {name : StrId} (named : name ∈ body.names) (origin : NodeIndex)
    (position : Option Position) :
    Echoes change (body :: outer) Eq (readVariable name origin position)
      (readVariable (change name) origin position) := by
  refine .get fun one two echoes => ?_
  rw [echoes.find?_eq named]
  cases one.graph.scopes.find? name with
  | some node => exact .pure rfl
  | none =>
      exact (echoes_addNode .localVar (some origin) position .unknown).andThen fun node =>
        (echoes_bindVariable named node).bind fun _ _ _ => .pure rfl

theorem echoes_addFlow {name : StrId} (named : name ∈ body.names) {key other : VarKey}
    (keys : KeysEcho change body name key other) (value : NodeId) :
    Echoes change (body :: outer) Eq (addFlow key value) (addFlow other value) := by
  obtain ⟨rfl, rfl⟩ := keys
  intro one two echoes
  refine ⟨rfl, { echoes with
    toDistinct := echoes.toDistinct.know named rfl rfl rfl ?_, flows_eq := ?_ }⟩
  · rintro key (mentioned | ⟨flow, noted, rfl⟩)
    · exact .inl (.inl mentioned)
    · rcases Array.mem_push.1 noted with old | rfl
      · exact .inl (.inr ⟨flow, old, rfl⟩)
      · exact .inr rfl
  · show two.flows.push _ = (one.flows.push _).map _
    rw [echoes.flows_eq, Array.map_push]
    rfl

end Walker

end EscapePlan
