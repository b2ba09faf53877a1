import EscapePlan.Proofs.Analysis.Loops

/-!
# Functions and closures

A closure makes the nodes of the names it captures before it walks its body, where they
become nodes of these names.  Until then they wait: no variable has them.
-/

namespace EscapePlan

namespace Walk

/-- Only new nodes have become nodes of variables. -/
structure Fresh (before after : Walk) : Prop where
  size_le : before.graph.values.size ≤ after.graph.values.size
  mentions : ∀ mention ∈ after.mentions,
    mention ∈ before.mentions ∨ before.graph.values.size ≤ mention.1

namespace Fresh

variable {first second third : Walk}

theorem refl (walk : Walk) : Fresh walk walk :=
  ⟨Nat.le_refl _, fun _ member => .inl member⟩

theorem trans (one : Fresh first second) (two : Fresh second third) : Fresh first third := by
  refine ⟨Nat.le_trans one.size_le two.size_le, fun mention member => ?_⟩
  rcases two.mentions mention member with old | new
  · exact one.mentions mention old
  · exact .inr (Nat.le_trans one.size_le new)

theorem of_same (same : Same first second) : Fresh first second where
  size_le := Nat.le_of_eq (congrArg Array.size same.nodes_eq).symm
  mentions _ member := .inl (same.mentions_eq ▸ member)

theorem of_push {key : VarKey} (size_le : first.graph.values.size ≤ second.graph.values.size)
    (mentions : second.mentions = first.mentions.push (first.graph.values.size, key)) :
    Fresh first second := by
  refine ⟨size_le, fun mention member => ?_⟩
  rw [mentions, Array.mem_push] at member
  rcases member with old | rfl
  · exact .inl old
  · exact .inr (Nat.le_refl _)

end Fresh

/-- Nodes of captured names that are no nodes of variables yet. -/
structure Waiting (ids : List NodeId) (walk : Walk) : Prop where
  nodup : ids.Nodup
  kind_eq : ∀ id ∈ ids, walk.kind? id = some .closureCapture
  unmentioned : ∀ id ∈ ids, Walker.Unmentioned id walk

theorem Waiting.nil (walk : Walk) : Waiting [] walk :=
  ⟨List.nodup_nil, fun _ member => absurd member List.not_mem_nil,
    fun _ member => absurd member List.not_mem_nil⟩

theorem Waiting.mono {ids : List NodeId} {before after : Walk} (waiting : Waiting ids before)
    (grows : Grows before after) (fresh : Fresh before after) : Waiting ids after where
  nodup := waiting.nodup
  kind_eq id member := grows.kind?_eq (waiting.kind_eq id member)
  unmentioned id member := by
    intro mention mentioned same
    rcases fresh.mentions mention mentioned with old | new
    · exact waiting.unmentioned id member mention old same
    · rw [same] at new
      exact Nat.not_le_of_lt (Walker.kind?_lt (waiting.kind_eq id member)) new

end Walk

namespace Walker

open Walk

variable {α β γ : Type} {law : Law} {scope : Nat} {saved : List Bindings}
  {start finish : Progress} {given : Walk → Prop} {ids : List NodeId}

/-! ## Actions that introduce variables -/

/-- An action makes only new nodes the nodes of variables. -/
def Introduces (action : Walker α) : Prop :=
  ∀ walk, Fresh walk (action walk).2

theorem Neutral.introduces {action : Walker α} (neutral : Neutral action) : Introduces action :=
  fun walk => .of_same (neutral walk)

theorem Introduces.pure (value : α) : Introduces (pure value) :=
  fun walk => .refl walk

theorem Introduces.bind {action : Walker α} {next : α → Walker β} (first : Introduces action)
    (rest : ∀ value, Introduces (next value)) : Introduces (action >>= next) :=
  fun walk => (first walk).trans (rest _ _)

theorem introduces_addNode (kind : NodeKind) (origin : Option NodeIndex)
    (position : Option Position) (type : ValueType) :
    Introduces (addNode kind origin position type) := by
  intro walk
  refine ⟨?_, fun _ member => .inl member⟩
  exact Nat.le_of_lt (Nat.lt_of_lt_of_eq (Nat.lt_succ_self _)
    (ValueGraph.size_addNode _ kind origin position type).symm)

theorem introduces_readVariable (name : StrId) (origin : NodeIndex) (position : Option Position) :
    Introduces (readVariable name origin position) := by
  apply neutral_get.introduces.bind
  intro before
  split
  next => exact .pure _
  next =>
    intro walk
    exact .of_push (introduces_addNode .localVar (some origin) position .unknown walk).size_le rfl

theorem introduces_addSink (value target : NodeId) (kind : EdgeKind) (reason : EscapeReason)
    (position : Option Position) : Introduces (addSink value target kind reason position) :=
  (neutral_addUse value target).introduces.bind fun _ _ =>
    ⟨Nat.le_refl _, fun _ member => .inl member⟩

theorem introduces_addAllocation (config : Config) (origin : NodeIndex)
    (position : Option Position) (objectType : ObjectType) (className : Option String)
    (count : Nat) : Introduces (addAllocation config origin position objectType className count) := by
  intro walk
  have fresh := introduces_addNode .allocation (some origin) position (allocatedType objectType) walk
  rw [addAllocation_eq]
  exact ⟨fresh.size_le, fresh.mentions⟩

theorem introduces_forIn {items : List γ} {body : γ → PUnit → Walker (ForInStep PUnit)}
    (round : ∀ item, Introduces (body item ⟨⟩)) : Introduces (forIn items ⟨⟩ body) := by
  induction items with
  | nil => exact .pure _
  | cons item rest inductionHypothesis =>
      rw [List.forIn_cons]
      apply (round item).bind
      intro next
      cases next with
      | done => exact .pure _
      | yield => exact inductionHypothesis

/-- Nodes go on waiting. -/
theorem Introduces.runsGiven {action : Walker α} {holds : α → Walk → Prop}
    (introduces : Introduces action)
    (runs : Runs law scope saved start given action finish holds) :
    Runs law scope saved start (fun walk => given walk ∧ Waiting ids walk) action finish
      fun value walk => holds value walk ∧ Waiting ids walk := by
  rintro walk at_ ⟨facts, waiting⟩
  rcases runs walk at_ facts with ⟨grows, atFinish, holdsValue⟩
  exact ⟨grows, atFinish, holdsValue, waiting.mono grows (introduces walk)⟩

theorem Introduces.runs {action : Walker α} {holds : α → Walk → Prop}
    (introduces : Introduces action)
    (runs : Runs law scope saved start (fun _ => True) action finish holds) :
    Runs law scope saved start (Waiting ids) action finish
      fun value walk => holds value walk ∧ Waiting ids walk :=
  (introduces.runsGiven runs).weaken fun _ waiting => ⟨trivial, waiting⟩

theorem introduces_parameter (param : StrId) (position : Option Position) {next : Walker β}
    (rest : Introduces next) :
    Introduces (do
      let node ← addNode .parameter none position .unknown
      let _ ← defineVariable param node
      next) := by
  intro walk
  have fresh := introduces_addNode .parameter none position .unknown walk
  have defined : Fresh walk
      ((addNode .parameter none position .unknown >>= defineVariable param) walk).2 :=
    .of_push fresh.size_le rfl
  exact defined.trans (rest _)

theorem Neutral.waits {action : Walker α} (neutral : Neutral action) :
    Runs law scope saved start (Waiting ids) action start fun _ walk => Waiting ids walk :=
  fun walk at_ waiting => ⟨(neutral walk).grows, (neutral walk).at_ at_,
    waiting.mono (neutral walk).grows (.of_same (neutral walk))⟩

/-! ## Bodies -/

theorem runs_parameters (params : List StrId) (position : Option Position)
    (empty : start.globals = []) :
    Runs law scope saved start (Waiting ids)
      (forIn params PUnit.unit fun param _ => do
        let node ← addNode .parameter none position .unknown
        let _ ← defineVariable param node
        return .yield PUnit.unit)
      start fun _ walk => Waiting ids walk := by
  have runs : Runs law scope saved start (fun _ => True)
      (forIn params PUnit.unit fun param _ => do
        let node ← addNode .parameter none position .unknown
        let _ ← defineVariable param node
        return .yield PUnit.unit)
      start fun _ walk => ∀ param ∈ params, True := by
    apply runs_forIn_constant
    intro param _
    apply (runs_addNode_new .parameter none position .unknown).bind
    intro node
    have defines :=
      @runs_defineVariable law scope saved start param node .parameter rfl
    rw [filter_globals_eq (empty ▸ List.not_mem_nil)] at defines
    apply defines.bind
    intro key
    exact Runs.pure fun _ _ => ⟨rfl, trivial⟩
  have introduces := fun param =>
    @introduces_parameter (ForInStep PUnit) param position (pure (.yield ⟨⟩)) (.pure _)
  intro walk at_ waiting
  rcases (introduces_forIn introduces).runs runs walk at_ waiting with
    ⟨grows, atFinish, -, waits⟩
  exact ⟨grows, atFinish, waits⟩

/-- Binding a captured name makes its node wait no longer. -/
theorem runs_bindCapture (name : StrId) (capture : NodeId) (empty : start.globals = []) :
    Runs law scope saved start (Waiting (capture :: ids)) (defineVariable name capture) start
      fun key walk => key = ⟨scope, name⟩ ∧ Waiting ids walk := by
  intro walk at_ waiting
  have defines :=
    @runs_defineVariable law scope saved start name capture .closureCapture rfl
  rw [filter_globals_eq (empty ▸ List.not_mem_nil)] at defines
  have kindEq := waiting.kind_eq capture List.mem_cons_self
  have unmentioned := waiting.unmentioned capture List.mem_cons_self
  rcases defines walk at_ ⟨kindEq, unmentioned⟩ with ⟨grows, atFinish, keyEq, -⟩
  rcases List.nodup_cons.1 waiting.nodup with ⟨different, nodup⟩
  refine ⟨grows, atFinish, keyEq, nodup, fun id member => ?_, fun id member mention mentioned => ?_⟩
  · exact grows.kind?_eq (waiting.kind_eq id (List.mem_cons_of_mem _ member))
  · have mentions : (defineVariable name capture walk).2.mentions =
        walk.mentions.push (capture, ⟨walk.scope, name⟩) := rfl
    rw [mentions, Array.mem_push] at mentioned
    rcases mentioned with old | rfl
    · exact waiting.unmentioned id (List.mem_cons_of_mem _ member) mention old
    · intro same
      cases same
      exact different member

theorem runs_bindCaptures (captures : List (StrId × NodeId × NodeId)) (empty : start.globals = []) :
    Runs law scope saved start
      (fun walk => (∀ bound ∈ captures, walk.Within (law.flows ⟨scope, bound.1⟩) bound.2.2) ∧
        Waiting (captures.map (·.2.1)) walk)
      (forIn captures PUnit.unit fun (name, capture, captured) _ => do
        let key ← defineVariable name capture
        addFlow key captured
        return .yield PUnit.unit)
      start fun _ walk => ∀ bound ∈ captures, (⟨scope, bound.1⟩, bound.2.2) ∈ walk.flows := by
  induction captures with
  | nil => exact Runs.pure fun _ _ _ member => absurd member List.not_mem_nil
  | cons first rest inductionHypothesis =>
      rcases first with ⟨name, capture, captured⟩
      rw [List.forIn_cons]
      have round : Runs law scope saved start
          (fun walk => walk.Within (law.flows ⟨scope, name⟩) captured ∧
            Waiting (capture :: rest.map (·.2.1)) walk)
          (do
            let key ← defineVariable name capture
            addFlow key captured
            return ForInStep.yield PUnit.unit)
          start fun next walk => next = .yield ⟨⟩ ∧ (⟨scope, name⟩, captured) ∈ walk.flows ∧
            Waiting (rest.map (·.2.1)) walk := by
        apply (runs_bindCapture name capture empty).carry.bind
        rintro key walk at_ ⟨allowed, rfl, waits⟩
        rcases runs_addFlow ⟨scope, name⟩ captured walk at_ allowed with ⟨grows, atFlow, flowed⟩
        exact ⟨grows, atFlow, rfl, flowed, waits.nodup, waits.kind_eq, waits.unmentioned⟩
      have carried : Runs law scope saved start
          (fun walk => (∀ bound ∈ rest, walk.Within (law.flows ⟨scope, bound.1⟩) bound.2.2) ∧
            walk.Within (law.flows ⟨scope, name⟩) captured ∧
              Waiting (capture :: rest.map (·.2.1)) walk) _ start _ := round.carry
      refine Runs.weaken (carried.bind ?_) ?_
      · rintro next walk at_ ⟨allowed, rfl, flowed, waits⟩
        rcases inductionHypothesis walk at_ ⟨allowed, waits⟩ with ⟨grows, atRest, all⟩
        exact ⟨grows, atRest, List.forall_mem_cons.2 ⟨grows.flows _ flowed, all⟩⟩
      · rintro walk ⟨allowed, waiting⟩
        rcases List.forall_mem_cons.1 allowed with ⟨allowedFirst, allowedRest⟩
        exact ⟨allowedRest, allowedFirst, waiting⟩

/-- The walk where a body begins, before there is a region for it. -/
def enterBody (walk : Walk) : Walk :=
  { walk with
    graph := { walk.graph with scopes := walk.graph.scopes.push }
    scope := walk.scopeCount + 1
    scopeCount := walk.scopeCount + 1 }

/-- The walk after a body, back where it was before. -/
def leaveBody (outer inner : Walk) : Walk :=
  { inner with
    graph := { inner.graph with scopes := inner.graph.scopes.pop }
    scope := outer.scope
    block := outer.block
    functions := inner.functions + 1 }

/-- What is done inside the scope of a body. -/
def walkBody (visit : Visit) (params : List StrId) (captures : List (StrId × NodeId × NodeId))
    (body : NodeIndex) (position : Option Position) : Walker (Option NodeId) := do
  moveTo (← newRegion)
  for param in params do
    let node ← addNode .parameter none position .unknown
    let _ ← defineVariable param node
  for (name, capture, captured) in captures do
    let key ← defineVariable name capture
    addFlow key captured
  visit body

theorem visitBody_eq (visit : Visit) (params : List StrId)
    (captures : List (StrId × NodeId × NodeId)) (body : NodeIndex) (position : Option Position)
    (walk : Walk) :
    visitBody visit params captures body position walk =
      ((), leaveBody walk (walkBody visit params captures body position (enterBody walk)).2) := by
  rfl

theorem enterBody_at {walk : Walk} (at_ : At law scope saved start walk) :
    At law (start.scopes + 1) (walk.graph.scopes.current :: saved) start.entered (enterBody walk) where
  scope_eq := congrArg (· + 1) at_.scopeCount_eq
  scopeCount_eq := congrArg (· + 1) at_.scopeCount_eq
  sites_eq := at_.sites_eq
  saved_eq := congrArg (walk.graph.scopes.current :: ·) at_.saved_eq
  bound_global _ member := absurd member List.not_mem_nil
  bound_local _ _ _ found := nomatch found
  sound := { at_.sound with }
  lawful := { at_.lawful with }

/-- The names are back that were bound before. -/
theorem scopes_leaveBody {outer inner : Walk} (saved : inner.graph.scopes.saved =
    outer.graph.scopes.current :: outer.graph.scopes.saved) :
    (leaveBody outer inner).graph.scopes = outer.graph.scopes := by
  show inner.graph.scopes.pop = outer.graph.scopes
  rw [Scopes.pop, saved]

theorem leaveBody_at {outer inner : Walk} {inside : Nat} (at_ : At law scope saved start outer)
    (atInner : At law inside (outer.graph.scopes.current :: saved) finish inner)
    (grows : Grows outer inner) :
    At law scope saved { finish with globals := start.globals } (leaveBody outer inner) := by
  have scopes : (leaveBody outer inner).graph.scopes = outer.graph.scopes :=
    scopes_leaveBody (atInner.saved_eq.trans (at_.saved_eq ▸ rfl))
  constructor
  · exact at_.scope_eq
  · exact atInner.scopeCount_eq
  · exact atInner.sites_eq
  · rw [scopes]
    exact at_.saved_eq
  · intro name member
    rcases at_.bound_global name member with ⟨id, found, known⟩
    exact ⟨id, scopes ▸ found, grows.kind?_eq known⟩
  · intro name absent id found
    rw [scopes] at found
    rcases at_.bound_local name absent id found with ⟨key, kind, known, local_⟩
    exact ⟨grows.varKey?_eq key, kind, grows.kind?_eq known, local_⟩
  · exact { atInner.sound with }
  · exact { atInner.lawful with }

/-- A body is walked in a scope of its own; the names of the surrounding one are back
afterwards. -/
theorem runs_visitBody {visit : Visit} {body : NodeIndex} {note : Walk → Prop} [Lasting note]
    (params : List StrId) (captures : List (StrId × NodeId × NodeId)) (position : Option Position)
    (visits : ∀ outside, Runs law (start.scopes + 1) outside start.entered (fun _ => True)
      (visit body) finish fun _ walk => note walk) :
    Runs law scope saved start
      (fun walk => (∀ bound ∈ captures,
          walk.Within (law.flows ⟨start.scopes + 1, bound.1⟩) bound.2.2) ∧
        Waiting (captures.map (·.2.1)) walk)
      (visitBody visit params captures body position) { finish with globals := start.globals }
      fun _ walk => note walk ∧
        ∀ bound ∈ captures, (⟨start.scopes + 1, bound.1⟩, bound.2.2) ∈ walk.flows := by
  rintro walk at_ ⟨allowed, waiting⟩
  have runs : Runs law (start.scopes + 1) (walk.graph.scopes.current :: saved) start.entered
      (fun walk => (∀ bound ∈ captures,
          walk.Within (law.flows ⟨start.scopes + 1, bound.1⟩) bound.2.2) ∧
        Waiting (captures.map (·.2.1)) walk)
      (walkBody visit params captures body position) finish
      fun _ walk => note walk ∧
        ∀ bound ∈ captures, (⟨start.scopes + 1, bound.1⟩, bound.2.2) ∈ walk.flows := by
    apply neutral_newRegion.waits.carry.bind
    intro region
    apply (neutral_moveTo region).waits.carry.bind
    intro _
    apply (runs_parameters params position rfl).carry.bind
    intro _
    apply (runs_bindCaptures captures rfl).bind
    intro _
    exact (visits _).last fun _ _ noted flowed => ⟨noted, flowed⟩
  rcases runs (enterBody walk) (enterBody_at at_)
    ⟨allowed, waiting.nodup, waiting.kind_eq, waiting.unmentioned⟩ with
    ⟨grows, atInner, noted, flowed⟩
  rw [visitBody_eq]
  have growsInner : Grows walk (walkBody visit params captures body position (enterBody walk)).2 :=
    { grows with }
  have growsLeave (inner : Walk) : Grows inner (leaveBody walk inner) := { Grows.refl inner with }
  exact ⟨growsInner.trans (growsLeave _), leaveBody_at at_ atInner growsInner,
    Lasting.last (growsLeave _) noted, flowed⟩

/-! ## Closures -/

/-- A captured name, its node inside the closure, and what it is captured from: a node of the
name, unless it is global, and a sink. -/
structure Captured (scope : Nat) (progress : Progress) (bound : StrId × NodeId × NodeId)
    (walk : Walk) : Prop where
  mute : bound.1 ∈ progress.globals → walk.Mute bound.2.2
  varKey : bound.1 ∉ progress.globals → walk.varKey? bound.2.2 = some ⟨scope, bound.1⟩
  sunk : ∃ sink, sink ∈ walk.sinks ∧ sink.value = bound.2.2

instance (progress : Progress) (bound : StrId × NodeId × NodeId) :
    Lasting (Captured scope progress bound) where
  last grows captured := by
    constructor
    · exact fun declared => (captured.mute declared).last grows
    · exact fun undeclared => grows.varKey?_eq (captured.varKey undeclared)
    · exact captured.sunk.imp fun sink facts => ⟨grows.sinks sink facts.1, facts.2⟩

/-- Unless it is global, what a name is captured from is known. -/
theorem within_of_captured {walk : Walk} {id : NodeId} {name : StrId} {sources : Source → Prop}
    (mute : name ∈ start.globals → walk.Mute id)
    (varKey : name ∉ start.globals → walk.varKey? id = some ⟨scope, name⟩)
    (allowed : name ∉ start.globals → sources (.named ⟨scope, name⟩)) :
    walk.Within sources id := by
  by_cases declared : name ∈ start.globals
  · exact .inl (mute declared)
  · exact .inr ⟨_, allowed declared, varKey declared⟩

/-- The node of a captured name is made. -/
theorem runs_addCapture (origin : Option NodeIndex) (position : Option Position) :
    Runs law scope saved start (Waiting ids) (addNode .closureCapture origin position .unknown) start
      fun id walk => Waiting (ids ++ [id]) walk := by
  intro walk at_ waiting
  rcases runs_addNode_new .closureCapture origin position .unknown walk at_ trivial with
    ⟨grows, atFinish, known, unmentioned⟩
  have fresh := introduces_addNode .closureCapture origin position .unknown walk
  have waits := waiting.mono grows fresh
  refine ⟨grows, atFinish, List.nodup_append.2 ⟨waits.nodup, List.pairwise_singleton _ _, ?_⟩, ?_, ?_⟩
  · rintro id member _ new rfl
    have before := kind?_lt (waiting.kind_eq id member)
    rw [List.mem_singleton.1 new] at before
    exact Nat.lt_irrefl _ before
  · intro id member
    rcases List.mem_append.1 member with old | new
    · exact waits.kind_eq id old
    · exact List.mem_singleton.1 new ▸ known
  · intro id member
    rcases List.mem_append.1 member with old | new
    · exact waits.unmentioned id old
    · exact List.mem_singleton.1 new ▸ unmentioned

theorem runs_capture (name : StrId) (index : NodeIndex) (position : Option Position)
    (exposes : name ∉ start.globals → law.exposes (.named ⟨scope, name⟩)) :
    Runs law scope saved start (Waiting ids)
      (do
        let captured ← readVariable name index position
        let capture ← addNode .closureCapture (some index) position .unknown
        addSink captured capture .defUse .capturedByClosure position
        return (name, capture, captured))
      start fun bound walk => bound.1 = name ∧ Captured scope start bound walk ∧
        Waiting (ids ++ [bound.2.1]) walk := by
  have reads := @runs_readVariable law scope saved start name index position
  apply ((introduces_readVariable name index position).runs reads).bind
  intro captured
  apply (runs_addCapture (some index) position).carry.bind
  intro capture
  have sinks := @runs_addSink law scope saved start captured capture .defUse .capturedByClosure
    position
  have introduces := introduces_addSink captured capture .defUse .capturedByClosure position
  have sunk : Runs law scope saved start
      (fun walk => ((name ∈ start.globals → walk.Mute captured) ∧
          (name ∉ start.globals → walk.varKey? captured = some ⟨scope, name⟩)) ∧
        Waiting (ids ++ [capture]) walk)
      (addSink captured capture .defUse .capturedByClosure position) start
      fun _ walk => ((name ∈ start.globals → walk.Mute captured) ∧
          (name ∉ start.globals → walk.varKey? captured = some ⟨scope, name⟩)) ∧
        (∃ sink ∈ walk.sinks, sink.value = captured) ∧ Waiting (ids ++ [capture]) walk := by
    apply (introduces.runsGiven sinks).carry.weaken
    rintro walk ⟨read, waiting⟩
    have known := waiting.kind_eq capture (List.mem_append_right _ List.mem_cons_self)
    have allowed := within_of_captured read.1 read.2 exposes
    exact ⟨read, ⟨allowed, receives_of_kind known rfl⟩, waiting⟩
  apply sunk.bind
  intro _
  apply Runs.pure
  rintro walk ⟨⟨mute, varKey⟩, sunk, waiting⟩
  exact ⟨rfl, ⟨mute, varKey, sunk⟩, waiting⟩

theorem runs_captures (captures : List StrId) (index : NodeIndex) (position : Option Position)
    (exposes : ∀ name ∈ captures, name ∉ start.globals → law.exposes (.named ⟨scope, name⟩)) :
    Runs law scope saved start (Waiting ids)
      (captures.mapM fun name => do
        let captured ← readVariable name index position
        let capture ← addNode .closureCapture (some index) position .unknown
        addSink captured capture .defUse .capturedByClosure position
        return (name, capture, captured))
      start fun bounds walk =>
        ((∀ name ∈ captures, ∃ bound ∈ bounds, bound.1 = name) ∧
          ∀ bound ∈ bounds, bound.1 ∈ captures ∧ Captured scope start bound walk) ∧
          Waiting (ids ++ bounds.map (·.2.1)) walk := by
  induction captures generalizing ids with
  | nil =>
      rw [List.mapM_nil]
      apply Runs.pure
      intro walk waiting
      rw [List.map_nil, List.append_nil]
      exact ⟨⟨fun _ member => absurd member List.not_mem_nil,
        fun _ member => absurd member List.not_mem_nil⟩, waiting⟩
  | cons name rest inductionHypothesis =>
      rw [List.mapM_cons]
      rcases List.forall_mem_cons.1 exposes with ⟨exposesFirst, exposesRest⟩
      apply (runs_capture name index position exposesFirst).bind
      rintro bound walk at_ ⟨nameEq, captured, waiting⟩
      rcases inductionHypothesis exposesRest walk at_ waiting with
        ⟨grows, atFinish, ⟨all, each⟩, waits⟩
      rw [List.append_assoc] at waits
      refine ⟨grows, atFinish, ⟨List.forall_mem_cons.2 ⟨?_, fun other member => ?_⟩,
        List.forall_mem_cons.2 ⟨?_, fun other member => ?_⟩⟩, waits⟩
      · exact ⟨bound, List.mem_cons_self, nameEq⟩
      · exact (all other member).imp fun _ found => ⟨List.mem_cons_of_mem _ found.1, found.2⟩
      · exact ⟨nameEq ▸ List.mem_cons_self, Lasting.last grows captured⟩
      · exact ⟨List.mem_cons_of_mem _ (each other member).1, (each other member).2⟩

/-- Every captured value is part of its closure. -/
theorem runs_linkCaptures (bounds : List (StrId × NodeId × NodeId)) (closure : NodeId)
    (listed : ∀ bound ∈ bounds, bound.2.1 ∈ ids) :
    Runs law scope saved start (Waiting ids)
      (forIn bounds PUnit.unit fun (_, capture, _) _ => do
        addEdge capture closure .dataDep
        return ForInStep.yield PUnit.unit)
      start fun _ walk => Waiting ids walk := by
  induction bounds with
  | nil => exact Runs.pure fun _ waiting => waiting
  | cons first rest inductionHypothesis =>
      rcases List.forall_mem_cons.1 listed with ⟨listedFirst, listedRest⟩
      have links : Runs law scope saved start (Waiting ids)
          (addEdge first.2.1 closure .dataDep) start fun _ walk => Waiting ids walk := by
        intro walk at_ waiting
        have other : walk.kind? first.2.1 ≠ some .allocation := by
          rw [waiting.kind_eq first.2.1 listedFirst]
          exact fun same => nomatch same
        have same := @same_addEdge walk first.2.1 closure .dataDep (by decide) other
        exact ⟨same.grows, same.at_ at_, waiting.mono same.grows (.of_same same)⟩
      rw [List.forIn_cons]
      exact links.bind fun _ => inductionHypothesis listedRest

/-- A closure is a site; what it captures is in a sink and flows into its body. -/
theorem runs_visitClosure (config : Config) {visit : Visit} (index : NodeIndex)
    (params captures : List StrId) {body : NodeIndex} (position : Option Position)
    {note : Walk → Prop} [Lasting note]
    (exposes : ∀ name ∈ captures, name ∉ start.globals → law.exposes (.named ⟨scope, name⟩))
    (flows : ∀ name ∈ captures, name ∉ start.globals →
      law.flows ⟨start.scopes + 1, name⟩ (.named ⟨scope, name⟩))
    (visits : ∀ outside, Runs law (start.scopes + 1) outside
      { start with sites := start.sites + 1 }.entered (fun _ => True) (visit body) finish
      fun _ walk => note walk) :
    Runs law scope saved start (fun _ => True)
      (visitClosure config visit index params captures body position)
      { finish with globals := start.globals }
      fun id walk => (walk.sites[start.sites]? = some (id, scope) ∧
          walk.Represents id (.site ⟨start.sites, index⟩)) ∧
        note walk ∧
        ∀ name ∈ captures, ∃ bound, bound.1 = name ∧ Captured scope start bound walk ∧
          (⟨start.scopes + 1, name⟩, bound.2.2) ∈ walk.flows := by
  have binds := @runs_captures law scope saved start [] captures index position exposes
  apply (binds.weaken fun walk _ => .nil walk).bind
  intro bounds
  have allocates := @runs_addAllocation law scope saved start config index position .closure none
    captures.length
  have introduces := introduces_addAllocation config index position .closure none captures.length
  apply (introduces.runs allocates).carry.bind
  intro closure
  have links := @runs_linkCaptures law scope saved { start with sites := start.sites + 1 }
    (bounds.map (·.2.1)) bounds closure fun bound member => List.mem_map_of_mem member
  apply links.carry.carry.bind
  intro _
  have bodies := @runs_visitBody law scope saved { start with sites := start.sites + 1 } finish
    visit body note _ params bounds position visits
  have entered : Runs law scope saved { start with sites := start.sites + 1 }
      (fun walk => ((∀ name ∈ captures, ∃ bound ∈ bounds, bound.1 = name) ∧
          ∀ bound ∈ bounds, bound.1 ∈ captures ∧ Captured scope start bound walk) ∧
        (walk.sites[start.sites]? = some (closure, scope) ∧
          walk.Represents closure (.site ⟨start.sites, index⟩)) ∧
        Waiting (bounds.map (·.2.1)) walk)
      (visitBody visit params bounds body position) { finish with globals := start.globals }
      fun _ walk => ((∀ name ∈ captures, ∃ bound ∈ bounds, bound.1 = name) ∧
          ∀ bound ∈ bounds, bound.1 ∈ captures ∧ Captured scope start bound walk) ∧
        (walk.sites[start.sites]? = some (closure, scope) ∧
          walk.Represents closure (.site ⟨start.sites, index⟩)) ∧
        note walk ∧ ∀ bound ∈ bounds, (⟨start.scopes + 1, bound.1⟩, bound.2.2) ∈ walk.flows := by
    apply bodies.carry.carry.weaken
    rintro walk ⟨⟨all, each⟩, site, waiting⟩
    refine ⟨⟨all, each⟩, site, fun bound member => ?_, waiting⟩
    rcases each bound member with ⟨listed, captured⟩
    exact within_of_captured captured.mute captured.varKey (flows bound.1 listed)
  apply entered.bind
  intro _
  apply Runs.pure
  rintro walk ⟨⟨all, each⟩, site, noted, flowed⟩
  refine ⟨site, noted, fun name member => ?_⟩
  rcases all name member with ⟨bound, listed, rfl⟩
  exact ⟨bound, rfl, (each bound listed).2, flowed bound listed⟩

end Walker

end EscapePlan
