import EscapePlan.Proofs.Analysis.Expressions
import EscapePlan.Proofs.Flow.Regions

/-!
# The context of a visit

Whatever a visit does below a node, it comes back: the walk is as deep as before, in the same
scope inside the same scopes, and control is in the region it was in.  There is still a record of
every allocation.  What a visit does does not depend on how deep the walk is, as long as the visits
inside it do not.

`Walker.Returns` says both of two actions, of which the first is made at some depth; it holds of
a visit if it holds of the visits inside it.
-/

namespace EscapePlan

open ControlFlow (Agree Extends Regions edgeLists)

namespace Walk

/-- The walk as it would be at another depth. -/
def atDepth (walk : Walk) (depth : Nat) : Walk :=
  { walk with depth }

theorem atDepth_of_eq {walk : Walk} {depth : Nat} (same : walk.depth = depth) :
    walk.atDepth depth = walk := by
  subst same
  rfl

/-- There is a record of every allocation. -/
def Recorded (walk : Walk) : Prop :=
  ∀ id, walk.kind? id = some .allocation → id ∈ walk.records.keys

theorem Recorded.of_eq {before after : Walk} (recorded : before.Recorded)
    (nodes : after.graph.values.nodes = before.graph.values.nodes)
    (records : after.records = before.records) : after.Recorded := by
  intro id allocates
  rw [kind?, ValueGraph.kind?, ValueGraph.node?, nodes] at allocates
  rw [records]
  exact recorded id allocates

/-- A walk is as deep as another, and in the same scope inside the same scopes. -/
structure Resumes (before after : Walk) : Prop where
  depth_eq : after.depth = before.depth
  scope_eq : after.scope = before.scope
  saved_eq : after.graph.scopes.saved = before.graph.scopes.saved

namespace Resumes

variable {first second third : Walk}

theorem refl (walk : Walk) : Resumes walk walk :=
  ⟨rfl, rfl, rfl⟩

theorem trans (one : Resumes first second) (two : Resumes second third) : Resumes first third :=
  ⟨two.depth_eq.trans one.depth_eq, two.scope_eq.trans one.scope_eq,
    two.saved_eq.trans one.saved_eq⟩

end Resumes

/-- A walk has gone on without going anywhere. -/
structure Idle (before after : Walk) : Prop extends Resumes before after where
  block_eq : after.block = before.block
  agree : Agree edgeLists before.graph.flow after.graph.flow
  recorded : before.Recorded → after.Recorded

namespace Idle

variable {first second third : Walk}

theorem refl (walk : Walk) : Idle walk walk :=
  ⟨.refl walk, rfl, .refl _, id⟩

theorem trans (one : Idle first second) (two : Idle second third) : Idle first third :=
  ⟨one.toResumes.trans two.toResumes, two.block_eq.trans one.block_eq, one.agree.trans two.agree,
    fun recorded => two.recorded (one.recorded recorded)⟩

end Idle

/-- Control is in the region of an entry, where some blocks are known; some of these are joins,
which control may go to from anywhere in the region. -/
structure Dwells (home : BlockId) (blocks joins : List BlockId) (region : BlockId → BlockId)
    (walk : Walk) : Prop where
  regions : walk.graph.flow.Regions region
  block_lt : ∀ block ∈ walk.block :: blocks, block < walk.graph.flow.size
  region_eq : ∀ block ∈ walk.block :: blocks, region block = home
  mem_blocks : ∀ join ∈ joins, join ∈ blocks
  not_entry : ∀ join ∈ joins, join ∉ walk.graph.flow.entries

namespace Dwells

variable {home : BlockId} {blocks joins : List BlockId} {region later : BlockId → BlockId}
  {before after walk : Walk}

/-- The entry of the region is an entry. -/
theorem home_mem (dwells : Dwells home blocks joins region walk) :
    home ∈ walk.graph.flow.entries :=
  dwells.region_eq _ List.mem_cons_self ▸
    dwells.regions.region_mem _ (dwells.block_lt _ List.mem_cons_self)

/-- What was known of blocks stays true, if control is back in the region. -/
theorem last (dwells : Dwells home blocks joins region before)
    (extends_ : Extends before.graph.flow region after.graph.flow later)
    (regions : after.graph.flow.Regions later) (inside : after.block < after.graph.flow.size)
    (back : later after.block = home) : Dwells home blocks joins later after := by
  have old : ∀ block ∈ blocks, block < before.graph.flow.size :=
    fun block member => dwells.block_lt block (List.mem_cons_of_mem _ member)
  refine ⟨regions, ?_, ?_, dwells.mem_blocks, ?_⟩
  · exact List.forall_mem_cons.2 ⟨inside, fun block member =>
      Nat.lt_of_lt_of_le (old block member) extends_.size_le⟩
  · refine List.forall_mem_cons.2 ⟨back, fun block member => ?_⟩
    rw [extends_.region_eq block (old block member)]
    exact dwells.region_eq block (List.mem_cons_of_mem _ member)
  · intro join member entry
    exact dwells.not_entry join member
      (extends_.mem_entries join (old join (dwells.mem_blocks join member)) entry)

/-- Some of what is known may be forgotten. -/
theorem mono {more others : List BlockId} (dwells : Dwells home more others region walk)
    (blocks_subset : ∀ block ∈ blocks, block ∈ more) (joins_subset : ∀ join ∈ joins, join ∈ others)
    (mem_blocks : ∀ join ∈ joins, join ∈ blocks) : Dwells home blocks joins region walk where
  regions := dwells.regions
  block_lt := List.forall_mem_cons.2 ⟨dwells.block_lt _ List.mem_cons_self, fun block member =>
    dwells.block_lt block (List.mem_cons_of_mem _ (blocks_subset block member))⟩
  region_eq := List.forall_mem_cons.2 ⟨dwells.region_eq _ List.mem_cons_self, fun block member =>
    dwells.region_eq block (List.mem_cons_of_mem _ (blocks_subset block member))⟩
  mem_blocks := mem_blocks
  not_entry join member := dwells.not_entry join (joins_subset join member)

/-- Control is still in the region if the walk has not gone anywhere. -/
theorem of_idle (dwells : Dwells home blocks joins region before) (idle : Idle before after) :
    Dwells home blocks joins region after where
  regions := dwells.regions.of_agree idle.agree
  block_lt := by
    rw [idle.block_eq, idle.agree.size_eq]
    exact dwells.block_lt
  region_eq := by
    rw [idle.block_eq]
    exact dwells.region_eq
  mem_blocks := dwells.mem_blocks
  not_entry join member := by
    rw [idle.agree.entries]
    exact dwells.not_entry join member

end Dwells

theorem Idle.extends_ {before after : Walk} (idle : Idle before after)
    (region : BlockId → BlockId) :
    Extends before.graph.flow region after.graph.flow region :=
  ⟨Nat.le_of_eq idle.agree.size_eq.symm, fun _ _ => rfl,
    fun _ _ member => idle.agree.entries ▸ member⟩

end Walk

namespace Walker

open Walk

variable {α β γ : Type}

/-! ## Actions that go nowhere -/

/-- An action does the same at any depth, and does not go anywhere. -/
structure Idles (action : Walker α) : Prop where
  at_depth : ∀ walk depth,
    action (walk.atDepth depth) = ((action walk).1, (action walk).2.atDepth depth)
  idle : ∀ walk, Idle walk (action walk).2

theorem Idles.pure (value : α) : Idles (pure value) :=
  ⟨fun _ _ => rfl, .refl⟩

theorem Idles.bind {action : Walker α} {next : α → Walker β} (first : Idles action)
    (rest : ∀ value, Idles (next value)) : Idles (action >>= next) where
  at_depth walk depth := by
    show next (action (walk.atDepth depth)).1 (action (walk.atDepth depth)).2 = _
    rw [first.at_depth]
    exact (rest _).at_depth _ depth
  idle walk := (first.idle walk).trans ((rest _).idle _)

theorem Idles.get {next : Walk → Walker β} (blind : ∀ walk depth, next (walk.atDepth depth) = next walk)
    (rest : ∀ walk, Idles (next walk)) : Idles (get >>= next) where
  at_depth walk depth := by
    show next (walk.atDepth depth) (walk.atDepth depth) = _
    rw [blind]
    exact (rest walk).at_depth walk depth
  idle walk := (rest walk).idle walk

theorem Idles.map {action : Walker α} (change : α → β) (idles : Idles action) :
    Idles (change <$> action) where
  at_depth walk depth := by
    show (change (action (walk.atDepth depth)).1, (action (walk.atDepth depth)).2) = _
    rw [idles.at_depth]
    rfl
  idle := idles.idle

theorem kind?_addNode (kind : NodeKind) (origin : Option NodeIndex) (position : Option Position)
    (type : ValueType) (walk : Walk) (id : NodeId) :
    (addNode kind origin position type walk).2.kind? id =
      if id = walk.graph.values.size then some kind else walk.kind? id :=
  walk.graph.values.kind?_addNode kind origin position type id

theorem idles_addNode {kind : NodeKind} (other : kind ≠ .allocation) (origin : Option NodeIndex)
    (position : Option Position) (type : ValueType) :
    Idles (addNode kind origin position type) where
  at_depth _ _ := rfl
  idle walk := by
    refine ⟨⟨rfl, rfl, rfl⟩, rfl, .refl _, fun recorded id allocates => ?_⟩
    rw [kind?_addNode] at allocates
    split at allocates
    next => exact absurd (Option.some.inj allocates) other
    next => exact recorded id allocates

theorem idles_addEdge (source target : NodeId) (kind : EdgeKind) :
    Idles (addEdge source target kind) :=
  ⟨fun _ _ => rfl, fun _ => ⟨⟨rfl, rfl, rfl⟩, rfl, .refl _, fun recorded =>
    recorded.of_eq (ValueGraph.nodes_addEdge _ _) rfl⟩⟩

theorem idles_skip : Idles skip :=
  ⟨fun _ _ => rfl, fun _ => ⟨⟨rfl, rfl, rfl⟩, rfl, .refl _, id⟩⟩

theorem idles_truncate : Idles truncate :=
  ⟨fun _ _ => rfl, fun _ => ⟨⟨rfl, rfl, rfl⟩, rfl, .refl _, id⟩⟩

theorem idles_addFlow (key : VarKey) (value : NodeId) : Idles (addFlow key value) :=
  ⟨fun _ _ => rfl, fun _ => ⟨⟨rfl, rfl, rfl⟩, rfl, .refl _, id⟩⟩

theorem idles_bindName (name : StrId) (node : NodeId) : Idles (modifyScopes (·.bind name node)) :=
  ⟨fun _ _ => rfl, fun _ => ⟨⟨rfl, rfl, rfl⟩, rfl, .refl _, id⟩⟩

theorem idles_bindVariable (name : StrId) (node : NodeId) : Idles (bindVariable name node) :=
  ⟨fun _ _ => rfl, fun _ => ⟨⟨rfl, rfl, rfl⟩, rfl, .refl _, id⟩⟩

theorem idles_defineVariable (name : StrId) (node : NodeId) : Idles (defineVariable name node) := by
  refine ⟨fun _ _ => rfl, fun walk => ⟨⟨rfl, rfl, rfl⟩, rfl, ?_, id⟩⟩
  exact (walk.graph.flow.agree_recordDefinition walk.block name.toNat node).of_view (·.1)

theorem idles_readVariable (name : StrId) (origin : NodeIndex) (position : Option Position) :
    Idles (readVariable name origin position) := by
  refine Idles.get (fun _ _ => rfl) fun walk => ?_
  split
  next => exact .pure _
  next =>
    exact (idles_addNode (by decide) _ _ _).bind fun node => (idles_bindVariable name node).bind fun _ =>
      .pure node

theorem idles_addUse (value target : NodeId) : Idles (addUse value target) := by
  refine Idles.get (fun _ _ => rfl) fun walk => ?_
  split
  next => exact idles_addEdge value target .defUse
  next => exact .pure _

theorem idles_addSink (value target : NodeId) (kind : EdgeKind) (reason : EscapeReason)
    (position : Option Position) : Idles (addSink value target kind reason position) :=
  (idles_addUse value target).bind fun _ =>
    ⟨fun _ _ => rfl, fun _ => ⟨⟨rfl, rfl, rfl⟩, rfl, .refl _, id⟩⟩

theorem idles_addAccess (base node : NodeId) (field : Option String) (type : ValueType) :
    Idles (addAccess base node field type) :=
  (idles_addUse base node).bind fun _ =>
    ⟨fun _ _ => rfl, fun _ => ⟨⟨rfl, rfl, rfl⟩, rfl, .refl _, id⟩⟩

theorem idles_passToUnknown (value : NodeId) (origin : Option NodeIndex)
    (position : Option Position) : Idles (passToUnknown value origin position) :=
  (idles_addNode (by decide) _ _ _).bind fun _ => idles_addSink _ _ _ _ _

theorem idles_addAllocation (config : Config) (origin : NodeIndex) (position : Option Position)
    (objectType : ObjectType) (className : Option String) (count : Nat) :
    Idles (addAllocation config origin position objectType className count) where
  at_depth walk depth := by
    rw [addAllocation_eq, addAllocation_eq]
    rfl
  idle walk := by
    rw [addAllocation_eq]
    refine ⟨⟨rfl, rfl, rfl⟩, rfl, .refl _, fun recorded id allocates => ?_⟩
    have kind := (kind?_addNode .allocation (some origin) position (allocatedType objectType) walk
      id).symm.trans allocates
    rw [noteSite, Table.mem_keys_insert, node_siteRecord]
    split at kind
    next same => exact .inl same
    next => exact .inr (recorded id kind)

theorem idles_assignVariable (name : StrId) (target : NodeIndex) (value : Option NodeId)
    (type : ValueType) (position : Option Position) :
    Idles (assignVariable name target value type position) := by
  refine Idles.get (fun _ _ => rfl) fun walk => ?_
  split
  next existing _ =>
    cases value with
    | none => exact .pure _
    | some value => exact (idles_addSink _ _ _ _ _).bind fun _ => .pure _
  next =>
    refine (idles_addNode (by decide) _ _ _).bind fun node => ?_
    refine (idles_defineVariable name node).bind fun key => ?_
    cases value with
    | none => exact .pure _
    | some value =>
        exact (idles_addFlow key value).bind fun _ => (idles_addUse value node).bind fun _ => .pure _

theorem idles_forIn {items : List γ} {body : γ → PUnit → Walker (ForInStep PUnit)}
    (each : ∀ item, Idles (body item .unit)) : Idles (forIn items PUnit.unit body) := by
  induction items with
  | nil => exact .pure _
  | cons item rest inductionHypothesis =>
      rw [List.forIn_cons]
      refine (each item).bind fun step => ?_
      cases step with
      | done => exact .pure _
      | yield => exact inductionHypothesis

theorem idles_mapM {items : List γ} {action : γ → Walker α} (each : ∀ item, Idles (action item)) :
    Idles (items.mapM action) := by
  induction items with
  | nil => exact .pure _
  | cons item rest inductionHypothesis =>
      rw [List.mapM_cons]
      exact (each item).bind fun _ => inductionHypothesis.bind fun _ => .pure _

/-! ## Actions that come back -/

/-- Of two actions the first does at some depth what the second does at any, and a walk comes
back from them, with a record of every allocation: to its scope, and to the region of an entry if
control was there. -/
structure Returns (depth : Nat) (home : BlockId) (blocks joins : List BlockId)
    (first second : Walker α) : Prop where
  at_depth : ∀ walk : Walk,
    first (walk.atDepth depth) = ((second walk).1, (second walk).2.atDepth depth)
  resumes : ∀ walk, Resumes walk (second walk).2
  recorded : ∀ walk, walk.Recorded → (second walk).2.Recorded
  stays : ∀ region walk, Dwells home blocks joins region walk → ∃ later,
    Extends walk.graph.flow region (second walk).2.graph.flow later ∧
      Dwells home blocks joins later (second walk).2

section

variable {depth : Nat} {home : BlockId} {blocks joins : List BlockId}

theorem Idles.returns {action : Walker α} (idles : Idles action) :
    Returns depth home blocks joins action action where
  at_depth walk := idles.at_depth walk depth
  resumes walk := (idles.idle walk).toResumes
  recorded walk := (idles.idle walk).recorded
  stays region walk dwells :=
    ⟨region, (idles.idle walk).extends_ region, dwells.of_idle (idles.idle walk)⟩

theorem Returns.pure (value : α) : Returns depth home blocks joins (pure value) (pure value) :=
  (Idles.pure value).returns

theorem Returns.bind {one two : Walker α} {next other : α → Walker β}
    (first : Returns depth home blocks joins one two)
    (rest : ∀ value, Returns depth home blocks joins (next value) (other value)) :
    Returns depth home blocks joins (one >>= next) (two >>= other) where
  at_depth walk := by
    show next (one (walk.atDepth depth)).1 (one (walk.atDepth depth)).2 = _
    rw [first.at_depth]
    exact (rest _).at_depth _
  resumes walk := (first.resumes walk).trans ((rest _).resumes _)
  recorded walk recorded := (rest _).recorded _ (first.recorded walk recorded)
  stays region walk dwells := by
    obtain ⟨middle, extendsFirst, dwellsMiddle⟩ := first.stays region walk dwells
    obtain ⟨later, extendsRest, dwellsLater⟩ := (rest _).stays middle _ dwellsMiddle
    exact ⟨later, extendsFirst.trans extendsRest, dwellsLater⟩

theorem Returns.map {one two : Walker α} (change : α → β)
    (returns : Returns depth home blocks joins one two) :
    Returns depth home blocks joins (change <$> one) (change <$> two) where
  at_depth walk := by
    show (change (one (walk.atDepth depth)).1, (one (walk.atDepth depth)).2) = _
    rw [returns.at_depth]
    rfl
  resumes := returns.resumes
  recorded := returns.recorded
  stays := returns.stays

theorem Returns.get {next other : Walk → Walker β}
    (rest : ∀ walk : Walk, Returns depth home blocks joins (next (walk.atDepth depth)) (other walk)) :
    Returns depth home blocks joins (get >>= next) (get >>= other) where
  at_depth walk := (rest walk).at_depth walk
  resumes walk := (rest walk).resumes walk
  recorded walk := (rest walk).recorded walk
  stays region walk := (rest walk).stays region walk

/-- The block that control is in may be remembered. -/
theorem returns_currentBlock {next other : BlockId → Walker β}
    (rest : ∀ block, Returns depth home (block :: blocks) joins (next block) (other block)) :
    Returns depth home blocks joins (currentBlock >>= next) (currentBlock >>= other) where
  at_depth walk := (rest walk.block).at_depth walk
  resumes walk := (rest walk.block).resumes walk
  recorded walk := (rest walk.block).recorded walk
  stays region walk dwells := by
    have remembered : Dwells home (walk.block :: blocks) joins region walk :=
      { dwells with
        block_lt := List.forall_mem_cons.2 ⟨dwells.block_lt _ List.mem_cons_self, dwells.block_lt⟩
        region_eq := List.forall_mem_cons.2
          ⟨dwells.region_eq _ List.mem_cons_self, dwells.region_eq⟩
        mem_blocks := fun join member => List.mem_cons_of_mem _ (dwells.mem_blocks join member) }
    obtain ⟨later, extends_, dwellsLater⟩ := (rest walk.block).stays region walk remembered
    exact ⟨later, extends_, dwellsLater.mono (fun _ => List.mem_cons_of_mem _) (fun _ => id)
      dwells.mem_blocks⟩

/-- A new block is put into the region; control may go there from anywhere in it. -/
theorem returns_newBlock {next other : BlockId → Walker β}
    (rest : ∀ block,
      Returns depth home (block :: blocks) (block :: joins) (next block) (other block)) :
    Returns depth home blocks joins (newBlock >>= next) (newBlock >>= other) where
  at_depth walk := (rest walk.graph.flow.size).at_depth (newBlock walk).2
  resumes walk :=
    have added : Resumes walk (newBlock walk).2 := ⟨rfl, rfl, rfl⟩
    added.trans ((rest walk.graph.flow.size).resumes (newBlock walk).2)
  recorded walk := (rest walk.graph.flow.size).recorded (newBlock walk).2
  stays region walk dwells := by
    have added := dwells.regions.newBlock dwells.home_mem
    have size : (newBlock walk).2.graph.flow.size = walk.graph.flow.size + 1 :=
      ControlFlow.size_newBlock walk.graph.flow
    have kept : Dwells home blocks joins
        (Function.update region walk.graph.flow.size home) (newBlock walk).2 :=
      dwells.last added.2 added.1
        (Nat.lt_of_lt_of_le (dwells.block_lt _ List.mem_cons_self) added.2.size_le)
        ((added.2.region_eq _ (dwells.block_lt _ List.mem_cons_self)).trans
          (dwells.region_eq _ List.mem_cons_self))
    have remembered : Dwells home (walk.graph.flow.size :: blocks) (walk.graph.flow.size :: joins)
        (Function.update region walk.graph.flow.size home) (newBlock walk).2 := by
      refine ⟨added.1, ?_, ?_, ?_, ?_⟩
      · exact List.forall_mem_cons.2 ⟨kept.block_lt _ List.mem_cons_self,
          List.forall_mem_cons.2 ⟨size ▸ Nat.lt_succ_self _, fun block member =>
            kept.block_lt block (List.mem_cons_of_mem _ member)⟩⟩
      · exact List.forall_mem_cons.2 ⟨kept.region_eq _ List.mem_cons_self,
          List.forall_mem_cons.2 ⟨Function.update_self .., fun block member =>
            kept.region_eq block (List.mem_cons_of_mem _ member)⟩⟩
      · exact List.forall_mem_cons.2 ⟨List.mem_cons_self, fun join member =>
          List.mem_cons_of_mem _ (dwells.mem_blocks join member)⟩
      · exact List.forall_mem_cons.2
          ⟨fun entry => Nat.lt_irrefl _ (dwells.regions.coherent.entry_lt _ entry), kept.not_entry⟩
    obtain ⟨later, extends_, dwellsLater⟩ := (rest walk.graph.flow.size).stays _ _ remembered
    exact ⟨later, added.2.trans extends_, dwellsLater.mono (fun _ => List.mem_cons_of_mem _)
      (fun _ => List.mem_cons_of_mem _) dwells.mem_blocks⟩

/-- Control may go to a join from any block of the region. -/
theorem returns_connect {source target : BlockId} (known : source ∈ blocks) (join : target ∈ joins) :
    Returns depth home blocks joins (connect source target) (connect source target) where
  at_depth _ := rfl
  resumes _ := ⟨rfl, rfl, rfl⟩
  recorded _ := id
  stays region walk dwells := by
    have same : region source = region target :=
      (dwells.region_eq source (List.mem_cons_of_mem _ known)).trans
        (dwells.region_eq target (List.mem_cons_of_mem _ (dwells.mem_blocks target join))).symm
    have added := dwells.regions.addEdge same (dwells.not_entry target join)
    refine ⟨region, added.2, dwells.last added.2 added.1 ?_ (dwells.region_eq _ List.mem_cons_self)⟩
    exact Nat.lt_of_lt_of_le (dwells.block_lt _ List.mem_cons_self) added.2.size_le

theorem returns_moveTo {block : BlockId} (known : block ∈ blocks) :
    Returns depth home blocks joins (moveTo block) (moveTo block) where
  at_depth _ := rfl
  resumes _ := ⟨rfl, rfl, rfl⟩
  recorded _ := id
  stays region walk dwells := by
    refine ⟨region, .refl _ region, { dwells with block_lt := ?_, region_eq := ?_ }⟩
    · exact List.forall_mem_cons.2 ⟨dwells.block_lt block (List.mem_cons_of_mem _ known),
        fun other member => dwells.block_lt other (List.mem_cons_of_mem _ member)⟩
    · exact List.forall_mem_cons.2 ⟨dwells.region_eq block (List.mem_cons_of_mem _ known),
        fun other member => dwells.region_eq other (List.mem_cons_of_mem _ member)⟩

/-- A branch begins with a new block, which is a join. -/
theorem returns_branchFrom {source : BlockId} {next other : BlockId → Walker β}
    (known : source ∈ blocks)
    (rest : ∀ block,
      Returns depth home (block :: blocks) (block :: joins) (next block) (other block)) :
    Returns depth home blocks joins (branchFrom source >>= next) (branchFrom source >>= other) := by
  show Returns depth home blocks joins
    (newBlock >>= fun block => connect source block >>= fun _ => moveTo block >>= fun _ => next block)
    (newBlock >>= fun block => connect source block >>= fun _ => moveTo block >>= fun _ => other block)
  refine returns_newBlock fun block => ?_
  refine (returns_connect (List.mem_cons_of_mem _ known) List.mem_cons_self).bind fun _ => ?_
  exact (returns_moveTo List.mem_cons_self).bind fun _ => rest block

theorem returns_leaveControl : Returns depth home blocks joins leaveControl leaveControl :=
  returns_newBlock fun _ => returns_moveTo List.mem_cons_self

theorem returns_forIn {items : List γ} {body other : γ → PUnit → Walker (ForInStep PUnit)}
    (each : ∀ item, Returns depth home blocks joins (body item .unit) (other item .unit)) :
    Returns depth home blocks joins (forIn items PUnit.unit body) (forIn items PUnit.unit other) := by
  induction items with
  | nil => exact .pure _
  | cons item rest inductionHypothesis =>
      rw [List.forIn_cons, List.forIn_cons]
      refine (each item).bind fun step => ?_
      cases step with
      | done => exact .pure _
      | yield => exact inductionHypothesis

theorem returns_mapM {items : List γ} {action other : γ → Walker α}
    (each : ∀ item, Returns depth home blocks joins (action item) (other item)) :
    Returns depth home blocks joins (items.mapM action) (items.mapM other) := by
  induction items with
  | nil => exact .pure _
  | cons item rest inductionHypothesis =>
      rw [List.mapM_cons, List.mapM_cons]
      exact (each item).bind fun _ => inductionHypothesis.bind fun _ => .pure _

end

end Walker

end EscapePlan
