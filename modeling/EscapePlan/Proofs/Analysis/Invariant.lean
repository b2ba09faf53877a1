import EscapePlan.Proofs.Analysis.Occurrence
import Mathlib.Data.List.Infix

/-!
# What holds during a walk

A walk only adds to what it has noted.  At every point it has counted as many scopes and
sites as the evaluation of the tree has, and each name of the current scope is bound to a
global variable exactly if it is in the evaluation, and to a node of its own otherwise.

`Walker.Runs` says of a step of a walk that it keeps this up and what holds after it.
-/

namespace EscapePlan

/-- Whether a node of this kind may belong to a variable. -/
def NodeKind.isVariable : NodeKind → Bool
  | .parameter | .localVar | .closureCapture => true
  | _ => false

/-- Whether a node of this kind is neither an allocation nor a node of a variable. -/
def NodeKind.isMute (kind : NodeKind) : Bool :=
  kind ≠ .allocation && !kind.isVariable

/-- A node defines a variable in some block, or it is the node of a phi. -/
def ControlFlow.Names (flow : ControlFlow) (id : NodeId) : Prop :=
  (∃ number block, flow.block? number = some block ∧
      ∃ definition ∈ block.definitions, definition.node = id) ∨
    ∃ phi ∈ flow.phis, phi.node = id

/-- A name is bound to a global variable at some point. -/
def Progress.IsGlobal (name : StrId) (progress : Progress) : Prop :=
  name ∈ progress.globals

namespace Walk

/-! ## Growing -/

/-- Whatever one state of a walk has noted is noted in another. -/
structure Grows (before after : Walk) : Prop where
  nodes : ∀ id node, before.graph.values.node? id = some node →
    after.graph.values.node? id = some node
  mentions : before.mentions.toList <+: after.mentions.toList
  flows : ∀ flow ∈ before.flows, flow ∈ after.flows
  sinks : ∀ sink ∈ before.sinks, sink ∈ after.sinks
  accesses : ∀ access ∈ before.accesses, access ∈ after.accesses
  sites : before.sites.toList <+: after.sites.toList
  truncated : ∀ scope ∈ before.truncated, scope ∈ after.truncated

namespace Grows

variable {first second third : Walk}

theorem refl (walk : Walk) : Grows walk walk :=
  ⟨fun _ _ found => found, List.prefix_rfl, fun _ member => member, fun _ member => member,
    fun _ member => member, List.prefix_rfl, fun _ member => member⟩

theorem trans (one : Grows first second) (two : Grows second third) : Grows first third where
  nodes id node found := two.nodes id node (one.nodes id node found)
  mentions := one.mentions.trans two.mentions
  flows flow member := two.flows flow (one.flows flow member)
  sinks sink member := two.sinks sink (one.sinks sink member)
  accesses access member := two.accesses access (one.accesses access member)
  sites := one.sites.trans two.sites
  truncated scope member := two.truncated scope (one.truncated scope member)

theorem kind?_eq (grows : Grows first second) {id : NodeId} {kind : NodeKind}
    (found : first.kind? id = some kind) : second.kind? id = some kind := by
  rcases Option.map_eq_some_iff.1 found with ⟨node, foundNode, rfl⟩
  exact Option.map_eq_some_iff.2 ⟨node, grows.nodes id node foundNode, rfl⟩

theorem varKey?_eq (grows : Grows first second) {id : NodeId} {key : VarKey}
    (found : first.varKey? id = some key) : second.varKey? id = some key := by
  rcases grows.mentions with ⟨later, equal⟩
  rw [varKey?, ← Array.find?_toList] at found ⊢
  rcases Option.map_eq_some_iff.1 found with ⟨mention, foundMention, rfl⟩
  rw [← equal, List.find?_append, foundMention]
  rfl

theorem site?_eq (grows : Grows first second) {number : Nat} {site : NodeId × Nat}
    (found : first.sites[number]? = some site) : second.sites[number]? = some site := by
  rcases grows.sites with ⟨later, equal⟩
  rw [← Array.getElem?_toList] at found ⊢
  rw [← equal, List.getElem?_append_left (List.getElem?_eq_some_iff.1 found).1]
  exact found

end Grows

/-- A fact that stays true while a walk goes on. -/
class Lasting (fact : Walk → Prop) : Prop where
  last : ∀ {before after : Walk}, Grows before after → fact before → fact after

/-- A value node stands for a site or for a variable. -/
def Represents (walk : Walk) (id : NodeId) : Source → Prop
  | .site site =>
      (∃ scope, walk.sites[site.number]? = some (id, scope)) ∧
        ∃ node, walk.graph.values.node? id = some node ∧ node.kind = .allocation ∧
          node.origin = some site.index
  | .named key => walk.varKey? id = some key

/-- Nothing is known of where the objects of a value come from. -/
def Mute (walk : Walk) (id : NodeId) : Prop :=
  ∃ kind, walk.kind? id = some kind ∧ kind.isMute = true

/-- If the objects of a value come from anything that is known, it is one of some sources. -/
def Within (walk : Walk) (sources : Source → Prop) (id : NodeId) : Prop :=
  walk.Mute id ∨ ∃ source, sources source ∧ walk.Represents id source

theorem Within.mono {walk : Walk} {sources more : Source → Prop} {id : NodeId}
    (within_ : walk.Within sources id) (enough : ∀ source, sources source → more source) :
    walk.Within more id :=
  within_.imp_right fun ⟨source, known, represents⟩ => ⟨source, enough source known, represents⟩

instance : Lasting fun _ => True :=
  ⟨fun _ _ => trivial⟩

instance (fact : Prop) : Lasting fun _ => fact :=
  ⟨fun _ holds => holds⟩

instance (one two : Walk → Prop) [Lasting one] [Lasting two] :
    Lasting fun walk => one walk ∧ two walk :=
  ⟨fun grows holds => ⟨Lasting.last grows holds.1, Lasting.last grows holds.2⟩⟩

instance (one two : Walk → Prop) [Lasting one] [Lasting two] :
    Lasting fun walk => one walk ∨ two walk :=
  ⟨fun grows holds => holds.imp (Lasting.last grows) (Lasting.last grows)⟩

instance (condition : Prop) (fact : Walk → Prop) [Lasting fact] :
    Lasting fun walk => condition → fact walk :=
  ⟨fun grows holds given => Lasting.last grows (holds given)⟩

instance {α : Sort _} (fact : α → Walk → Prop) [∀ item, Lasting (fact item)] :
    Lasting fun walk => ∀ item, fact item walk :=
  ⟨fun grows holds item => Lasting.last grows (holds item)⟩

instance {α : Sort _} (fact : α → Walk → Prop) [∀ item, Lasting (fact item)] :
    Lasting fun walk => ∃ item, fact item walk :=
  ⟨fun grows holds => holds.imp fun _ found => Lasting.last grows found⟩

instance (id : NodeId) (node : ValueNode) :
    Lasting fun walk => walk.graph.values.node? id = some node :=
  ⟨fun grows found => grows.nodes id node found⟩

instance (id : NodeId) (kind : NodeKind) : Lasting fun walk => walk.kind? id = some kind :=
  ⟨fun grows found => grows.kind?_eq found⟩

instance (id : NodeId) (key : VarKey) : Lasting fun walk => walk.varKey? id = some key :=
  ⟨fun grows found => grows.varKey?_eq found⟩

instance (number : Nat) (site : NodeId × Nat) :
    Lasting fun walk => walk.sites[number]? = some site :=
  ⟨fun grows found => grows.site?_eq found⟩

instance (flow : VarKey × NodeId) : Lasting fun walk => flow ∈ walk.flows :=
  ⟨fun grows member => grows.flows flow member⟩

instance (sink : Sink) : Lasting fun walk => sink ∈ walk.sinks :=
  ⟨fun grows member => grows.sinks sink member⟩

instance (access : Access) : Lasting fun walk => access ∈ walk.accesses :=
  ⟨fun grows member => grows.accesses access member⟩

instance (scope : Nat) : Lasting fun walk => scope ∈ walk.truncated :=
  ⟨fun grows member => grows.truncated scope member⟩

instance (id : NodeId) (source : Source) : Lasting fun walk => walk.Represents id source := by
  cases source with
  | site site =>
      show Lasting fun walk => (∃ scope, walk.sites[site.number]? = some (id, scope)) ∧
        ∃ node, walk.graph.values.node? id = some node ∧ node.kind = .allocation ∧
          node.origin = some site.index
      infer_instance
  | named key =>
      show Lasting fun walk => walk.varKey? id = some key
      infer_instance

theorem Represents.last {before after : Walk} (grows : Grows before after) {id : NodeId}
    {source : Source} (represents : before.Represents id source) : after.Represents id source := by
  have lasting : Lasting fun walk => walk.Represents id source := inferInstance
  exact lasting.last grows represents

instance (id : NodeId) : Lasting fun walk => walk.Mute id := by
  unfold Mute
  infer_instance

theorem Mute.last {before after : Walk} (grows : Grows before after) {id : NodeId}
    (mute : before.Mute id) : after.Mute id :=
  mute.imp fun _ known => ⟨grows.kind?_eq known.1, known.2⟩

instance (sources : Source → Prop) (id : NodeId) : Lasting fun walk => walk.Within sources id := by
  unfold Within
  infer_instance

theorem Within.last {before after : Walk} (grows : Grows before after) {sources : Source → Prop}
    {id : NodeId} (within_ : before.Within sources id) : after.Within sources id := by
  have lasting : Lasting fun walk => walk.Within sources id := inferInstance
  exact lasting.last grows within_

end Walk

/-! ## What may be noted -/

/-- What a walk may note. -/
structure Law where
  flows : VarKey → Source → Prop
  exposes : Source → Prop
  accesses : Option String → Source → Prop

namespace Walk

/-- A walk has noted nothing but what a law allows. -/
structure Lawful (law : Law) (walk : Walk) : Prop where
  flows : ∀ flow ∈ walk.flows, walk.Within (law.flows flow.1) flow.2
  sinks : ∀ sink ∈ walk.sinks, walk.Within law.exposes sink.value
  accesses : ∀ access ∈ walk.accesses, walk.Within (law.accesses access.field) access.base

/-- Nothing but what is allowed has been noted if nothing has been noted anew. -/
theorem Lawful.mono {law : Law} {before after : Walk} (lawful : before.Lawful law)
    (grows : Grows before after) (flows_eq : after.flows = before.flows)
    (sinks_eq : after.sinks = before.sinks) (accesses_eq : after.accesses = before.accesses) :
    after.Lawful law where
  flows flow member := (lawful.flows flow (flows_eq ▸ member)).last grows
  sinks sink member := (lawful.sinks sink (sinks_eq ▸ member)).last grows
  accesses access member := (lawful.accesses access (accesses_eq ▸ member)).last grows

/-- An edge that any value but an allocation may have before it is known what variables denote. -/
def Plain (walk : Walk) (edge : Edge) : Prop :=
  edge.kind ≠ .pointsTo ∧ ∃ kind, walk.kind? edge.source = some kind ∧ kind ≠ .allocation

theorem Plain.last {before after : Walk} (grows : Grows before after) {edge : Edge}
    (plain : before.Plain edge) : after.Plain edge :=
  ⟨plain.1, plain.2.imp fun _ known => ⟨grows.kind?_eq known.1, known.2⟩⟩

/-- A sink may lead to a node by an edge of a kind: it leads to no access to a field by a use, and
nowhere by an alias. -/
def Receives (walk : Walk) (kind : EdgeKind) (target : NodeId) : Prop :=
  kind ≠ .pointsTo ∧ (kind = .defUse →
    ∃ nodeKind, walk.kind? target = some nodeKind ∧ nodeKind.isFieldAccess = false)

instance (kind : EdgeKind) (target : NodeId) : Lasting fun walk => walk.Receives kind target := by
  unfold Receives
  infer_instance

theorem Receives.last {before after : Walk} (grows : Grows before after) {kind : EdgeKind}
    {target : NodeId} (receives : before.Receives kind target) : after.Receives kind target :=
  ⟨receives.1, fun use => (receives.2 use).imp fun _ known => ⟨grows.kind?_eq known.1, known.2⟩⟩

/-- What holds at every point of a walk: the nodes of variables are no allocations, the records
are those of the sites, and every access has a node of its own. -/
structure Sound (walk : Walk) : Prop where
  mention_known : ∀ mention ∈ walk.mentions,
    ∃ kind, walk.kind? mention.1 = some kind ∧ kind.isVariable = true
  keys_eq : walk.records.keys = walk.sites.toList.map (·.1)
  site_known : ∀ site ∈ walk.sites, walk.kind? site.1 = some .allocation
  record_new : ∀ key record, walk.records.find? key = some record →
    record.node = key ∧ record.state = .noEscape ∧ record.trail = [] ∧ record.fields = []
  plain : ∀ edge ∈ walk.graph.values.edges, walk.Plain edge
  named : ∀ id, walk.graph.flow.Names id → ∃ key, walk.varKey? id = some key
  access_known : ∀ access ∈ walk.accesses,
    ∃ kind, walk.kind? access.node = some kind ∧ kind.isFieldAccess = access.field.isSome ∧
      kind.initialState = .unknown
  access_nodup : (walk.accesses.toList.map (·.node)).Nodup
  sink_known : ∀ sink ∈ walk.sinks, walk.Receives sink.kind sink.target

/-! ## Where a walk is -/

/-- A walk has come to a point of the evaluation, in a scope inside some others. -/
structure At (law : Law) (scope : Nat) (saved : List Bindings) (progress : Progress)
    (walk : Walk) : Prop where
  scope_eq : walk.scope = scope
  scopeCount_eq : walk.scopeCount = progress.scopes
  sites_eq : walk.sites.size = progress.sites
  saved_eq : walk.graph.scopes.saved = saved
  bound_global : ∀ name ∈ progress.globals, ∃ id,
    walk.graph.scopes.find? name = some id ∧ walk.kind? id = some .globalVar
  bound_local : ∀ name, name ∉ progress.globals → ∀ id,
    walk.graph.scopes.find? name = some id →
      walk.varKey? id = some ⟨scope, name⟩ ∧ ∃ kind, walk.kind? id = some kind ∧ kind ≠ .globalVar
  sound : walk.Sound
  lawful : walk.Lawful law

/-- Only what is global matters about the order in which names became global. -/
theorem At.of_globals {law : Law} {scope : Nat} {saved : List Bindings} {progress other : Progress}
    {walk : Walk} (at_ : At law scope saved progress walk) (scopes : other.scopes = progress.scopes)
    (sites : other.sites = progress.sites)
    (globals : ∀ name, name ∈ other.globals ↔ name ∈ progress.globals) :
    At law scope saved other walk where
  scope_eq := at_.scope_eq
  scopeCount_eq := at_.scopeCount_eq.trans scopes.symm
  sites_eq := at_.sites_eq.trans sites.symm
  saved_eq := at_.saved_eq
  bound_global name member := at_.bound_global name ((globals name).1 member)
  bound_local name absent := at_.bound_local name (mt (globals name).2 absent)
  sound := at_.sound
  lawful := at_.lawful

/-- Two states of a walk that differ in nothing that matters for objects. -/
structure Same (before after : Walk) : Prop where
  nodes_eq : after.graph.values.nodes = before.graph.values.nodes
  scopes_eq : after.graph.scopes = before.graph.scopes
  records_eq : after.records = before.records
  scope_eq : after.scope = before.scope
  scopeCount_eq : after.scopeCount = before.scopeCount
  mentions_eq : after.mentions = before.mentions
  flows_eq : after.flows = before.flows
  sinks_eq : after.sinks = before.sinks
  accesses_eq : after.accesses = before.accesses
  sites_eq : after.sites = before.sites
  truncated_eq : after.truncated = before.truncated
  plain : ∀ edge ∈ after.graph.values.edges, edge ∈ before.graph.values.edges ∨ before.Plain edge
  named : ∀ id, after.graph.flow.Names id → before.graph.flow.Names id

namespace Same

variable {first second third : Walk}

theorem refl (walk : Walk) : Same walk walk :=
  ⟨rfl, rfl, rfl, rfl, rfl, rfl, rfl, rfl, rfl, rfl, rfl, fun _ listed => .inl listed,
    fun _ names => names⟩

theorem node?_eq (same : Same first second) (id : NodeId) :
    second.graph.values.node? id = first.graph.values.node? id := by
  rw [ValueGraph.node?, same.nodes_eq]
  rfl

theorem kind?_eq (same : Same first second) (id : NodeId) : second.kind? id = first.kind? id :=
  congrArg (Option.map ValueNode.kind) (same.node?_eq id)

theorem varKey?_eq (same : Same first second) (id : NodeId) :
    second.varKey? id = first.varKey? id := by
  rw [varKey?, same.mentions_eq]
  rfl

theorem grows (same : Same first second) : Grows first second where
  nodes id _ found := (same.node?_eq id).trans found
  mentions := same.mentions_eq ▸ List.prefix_rfl
  flows _ member := same.flows_eq ▸ member
  sinks _ member := same.sinks_eq ▸ member
  accesses _ member := same.accesses_eq ▸ member
  sites := same.sites_eq ▸ List.prefix_rfl
  truncated _ member := same.truncated_eq ▸ member

theorem trans (one : Same first second) (two : Same second third) : Same first third where
  nodes_eq := two.nodes_eq.trans one.nodes_eq
  scopes_eq := two.scopes_eq.trans one.scopes_eq
  records_eq := two.records_eq.trans one.records_eq
  scope_eq := two.scope_eq.trans one.scope_eq
  scopeCount_eq := two.scopeCount_eq.trans one.scopeCount_eq
  mentions_eq := two.mentions_eq.trans one.mentions_eq
  flows_eq := two.flows_eq.trans one.flows_eq
  sinks_eq := two.sinks_eq.trans one.sinks_eq
  accesses_eq := two.accesses_eq.trans one.accesses_eq
  sites_eq := two.sites_eq.trans one.sites_eq
  truncated_eq := two.truncated_eq.trans one.truncated_eq
  plain edge listed := by
    rcases two.plain edge listed with before | ⟨kind, source, known, other⟩
    · exact one.plain edge before
    · exact .inr ⟨kind, source, one.kind?_eq _ ▸ known, other⟩
  named id names := one.named id (two.named id names)

theorem lawful (same : Same first second) {law : Law} (lawful : first.Lawful law) :
    second.Lawful law :=
  lawful.mono same.grows same.flows_eq same.sinks_eq same.accesses_eq

theorem sound (same : Same first second) (sound : first.Sound) : second.Sound where
  mention_known mention member := by
    rw [same.mentions_eq] at member
    rw [same.kind?_eq]
    exact sound.mention_known mention member
  keys_eq := by
    rw [same.records_eq, same.sites_eq]
    exact sound.keys_eq
  site_known site member := by
    rw [same.sites_eq] at member
    rw [same.kind?_eq]
    exact sound.site_known site member
  record_new key record found := by
    rw [same.records_eq] at found
    exact sound.record_new key record found
  plain edge listed := by
    rcases same.plain edge listed with before | plain
    · exact (sound.plain edge before).last same.grows
    · exact plain.last same.grows
  named id names := by
    rw [same.varKey?_eq]
    exact sound.named id (same.named id names)
  access_known access member := by
    rw [same.accesses_eq] at member
    rw [same.kind?_eq]
    exact sound.access_known access member
  access_nodup := by
    rw [same.accesses_eq]
    exact sound.access_nodup
  sink_known sink member := by
    rw [same.sinks_eq] at member
    exact (sound.sink_known sink member).last same.grows

theorem at_ (same : Same first second) {law : Law} {scope : Nat} {saved : List Bindings}
    {progress : Progress} (at_ : At law scope saved progress first) :
    At law scope saved progress second where
  scope_eq := same.scope_eq.trans at_.scope_eq
  scopeCount_eq := same.scopeCount_eq.trans at_.scopeCount_eq
  sites_eq := (congrArg Array.size same.sites_eq).trans at_.sites_eq
  saved_eq := (congrArg Scopes.saved same.scopes_eq).trans at_.saved_eq
  bound_global name member := by
    simp only [same.scopes_eq, same.kind?_eq]
    exact at_.bound_global name member
  bound_local name absent id found := by
    rw [same.scopes_eq] at found
    simp only [same.varKey?_eq, same.kind?_eq]
    exact at_.bound_local name absent id found
  sound := same.sound at_.sound
  lawful := same.lawful at_.lawful

end Same

/-- Some actions keep a walk where it is, if what they change does not matter for objects. -/
theorem At.mono {law : Law} {scope : Nat} {saved : List Bindings} {progress : Progress}
    {before after : Walk} (at_ : At law scope saved progress before) (grows : Grows before after)
    (scope_eq : after.scope = before.scope) (scopeCount_eq : after.scopeCount = before.scopeCount)
    (sites_eq : after.sites = before.sites)
    (scopes_eq : after.graph.scopes = before.graph.scopes) (sound : after.Sound)
    (lawful : after.Lawful law) :
    At law scope saved progress after where
  scope_eq := scope_eq.trans at_.scope_eq
  scopeCount_eq := scopeCount_eq.trans at_.scopeCount_eq
  sites_eq := (congrArg Array.size sites_eq).trans at_.sites_eq
  saved_eq := (congrArg Scopes.saved scopes_eq).trans at_.saved_eq
  bound_global name member := by
    rcases at_.bound_global name member with ⟨id, found, kind⟩
    exact ⟨id, scopes_eq ▸ found, grows.kind?_eq kind⟩
  bound_local name absent id found := by
    rw [scopes_eq] at found
    rcases at_.bound_local name absent id found with ⟨key, kind, kindEq, other⟩
    exact ⟨grows.varKey?_eq key, kind, grows.kind?_eq kindEq, other⟩
  sound := sound
  lawful := lawful

end Walk

namespace Walker

open Walk

variable {α β : Type} {law : Law} {scope : Nat} {saved : List Bindings}
  {start middle finish : Progress} {given : Walk → Prop}

/-! ## Steps of a walk -/

/-- An action that begins where the evaluation is at some point, with some fact given, brings the
walk to another point; what was noted stays, and something holds of its result. -/
def Runs (law : Law) (scope : Nat) (saved : List Bindings) (start : Progress)
    (given : Walk → Prop) (action : Walker α) (finish : Progress) (holds : α → Walk → Prop) :
    Prop :=
  ∀ walk, At law scope saved start walk → given walk →
    Grows walk (action walk).2 ∧ At law scope saved finish (action walk).2 ∧
      holds (action walk).1 (action walk).2

theorem Runs.pure {holds : α → Walk → Prop} {value : α}
    (holdsValue : ∀ walk, given walk → holds value walk) :
    Runs law scope saved start given (pure value) start holds :=
  fun walk at_ facts => ⟨.refl walk, at_, holdsValue walk facts⟩

theorem Runs.bind {action : Walker α} {next : α → Walker β} {found : α → Walk → Prop}
    {holds : β → Walk → Prop} (first : Runs law scope saved start given action middle found)
    (rest : ∀ value, Runs law scope saved middle (found value) (next value) finish holds) :
    Runs law scope saved start given (action >>= next) finish holds := by
  intro walk at_ facts
  rcases first walk at_ facts with ⟨growsFirst, atMiddle, foundValue⟩
  rcases rest _ _ atMiddle foundValue with ⟨growsRest, atFinish, holdsValue⟩
  exact ⟨growsFirst.trans growsRest, atFinish, holdsValue⟩

/-- What was known before an action is still known after it. -/
theorem Runs.keepGiven {action : Walker α} {found : α → Walk → Prop} [Lasting given]
    (runs : Runs law scope saved start given action finish found) :
    Runs law scope saved start given action finish
      fun value walk => found value walk ∧ given walk := by
  intro walk at_ facts
  rcases runs walk at_ facts with ⟨grows, atFinish, foundValue⟩
  exact ⟨grows, atFinish, foundValue, Lasting.last grows facts⟩

theorem Runs.keep {action : Walker α} {found : α → Walk → Prop} [Lasting given]
    (runs : Runs law scope saved start (fun _ => True) action finish found) :
    Runs law scope saved start given action finish
      fun value walk => found value walk ∧ given walk := by
  intro walk at_ facts
  rcases runs walk at_ trivial with ⟨grows, atFinish, foundValue⟩
  exact ⟨grows, atFinish, foundValue, Lasting.last grows facts⟩

theorem Runs.andThen {action : Walker α} {next : α → Walker β} {found : α → Walk → Prop}
    {holds : β → Walk → Prop} [Lasting given]
    (first : Runs law scope saved start (fun _ => True) action middle found)
    (rest : ∀ value, Runs law scope saved middle (fun walk => found value walk ∧ given walk)
      (next value) finish holds) :
    Runs law scope saved start given (action >>= next) finish holds :=
  first.keep.bind rest

/-- An action may look at the walk before it goes on. -/
theorem Runs.get {next : Walk → Walker β} {holds : β → Walk → Prop}
    (rest : ∀ before, At law scope saved start before → given before →
      Runs law scope saved start (fun walk => walk = before) (next before) finish holds) :
    Runs law scope saved start given (get >>= next) finish holds :=
  fun walk at_ facts => rest walk at_ facts walk at_ rfl

theorem Runs.weaken {action : Walker α} {enough : Walk → Prop} {holds : α → Walk → Prop}
    (runs : Runs law scope saved start enough action finish holds)
    (facts : ∀ walk, given walk → enough walk) :
    Runs law scope saved start given action finish holds :=
  fun walk at_ known => runs walk at_ (facts walk known)

/-- The order in which names became global does not matter, neither before an action nor
after it. -/
theorem Runs.regard {other : Progress} {action : Walker α} {holds : α → Walk → Prop}
    (runs : Runs law scope saved other given action finish holds)
    (scopes : other.scopes = start.scopes) (sites : other.sites = start.sites)
    (globals : ∀ name, name ∈ other.globals ↔ name ∈ start.globals) :
    Runs law scope saved start given action finish holds :=
  fun walk at_ facts => runs walk (at_.of_globals scopes sites globals) facts

theorem Runs.arrive {other : Progress} {action : Walker α} {holds : α → Walk → Prop}
    (runs : Runs law scope saved start given action other holds)
    (scopes : finish.scopes = other.scopes) (sites : finish.sites = other.sites)
    (globals : ∀ name, name ∈ finish.globals ↔ name ∈ other.globals) :
    Runs law scope saved start given action finish holds := by
  intro walk at_ facts
  rcases runs walk at_ facts with ⟨grows, atOther, holdsValue⟩
  exact ⟨grows, atOther.of_globals scopes sites globals, holdsValue⟩

theorem Runs.imp {action : Walker α} {found holds : α → Walk → Prop}
    (runs : Runs law scope saved start given action finish found)
    (enough : ∀ value walk, found value walk → holds value walk) :
    Runs law scope saved start given action finish holds := by
  intro walk at_ facts
  rcases runs walk at_ facts with ⟨grows, atFinish, foundValue⟩
  exact ⟨grows, atFinish, enough _ _ foundValue⟩

theorem Runs.forget {action : Walker α} {holds : α → Walk → Prop}
    (runs : Runs law scope saved start (fun _ => True) action finish holds) :
    Runs law scope saved start given action finish holds :=
  runs.weaken fun _ _ => trivial

/-- What an action finds may be forgotten. -/
theorem Runs.pass {action : Walker α} {next : α → Walker β} {found : α → Walk → Prop}
    {holds : β → Walk → Prop} [Lasting given]
    (first : Runs law scope saved start (fun _ => True) action middle found)
    (rest : ∀ value, Runs law scope saved middle given (next value) finish holds) :
    Runs law scope saved start given (action >>= next) finish holds := by
  intro walk at_ facts
  rcases first.keep walk at_ facts with ⟨growsFirst, atMiddle, -, kept⟩
  rcases rest _ _ atMiddle kept with ⟨growsRest, atFinish, holdsValue⟩
  exact ⟨growsFirst.trans growsRest, atFinish, holdsValue⟩

/-- A lasting fact may be carried past an action. -/
theorem Runs.carry {fact : Walk → Prop} [Lasting fact] {action : Walker α}
    {holds : α → Walk → Prop} (runs : Runs law scope saved start given action finish holds) :
    Runs law scope saved start (fun walk => fact walk ∧ given walk) action finish
      fun value walk => fact walk ∧ holds value walk := by
  rintro walk at_ ⟨carried, facts⟩
  rcases runs walk at_ facts with ⟨grows, atFinish, holdsValue⟩
  exact ⟨grows, atFinish, Lasting.last grows carried, holdsValue⟩

/-- The last action of several. -/
theorem Runs.last {action : Walker α} {found holds : α → Walk → Prop} [Lasting given]
    (runs : Runs law scope saved start (fun _ => True) action finish found)
    (enough : ∀ value walk, found value walk → given walk → holds value walk) :
    Runs law scope saved start given action finish holds := by
  intro walk at_ facts
  rcases runs.keep walk at_ facts with ⟨grows, atFinish, foundValue, kept⟩
  exact ⟨grows, atFinish, enough _ _ foundValue kept⟩

theorem Runs.map {action : Walker α} {change : α → β} {holds : β → Walk → Prop}
    (runs : Runs law scope saved start given action finish fun value => holds (change value)) :
    Runs law scope saved start given (change <$> action) finish holds :=
  runs

end Walker

end EscapePlan
