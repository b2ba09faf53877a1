import EscapePlan.Proofs.Analysis.Depth
import EscapePlan.Proofs.Tree.Pools
import EscapePlan.Tree.Builder

/-!
# Constructions

A tree is built by calls that append nodes and list names, and that answer the index of the last
node or the id of a name.  Whatever a builder has, it has for good, and new nodes are stamped with
the line that was set last.  `TreeBuilder.Builds` says this of an action, and that nodes refer to
what was there before them if the action is asked for nodes that do.

A construction is what some calls have come to.  If each call refers only to what earlier ones have
answered, whatever has been answered is there: `Construction.sound_run`.
-/

namespace EscapePlan

/-- The index of a position is that position or, if it has too few bits, an earlier one. -/
theorem NodeIndex.toNat_ofNat_le (position : Nat) : (ofNat position).toNat ≤ position := by
  rw [toNat, ofNat, UInt32.toNat_ofNat']
  exact Nat.mod_le _ _

/-- The names that a literal refers to. -/
def Literal.names : Literal → List StrId
  | .string value => [value]
  | .null | .bool _ | .int _ | .float _ => []

/-- The names that a node refers to. -/
def NodeData.names : NodeData → List StrId
  | .functionDecl name params _ => name :: params
  | .objectInstantiation name _ | .functionCall name _ | .methodCall _ name _ => [name]
  | .propertyAccess _ name | .var name => [name]
  | .closure params captures _ => params ++ captures
  | .foreachStmt _ key value _ => key.toList ++ [value]
  | .literal value => value.names
  | .global names => names
  | .root _ | .block _ | .assignment .. | .arrayInit _ | .returnStmt _ | .arrayAccess .. => []
  | .ifStmt .. | .whileStmt .. | .forStmt .. | .throwStmt _ | .other => []

namespace TreeBuilder

/-! ## What a builder has -/

/-- There is a node at an index. -/
def Holds (builder : TreeBuilder) (index : NodeIndex) : Prop :=
  index.toNat < builder.nodes.size

/-- An id stands for some text. -/
def Knows (builder : TreeBuilder) (id : StrId) : Prop :=
  ∃ text, builder.strings.resolve? id = some text

/-- A node that is to be appended refers to nodes and names that there are. -/
structure Admits (builder : TreeBuilder) (data : NodeData) : Prop where
  holds : ∀ child ∈ data.children, builder.Holds child
  knows : ∀ id ∈ data.names, builder.Knows id

/-- Nodes refer to nodes before them and to names that there are, and no name is listed twice. -/
structure Orderly (builder : TreeBuilder) : Prop where
  children_lt : ∀ (position : Nat) (node : TreeNode), builder.nodes[position]? = some node →
    ∀ child ∈ node.data.children, child.toNat < position
  knows : ∀ (position : Nat) (node : TreeNode), builder.nodes[position]? = some node →
    ∀ id ∈ node.data.names, builder.Knows id
  nodup : builder.strings.toList.Nodup

/-- What a builder has is there afterwards, and new nodes are stamped as the builder stamps them. -/
structure Extends (before after : TreeBuilder) : Prop where
  size_le : before.nodes.size ≤ after.nodes.size
  kept : ∀ position < before.nodes.size, after.nodes[position]? = before.nodes[position]?
  stamped : ∀ (position : Nat) (node : TreeNode), before.nodes.size ≤ position →
    after.nodes[position]? = some node → node.span = before.span
  resolves : ∀ id text, before.strings.resolve? id = some text →
    after.strings.resolve? id = some text

/-- A builder has more than before, and stamps in the same way. -/
structure Grows (before after : TreeBuilder) : Prop extends Extends before after where
  line_eq : after.line = before.line

variable {α β : Type} {before middle after start : TreeBuilder} {index : NodeIndex} {id : StrId}
  {data : NodeData} {told : TreeBuilder → α → Prop}

theorem Extends.holds (grows : before.Extends after) (holds : before.Holds index) :
    after.Holds index :=
  Nat.lt_of_lt_of_le holds grows.size_le

theorem Extends.knows (grows : before.Extends after) (knows : before.Knows id) :
    after.Knows id :=
  knows.imp (grows.resolves id)

theorem Extends.holds_all {nodes : List NodeIndex} (grows : before.Extends after)
    (holds : ∀ index ∈ nodes, before.Holds index) : ∀ index ∈ nodes, after.Holds index :=
  fun index member => grows.holds (holds index member)

theorem Extends.knows_all {names : List StrId} (grows : before.Extends after)
    (knows : ∀ id ∈ names, before.Knows id) : ∀ id ∈ names, after.Knows id :=
  fun id member => grows.knows (knows id member)

namespace Grows

theorem refl (builder : TreeBuilder) : builder.Grows builder where
  size_le := Nat.le_refl _
  kept _ _ := rfl
  stamped position node beyond found := by
    rw [Array.getElem?_eq_none beyond] at found
    contradiction
  resolves _ _ known := known
  line_eq := rfl

theorem trans (first : before.Grows middle) (second : middle.Grows after) :
    before.Grows after where
  size_le := Nat.le_trans first.size_le second.size_le
  kept position inside := by
    rw [second.kept position (Nat.lt_of_lt_of_le inside first.size_le), first.kept position inside]
  stamped position node beyond found := by
    rcases Nat.lt_or_ge position middle.nodes.size with inside | later
    · rw [second.kept position inside] at found
      exact first.stamped position node beyond found
    · rw [second.stamped position node later found, span, span, first.line_eq]
  resolves id text known := second.resolves id text (first.resolves id text known)
  line_eq := second.line_eq.trans first.line_eq

end Grows

/-! ## Actions on orderly builders -/

/-- An action leaves an orderly builder behind that has more than before, and what it answers is as
told. -/
structure Builds (start : TreeBuilder) (action : Build α) (told : TreeBuilder → α → Prop) :
    Prop where
  grows : start.Grows (action start).2
  orderly : (action start).2.Orderly
  answers : told (action start).2 (action start).1

theorem Builds.pure {value : α} (orderly : start.Orderly) (answers : told start value) :
    Builds start (pure value) told :=
  ⟨.refl start, orderly, answers⟩

theorem Builds.bind {action : Build α} {next : α → Build β} {toldNext : TreeBuilder → β → Prop}
    (first : Builds start action told)
    (rest : ∀ middle value, start.Grows middle → middle.Orderly → told middle value →
      Builds middle (next value) toldNext) :
    Builds start (action >>= next) toldNext :=
  have later := rest _ _ first.grows first.orderly first.answers
  ⟨first.grows.trans later.grows, later.orderly, later.answers⟩

theorem Builds.map {action : Build α} {toldNext : TreeBuilder → β → Prop} {change : α → β}
    (builds : Builds start action told)
    (answers : ∀ after value, told after value → toldNext after (change value)) :
    Builds start (change <$> action) toldNext :=
  ⟨builds.grows, builds.orderly, answers _ _ builds.answers⟩

/-! ## Nodes and names -/

theorem push_eq (data : NodeData) (builder : TreeBuilder) : push data builder =
    (NodeIndex.ofNat builder.nodes.size,
      { builder with nodes := builder.nodes.push ⟨data, builder.span⟩ }) :=
  rfl

/-- A node that is there after one has been appended is an old one or the new one. -/
theorem getElem?_push {position : Nat} {node : TreeNode}
    (found : (push data start).2.nodes[position]? = some node) :
    position < start.nodes.size ∧ start.nodes[position]? = some node ∨
      position = start.nodes.size ∧ node = ⟨data, start.span⟩ := by
  rw [push_eq, Array.getElem?_push] at found
  split at found
  next last => exact .inr ⟨last, (Option.some.inj found).symm⟩
  next => exact .inl ⟨(Array.getElem?_eq_some_iff.1 found).1, found⟩

theorem grows_push (data : NodeData) (builder : TreeBuilder) :
    builder.Grows (push data builder).2 where
  size_le := by
    rw [push_eq, Array.size_push]
    exact Nat.le_succ _
  kept position inside := by
    rw [push_eq, Array.getElem?_push, if_neg (Nat.ne_of_lt inside)]
  stamped position node beyond found := by
    rcases getElem?_push found with ⟨inside, -⟩ | ⟨-, rfl⟩
    · exact absurd beyond (Nat.not_le_of_lt inside)
    · rfl
  resolves _ _ known := known
  line_eq := rfl

theorem builds_push (orderly : start.Orderly) (admits : start.Admits data) :
    Builds start (push data) Holds where
  grows := start.grows_push data
  orderly :=
    { children_lt := fun position node found => by
        rcases getElem?_push found with ⟨-, old⟩ | ⟨rfl, rfl⟩
        · exact orderly.children_lt position node old
        · exact admits.holds
      knows := fun position node found => by
        rcases getElem?_push found with ⟨-, old⟩ | ⟨rfl, rfl⟩
        · exact orderly.knows position node old
        · exact admits.knows
      nodup := orderly.nodup }
  answers := by
    rw [push_eq, Holds, Array.size_push]
    exact Nat.lt_succ_of_le (NodeIndex.toNat_ofNat_le _)

theorem builds_intern (orderly : start.Orderly) (text : String) :
    Builds start (intern text) Knows where
  grows :=
    { size_le := Nat.le_refl _
      kept := fun _ _ => rfl
      stamped := (Grows.refl start).stamped
      resolves := fun _ _ => StringPool.resolve?_intern_of_some text
      line_eq := rfl }
  orderly :=
    { children_lt := orderly.children_lt
      knows := fun position node found id member =>
        (orderly.knows position node found id member).imp fun _ =>
          StringPool.resolve?_intern_of_some text
      nodup := StringPool.nodup_intern orderly.nodup text }
  answers := start.strings.exists_resolve?_intern text

/-- Ids that are known stay known while more names are asked for. -/
theorem builds_internAll (orderly : start.Orderly) (texts : List String) :
    Builds start (texts.mapM intern) fun after ids => ∀ id ∈ ids, after.Knows id := by
  induction texts generalizing start with
  | nil => exact .pure orderly fun _ => nofun
  | cons text texts inductionHypothesis =>
      rw [List.mapM_cons]
      refine (builds_intern orderly text).bind fun _ first _ orderly known =>
        (inductionHypothesis orderly).bind fun _ rest grows orderly knownRest => ?_
      exact .pure orderly (List.forall_mem_cons.2 ⟨grows.knows known, knownRest⟩)

/-- A node that refers to a name is appended once the name has an id. -/
theorem builds_named (orderly : start.Orderly) (text : String) {data : StrId → NodeData}
    {children : List NodeIndex} (childrenEq : ∀ id, (data id).children = children)
    (namesEq : ∀ id, (data id).names = [id]) (holds : ∀ child ∈ children, start.Holds child) :
    Builds start (do push (data (← intern text))) Holds := by
  refine (builds_intern orderly text).bind fun middle id grows orderly knows => ?_
  refine builds_push orderly ⟨?_, ?_⟩
  · rw [childrenEq]
    exact fun child member => grows.holds (holds child member)
  · rw [namesEq, List.forall_mem_singleton]
    exact knows

theorem builds_var (orderly : start.Orderly) (name : String) :
    Builds start (var name) Holds :=
  builds_named orderly name (fun _ => rfl) (fun _ => rfl) nofun

theorem builds_block (orderly : start.Orderly) {statements : List NodeIndex}
    (holds : ∀ statement ∈ statements, start.Holds statement) :
    Builds start (block statements) Holds :=
  builds_push orderly ⟨holds, nofun⟩

/-- A node that refers to a block of statements is appended after it. -/
theorem builds_overBlock (orderly : start.Orderly) {statements : List NodeIndex}
    {data : NodeIndex → NodeData} (holds : ∀ statement ∈ statements, start.Holds statement)
    (admits : ∀ middle block, start.Grows middle → middle.Holds block →
      middle.Admits (data block)) :
    Builds start (do push (data (← block statements))) Holds :=
  (builds_block orderly holds).bind fun middle block grows orderly holdsBlock =>
    builds_push orderly (admits middle block grows holdsBlock)

/-! ## Constructs of several parts -/

theorem builds_assignVariable (orderly : start.Orderly) (name : String) {value : NodeIndex}
    (holds : start.Holds value) : Builds start (assignVariable name value) Holds := by
  refine (builds_var orderly name).bind fun middle target grows orderly held => ?_
  refine builds_push orderly ⟨?_, nofun⟩
  exact List.forall_mem_cons.2 ⟨held, List.forall_mem_singleton.2 (grows.holds holds)⟩

theorem builds_variableProperty (orderly : start.Orderly) (variableName propertyName : String) :
    Builds start (variableProperty variableName propertyName) Holds := by
  refine (builds_var orderly variableName).bind fun middle object grows orderly held => ?_
  exact builds_named orderly propertyName (fun _ => rfl) (fun _ => rfl)
    (List.forall_mem_singleton.2 held)

section

variable {body : List NodeIndex} (orderly : start.Orderly)
  (holdsBody : ∀ statement ∈ body, start.Holds statement)
include orderly holdsBody

theorem builds_function (name : String) (params : List String) :
    Builds start (function name params body) Holds := by
  refine (builds_intern orderly name).bind fun _ id first orderly known =>
    (builds_internAll orderly params).bind fun _ ids rest orderly knownRest => ?_
  refine builds_overBlock orderly ((first.trans rest).holds_all holdsBody)
    fun after block last held => ⟨List.forall_mem_singleton.2 held, ?_⟩
  exact List.forall_mem_cons.2 ⟨last.knows (rest.knows known), last.knows_all knownRest⟩

theorem builds_closure (params captures : List String) :
    Builds start (closure params captures body) Holds := by
  refine (builds_internAll orderly params).bind fun _ ids first orderly known =>
    (builds_internAll orderly captures).bind fun _ others rest orderly knownRest => ?_
  refine builds_overBlock orderly ((first.trans rest).holds_all holdsBody)
    fun after block last held => ⟨List.forall_mem_singleton.2 held, ?_⟩
  exact List.forall_mem_append.2
    ⟨last.knows_all (rest.knows_all known), last.knows_all knownRest⟩

theorem builds_ifStmt {condition : NodeIndex} (holds : start.Holds condition)
    {elseBody : Option (List NodeIndex)}
    (holdsElse : ∀ statement ∈ elseBody.getD [], start.Holds statement) :
    Builds start (ifStmt condition body elseBody) Holds := by
  cases elseBody with
  | none =>
      refine builds_overBlock orderly holdsBody fun after thenBranch grows held => ⟨?_, nofun⟩
      exact List.forall_mem_cons.2 ⟨grows.holds holds, List.forall_mem_singleton.2 held⟩
  | some statements =>
      refine (builds_block orderly holdsBody).bind
        fun middle thenBranch first orderly heldThen => ?_
      refine builds_overBlock orderly (first.holds_all holdsElse)
        fun after elseBranch last heldElse => ⟨?_, nofun⟩
      exact List.forall_mem_cons.2 ⟨last.holds (first.holds holds),
        List.forall_mem_cons.2 ⟨last.holds heldThen, List.forall_mem_singleton.2 heldElse⟩⟩

theorem builds_whileStmt {condition : NodeIndex} (holds : start.Holds condition) :
    Builds start (whileStmt condition body) Holds := by
  refine builds_overBlock orderly holdsBody fun after block grows held => ⟨?_, nofun⟩
  exact List.forall_mem_cons.2 ⟨grows.holds holds, List.forall_mem_singleton.2 held⟩

theorem builds_forStmt {init update : List NodeIndex} {condition : Option NodeIndex}
    (holds : ∀ child ∈ init ++ condition.toList, start.Holds child)
    (holdsUpdate : ∀ statement ∈ update, start.Holds statement) :
    Builds start (forStmt init condition update body) Holds := by
  refine builds_overBlock orderly holdsBody fun after block grows held => ⟨?_, nofun⟩
  exact List.forall_mem_append.2 ⟨grows.holds_all holds,
    List.forall_mem_cons.2 ⟨held, grows.holds_all holdsUpdate⟩⟩

/-- A loop over elements is appended once its key has an id, if there is one. -/
theorem builds_elements {iterable : NodeIndex} (holds : start.Holds iterable) (key : Option StrId)
    (knows : ∀ id ∈ key.toList, start.Knows id) (value : String) :
    Builds start (do
      let value ← intern value
      push (.foreachStmt iterable key value (← block body))) Holds := by
  refine (builds_intern orderly value).bind fun middle id first orderly known => ?_
  refine builds_overBlock orderly (first.holds_all holdsBody)
    fun after block last held => ⟨?_, ?_⟩
  · exact List.forall_mem_cons.2 ⟨last.holds (first.holds holds),
      List.forall_mem_singleton.2 held⟩
  · exact List.forall_mem_append.2 ⟨last.knows_all (first.knows_all knows),
      List.forall_mem_singleton.2 (last.knows known)⟩

theorem builds_foreachStmt {iterable : NodeIndex} (holds : start.Holds iterable)
    (key : Option String) (value : String) :
    Builds start (foreachStmt iterable key value body) Holds := by
  cases key with
  | none => exact builds_elements orderly holdsBody holds none nofun value
  | some key =>
      have known : Builds start (some <$> intern key) fun after id =>
          ∀ name ∈ id.toList, after.Knows name :=
        (builds_intern orderly key).map fun _ _ known => List.forall_mem_singleton.2 known
      exact known.bind fun middle id grows orderly known =>
        builds_elements orderly (grows.holds_all holdsBody) (grows.holds holds) id known value

end

end TreeBuilder

/-! ## Calls -/

/-- A call on a builder. -/
inductive Call where
  | atLine (line : UInt32)
  | push (data : NodeData)
  | intern (name : String)
  | var (name : String)
  | literal (value : Literal)
  | string (value : String)
  | newObject (className : String) (args : List NodeIndex)
  | array (elements : List NodeIndex)
  | assign (target value : NodeIndex)
  | assignVariable (name : String) (value : NodeIndex)
  | property (object : NodeIndex) (name : String)
  | variableProperty (variableName propertyName : String)
  | element (array : NodeIndex) (index : Option NodeIndex)
  | call (name : String) (args : List NodeIndex)
  | methodCall (object : NodeIndex) (name : String) (args : List NodeIndex)
  | returnStmt (value : Option NodeIndex)
  | throwStmt (value : NodeIndex)
  | block (statements : List NodeIndex)
  | function (name : String) (params : List String) (body : List NodeIndex)
  | closure (params captures : List String) (body : List NodeIndex)
  | ifStmt (condition : NodeIndex) (thenBody : List NodeIndex)
      (elseBody : Option (List NodeIndex))
  | whileStmt (condition : NodeIndex) (body : List NodeIndex)
  | forStmt (init : List NodeIndex) (condition : Option NodeIndex) (update body : List NodeIndex)
  | foreachStmt (iterable : NodeIndex) (key : Option String) (value : String)
      (body : List NodeIndex)
  | global (names : List String)
  | other

/-- What a call answers. -/
inductive Answer where
  | nothing
  | node (index : NodeIndex)
  | name (id : StrId)
  deriving DecidableEq, Repr

/-- What has been answered is there. -/
def Answer.LivesIn (builder : TreeBuilder) : Answer → Prop
  | .nothing => True
  | .node index => builder.Holds index
  | .name id => builder.Knows id

theorem Answer.LivesIn.later {answer : Answer} {before after : TreeBuilder}
    (lives : answer.LivesIn before) (grows : before.Extends after) : answer.LivesIn after := by
  cases answer with
  | nothing => trivial
  | node index => exact grows.holds lives
  | name id => exact grows.knows lives

namespace Call

/-- Makes a call. -/
def perform : Call → Build Answer
  | .atLine line => do
      TreeBuilder.atLine line
      return .nothing
  | .push data => .node <$> TreeBuilder.push data
  | .intern name => .name <$> TreeBuilder.intern name
  | .var name => .node <$> TreeBuilder.var name
  | .literal value => .node <$> TreeBuilder.literal value
  | .string value => .node <$> TreeBuilder.string value
  | .newObject className args => .node <$> TreeBuilder.newObject className args
  | .array elements => .node <$> TreeBuilder.array elements
  | .assign target value => .node <$> TreeBuilder.assign target value
  | .assignVariable name value => .node <$> TreeBuilder.assignVariable name value
  | .property object name => .node <$> TreeBuilder.property object name
  | .variableProperty variableName propertyName =>
      .node <$> TreeBuilder.variableProperty variableName propertyName
  | .element base index => .node <$> TreeBuilder.element base index
  | .call name args => .node <$> TreeBuilder.call name args
  | .methodCall object name args => .node <$> TreeBuilder.methodCall object name args
  | .returnStmt value => .node <$> TreeBuilder.returnStmt value
  | .throwStmt value => .node <$> TreeBuilder.throwStmt value
  | .block statements => .node <$> TreeBuilder.block statements
  | .function name params body => .node <$> TreeBuilder.function name params body
  | .closure params captures body => .node <$> TreeBuilder.closure params captures body
  | .ifStmt condition thenBody elseBody =>
      .node <$> TreeBuilder.ifStmt condition thenBody elseBody
  | .whileStmt condition body => .node <$> TreeBuilder.whileStmt condition body
  | .forStmt init condition update body => .node <$> TreeBuilder.forStmt init condition update body
  | .foreachStmt iterable key value body =>
      .node <$> TreeBuilder.foreachStmt iterable key value body
  | .global names => .node <$> TreeBuilder.global names
  | .other => .node <$> TreeBuilder.other

/-- The nodes that a call refers to. -/
def nodes : Call → List NodeIndex
  | .push data => data.children
  | .newObject _ nodes | .array nodes | .call _ nodes | .block nodes => nodes
  | .function _ _ nodes | .closure _ _ nodes => nodes
  | .assign target value => [target, value]
  | .assignVariable _ node | .property node _ | .throwStmt node => [node]
  | .element base index => base :: index.toList
  | .methodCall object _ args => object :: args
  | .returnStmt value => value.toList
  | .ifStmt condition thenBody elseBody => condition :: (thenBody ++ elseBody.getD [])
  | .whileStmt condition body => condition :: body
  | .forStmt init condition update body => init ++ condition.toList ++ (update ++ body)
  | .foreachStmt iterable _ _ body => iterable :: body
  | .atLine _ | .intern _ | .var _ | .literal _ | .string _ | .variableProperty .. => []
  | .global _ | .other => []

/-- The ids of names that a call refers to. -/
def names : Call → List StrId
  | .push data => data.names
  | .literal value => value.names
  | _ => []

/-- The line that a call sets, if it sets one. -/
def line? : Call → Option UInt32
  | .atLine line => some line
  | _ => none

variable {start : TreeBuilder}

open TreeBuilder

theorem builds_node {action : Build NodeIndex} (builds : Builds start action Holds) :
    Builds start (Answer.node <$> action) fun after answer => answer.LivesIn after :=
  builds.map fun _ _ holds => holds

/-- Whatever a call refers to, what it answers is there, if what it refers to is. -/
theorem builds_perform (next : Call) (noLine : next.line? = none) (orderly : start.Orderly)
    (holds : ∀ index ∈ next.nodes, start.Holds index) (knows : ∀ id ∈ next.names, start.Knows id) :
    Builds start next.perform fun after answer => answer.LivesIn after := by
  cases next with
  | atLine line => contradiction
  | push data => exact builds_node (builds_push orderly ⟨holds, knows⟩)
  | intern name => exact (builds_intern orderly name).map fun _ _ known => known
  | var name => exact builds_node (builds_var orderly name)
  | literal value => exact builds_node (builds_push orderly ⟨nofun, knows⟩)
  | string value =>
      exact builds_node (builds_named orderly value (fun _ => rfl) (fun _ => rfl) nofun)
  | newObject className args =>
      exact builds_node (builds_named orderly className (fun _ => rfl) (fun _ => rfl) holds)
  | array elements => exact builds_node (builds_push orderly ⟨holds, nofun⟩)
  | assign target value => exact builds_node (builds_push orderly ⟨holds, nofun⟩)
  | assignVariable name value =>
      exact builds_node (builds_assignVariable orderly name (List.forall_mem_singleton.1 holds))
  | property object name =>
      exact builds_node (builds_named orderly name (fun _ => rfl) (fun _ => rfl) holds)
  | variableProperty variableName propertyName =>
      exact builds_node (builds_variableProperty orderly variableName propertyName)
  | element array index => exact builds_node (builds_push orderly ⟨holds, nofun⟩)
  | call name args =>
      exact builds_node (builds_named orderly name (fun _ => rfl) (fun _ => rfl) holds)
  | methodCall object name args =>
      exact builds_node (builds_named orderly name (fun _ => rfl) (fun _ => rfl) holds)
  | returnStmt value => exact builds_node (builds_push orderly ⟨holds, nofun⟩)
  | throwStmt value => exact builds_node (builds_push orderly ⟨holds, nofun⟩)
  | block statements => exact builds_node (builds_block orderly holds)
  | function name params body =>
      exact builds_node (builds_function orderly holds name params)
  | closure params captures body =>
      exact builds_node (builds_closure orderly holds params captures)
  | ifStmt condition thenBody elseBody =>
      obtain ⟨holdsCondition, holdsBodies⟩ := List.forall_mem_cons.1 holds
      obtain ⟨holdsThen, holdsElse⟩ := List.forall_mem_append.1 holdsBodies
      exact builds_node (builds_ifStmt orderly holdsThen holdsCondition holdsElse)
  | whileStmt condition body =>
      obtain ⟨holdsCondition, holdsBody⟩ := List.forall_mem_cons.1 holds
      exact builds_node (builds_whileStmt orderly holdsBody holdsCondition)
  | forStmt init condition update body =>
      obtain ⟨holdsBefore, holdsAfter⟩ := List.forall_mem_append.1 holds
      obtain ⟨holdsUpdate, holdsBody⟩ := List.forall_mem_append.1 holdsAfter
      exact builds_node (builds_forStmt orderly holdsBody holdsBefore holdsUpdate)
  | foreachStmt iterable key value body =>
      obtain ⟨holdsIterable, holdsBody⟩ := List.forall_mem_cons.1 holds
      exact builds_node (builds_foreachStmt orderly holdsBody holdsIterable key value)
  | global names =>
      exact builds_node ((builds_internAll orderly names).bind fun _ ids grows orderly known =>
        builds_push orderly ⟨nofun, known⟩)
  | other => exact builds_node (builds_push orderly ⟨nofun, nofun⟩)

end Call

/-! ## Runs -/

/-- A construction so far: the builder, and what the calls have answered. -/
structure Construction where
  builder : TreeBuilder
  answers : List Answer

/-- A call refers only to nodes and names that have been answered. -/
def Call.RefersTo (next : Call) (answers : List Answer) : Prop :=
  (∀ index ∈ next.nodes, .node index ∈ answers) ∧ ∀ id ∈ next.names, .name id ∈ answers

instance (next : Call) (answers : List Answer) : Decidable (next.RefersTo answers) :=
  inferInstanceAs (Decidable (_ ∧ _))

namespace Construction

/-- The construction before any call. -/
def start : Construction :=
  ⟨.empty, []⟩

/-- The construction after one more call. -/
def call (construction : Construction) (next : Call) : Construction :=
  let (answer, builder) := next.perform construction.builder
  ⟨builder, construction.answers ++ [answer]⟩

/-- The construction that calls come to. -/
def run (calls : List Call) : Construction :=
  calls.foldl call start

/-- Each call refers only to what the calls before it have answered. -/
def Proper (calls : List Call) : Prop :=
  ∀ (place : Nat) (inside : place < calls.length),
    calls[place].RefersTo (run (calls.take place)).answers

instance (calls : List Call) : Decidable (Proper calls) :=
  Nat.decidableBallLT calls.length fun place inside =>
    calls[place].RefersTo (run (calls.take place)).answers

/-- The line that was set last; zero if none was set. -/
def lastLine (calls : List Call) : UInt32 :=
  (calls.filterMap Call.line?).getLast?.getD 0

/-- What is built is orderly, and whatever has been answered is there. -/
structure Sound (construction : Construction) : Prop where
  orderly : construction.builder.Orderly
  answered : ∀ answer ∈ construction.answers, answer.LivesIn construction.builder

variable {construction : Construction} {next : Call} {calls : List Call}

theorem Sound.holds (sound : construction.Sound) {nodes : List NodeIndex}
    (answered : ∀ index ∈ nodes, .node index ∈ construction.answers) :
    ∀ index ∈ nodes, construction.builder.Holds index :=
  fun index member => sound.answered _ (answered index member)

/-- A call that sets no line does what it does to an orderly builder. -/
theorem Sound.builds (sound : construction.Sound) (refers : next.RefersTo construction.answers)
    (noLine : next.line? = none) :
    construction.builder.Builds next.perform fun after answer => answer.LivesIn after :=
  next.builds_perform noLine sound.orderly (sound.holds refers.1)
    fun _ member => sound.answered _ (refers.2 _ member)

/-- Setting the line touches nothing that there is. -/
theorem extends_atLine (builder : TreeBuilder) (line : UInt32) :
    builder.Extends { builder with line } where
  size_le := Nat.le_refl _
  kept _ _ := rfl
  stamped := (TreeBuilder.Grows.refl builder).stamped
  resolves _ _ known := known

theorem eq_atLine_of_line? {line : UInt32} (sets : next.line? = some line) :
    next = .atLine line := by
  cases next <;> cases sets
  rfl

theorem Sound.extends_call (sound : construction.Sound)
    (refers : next.RefersTo construction.answers) :
    construction.builder.Extends (construction.call next).builder := by
  cases sets : next.line? with
  | none => exact (sound.builds refers sets).grows.toExtends
  | some line =>
      rw [eq_atLine_of_line? sets]
      exact extends_atLine construction.builder line

theorem Sound.line_call (sound : construction.Sound)
    (refers : next.RefersTo construction.answers) :
    (construction.call next).builder.line = next.line?.getD construction.builder.line := by
  cases sets : next.line? with
  | none => exact (sound.builds refers sets).grows.line_eq
  | some line =>
      rw [eq_atLine_of_line? sets]
      rfl

/-- A call that refers to what has been answered keeps a construction sound. -/
theorem Sound.call (sound : construction.Sound) (refers : next.RefersTo construction.answers) :
    (construction.call next).Sound := by
  have grows := sound.extends_call refers
  have answered (last : (next.perform construction.builder).1.LivesIn
      (construction.call next).builder) :
      ∀ answer ∈ (construction.call next).answers,
        answer.LivesIn (construction.call next).builder :=
    List.forall_mem_append.2 ⟨fun answer member => (sound.answered answer member).later grows,
      List.forall_mem_singleton.2 last⟩
  cases sets : next.line? with
  | none =>
      have builds := sound.builds refers sets
      exact ⟨builds.orderly, answered builds.answers⟩
  | some line =>
      cases eq_atLine_of_line? sets
      exact ⟨{ sound.orderly with }, answered trivial⟩

theorem sound_start : start.Sound where
  orderly := ⟨nofun, nofun, List.nodup_nil⟩
  answered := nofun

/-! ## Calls one after the other -/

theorem run_concat (calls : List Call) (next : Call) :
    run (calls ++ [next]) = (run calls).call next :=
  List.foldl_concat _ _ _ _

theorem run_take_succ {place : Nat} (inside : place < calls.length) :
    run (calls.take (place + 1)) = (run (calls.take place)).call calls[place] := by
  rw [List.take_succ_eq_append_getElem inside, run_concat]

/-- What calls that refer to what earlier ones have answered come to is sound, however many of them
have been made. -/
theorem sound_take (proper : Proper calls) {made : Nat} (le : made ≤ calls.length) :
    (run (calls.take made)).Sound := by
  induction made with
  | zero => exact sound_start
  | succ made inductionHypothesis =>
      rw [run_take_succ le]
      exact (inductionHypothesis (Nat.le_of_succ_le le)).call (proper made le)

theorem sound_run (proper : Proper calls) : (run calls).Sound := by
  have sound := sound_take proper (Nat.le_refl _)
  rwa [List.take_length] at sound

/-- The line of a construction is the one that was set last. -/
theorem line_take (proper : Proper calls) {made : Nat} (le : made ≤ calls.length) :
    (run (calls.take made)).builder.line = lastLine (calls.take made) := by
  induction made with
  | zero => rfl
  | succ made inductionHypothesis =>
      have before := inductionHypothesis (Nat.le_of_succ_le le)
      rw [run_take_succ le, (sound_take proper (Nat.le_of_succ_le le)).line_call (proper made le),
        before, List.take_succ_eq_append_getElem le, lastLine, lastLine, List.filterMap_append]
      cases sets : calls[made].line? with
      | none => simp [sets]
      | some line => simp [sets]

/-- What nodes are stamped with after some calls: column one of the line that was set last, or
nothing if that is zero or no line was set. -/
def stamp (calls : List Call) : Option Position :=
  if lastLine calls = 0 then none else some ⟨lastLine calls, 1⟩

theorem span_take (proper : Proper calls) {made : Nat} (le : made ≤ calls.length) :
    (run (calls.take made)).builder.span = stamp (calls.take made) := by
  rw [TreeBuilder.span, line_take proper le, stamp]

/-- So many calls have been made when the node at a position is appended, by the next call or, if
there is none, when the construction is ended. -/
structure AppendedAfter (calls : List Call) (position made : Nat) : Prop where
  le : made ≤ calls.length
  absent : (run (calls.take made)).builder.nodes.size ≤ position
  present : made < calls.length → position < (run (calls.take (made + 1))).builder.nodes.size

/-- A node is stamped with the line that was set last when it is appended. -/
theorem stamped_take (proper : Proper calls) {made : Nat} (le : made ≤ calls.length)
    {position : Nat} {node : TreeNode}
    (found : (run (calls.take made)).builder.nodes[position]? = some node) :
    ∃ earlier, AppendedAfter calls position earlier ∧ node.span = stamp (calls.take earlier) := by
  induction made with
  | zero => exact absurd found nofun
  | succ made inductionHypothesis =>
      have less := Nat.le_of_succ_le le
      have grows := (sound_take proper less).extends_call (proper made le)
      rw [← run_take_succ le] at grows
      by_cases old : position < (run (calls.take made)).builder.nodes.size
      · rw [grows.kept position old] at found
        exact inductionHypothesis less found
      · have beyond := Nat.le_of_not_lt old
        refine ⟨made, ⟨less, beyond, fun _ => (Array.getElem?_eq_some_iff.1 found).1⟩, ?_⟩
        rw [grows.stamped position node beyond found, span_take proper less]

/-- Every node that calls append is stamped with the line that was set last when it was appended. -/
theorem stamped_run (proper : Proper calls) {position : Nat} {node : TreeNode}
    (found : (run calls).builder.nodes[position]? = some node) :
    ∃ made, AppendedAfter calls position made ∧ node.span = stamp (calls.take made) :=
  stamped_take proper (Nat.le_refl _) (by rwa [List.take_length])

end Construction

end EscapePlan
