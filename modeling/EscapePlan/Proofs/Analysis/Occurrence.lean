import EscapePlan.Analysis.Basic

/-!
# What an unfolded tree says about objects

A tree may share nodes, so what is evaluated are places: occurrences of nodes, told apart
by how much has been evaluated before them.  `NodeData.plan` lists what evaluating a node
does, in order; places, function scopes and allocation sites are numbered along it.

`Tree.MayDenote` is the least relation in which a variable denotes every object that is
assigned to it anywhere in its scope, in whatever order, and a captured name denotes what
it denotes outside.  `Tree.Exposed` holds of what stands in a position through which
objects escape.  Both leave out names that are global at the point where they are used,
by whatever rule this is decided.
-/

namespace EscapePlan

/-- What has been evaluated at some point. -/
structure Progress where
  /-- How many function scopes besides the outermost one have been entered. -/
  scopes : Nat
  /-- How many allocation sites have been met. -/
  sites : Nat
  /-- The names that are bound to global variables in the current scope, in the order of
  evaluation: the latest declaration or overwriting counts. -/
  globals : List StrId
  deriving DecidableEq, Repr

/-- A step in evaluating a node. -/
inductive Step where
  | visit (child : NodeIndex)
  | allocate
  /-- Evaluates a function body, in a scope of its own. -/
  | enter (body : NodeIndex)
  | declare (names : List StrId)
  | overwrite (names : List StrId)
  deriving DecidableEq, Repr

/-- What evaluating the place that is assigned to does, in order. -/
def Tree.targetPlan (tree : Tree) (target : NodeIndex) : List Step :=
  match tree.data? target with
  | none | some (.var _) => []
  | some (.propertyAccess object _) => [.visit object]
  | some (.arrayAccess array index) => .visit array :: index.toList.map .visit
  | some _ => [.visit target]

/-- What evaluating a node does, in order. -/
def NodeData.plan (tree : Tree) : NodeData → List Step
  | .root statements | .block statements => statements.map .visit
  | .functionDecl _ _ body => [.enter body]
  | .assignment target value => .visit value :: tree.targetPlan target
  | .objectInstantiation _ operands | .arrayInit operands => operands.map .visit ++ [.allocate]
  | .returnStmt value => value.toList.map .visit
  | .functionCall _ args => args.map .visit
  | .methodCall object _ args => .visit object :: args.map .visit
  | .propertyAccess object _ => [.visit object]
  | .arrayAccess array index => .visit array :: index.toList.map .visit
  | .closure _ _ body => [.allocate, .enter body]
  | .var _ | .literal _ | .other => []
  | .ifStmt condition thenBranch elseBranch =>
      .visit condition :: .visit thenBranch :: elseBranch.toList.map .visit
  | .whileStmt condition body => [.visit condition, .visit body]
  | .forStmt init condition update body =>
      init.map .visit ++ condition.toList.map .visit ++ .visit body :: update.map .visit
  | .foreachStmt iterable key value body =>
      [.visit iterable, .overwrite (key.toList ++ [value]), .visit body]
  | .throwStmt value => [.visit value]
  | .global names => [.declare names]

/-- The base of a property or an element, and the field, if one is named. -/
def NodeData.base? (tree : Tree) : NodeData → Option (NodeIndex × Option String)
  | .propertyAccess object property => some (object, some (tree.name property))
  | .arrayAccess array _ => some (array, none)
  | _ => none

namespace Progress

/-- The point where a function body begins. -/
def entered (progress : Progress) : Progress :=
  ⟨progress.scopes + 1, progress.sites, []⟩

/-- The point after a step, given how evaluating a node goes on. -/
def advance (evaluate : NodeIndex → Progress → Progress) (progress : Progress) : Step → Progress
  | .visit child => evaluate child progress
  | .allocate => { progress with sites := progress.sites + 1 }
  | .enter body => { evaluate body progress.entered with globals := progress.globals }
  | .declare names => { progress with globals := names ++ progress.globals }
  | .overwrite names => { progress with globals := progress.globals.filter (· ∉ names) }

end Progress

/-- Where a node is evaluated. -/
structure Place where
  /-- How many levels of the tree may be evaluated from here down. -/
  levels : Nat
  /-- The number of the function scope. -/
  scope : Nat
  progress : Progress
  index : NodeIndex
  deriving DecidableEq, Repr

/-- The place of a node that is evaluated in the same scope. -/
def Place.child (place : Place) (progress : Progress) (index : NodeIndex) : Place :=
  ⟨place.levels - 1, place.scope, progress, index⟩

/-- The place where the value of an assignment is evaluated. -/
def Place.value (place : Place) (value : NodeIndex) : Place :=
  place.child place.progress value

/-- The place of a function body. -/
def Place.body (place : Place) (progress : Progress) (index : NodeIndex) : Place :=
  ⟨place.levels - 1, progress.scopes + 1, progress.entered, index⟩

/-- An allocation site: its number in the order of evaluation, and its node. -/
structure Site where
  number : Nat
  index : NodeIndex
  deriving DecidableEq, Repr

/-- What an object comes from: its site, or a variable that may denote it. -/
inductive Source where
  | site (site : Site)
  | named (key : VarKey)
  deriving DecidableEq, Repr

namespace Tree

/-- The point after the evaluation of a node. -/
def evaluate (tree : Tree) : Nat → NodeIndex → Progress → Progress
  | 0, _, progress => progress
  | levels + 1, index, progress =>
      match tree.data? index with
      | none => progress
      | some data => (data.plan tree).foldl (Progress.advance (tree.evaluate levels)) progress

/-- A step of a plan, and the point where it is taken. -/
inductive Takes (tree : Tree) (levels : Nat) : List Step → Progress → Step → Progress → Prop where
  | here {step : Step} {rest : List Step} {progress : Progress} :
      Takes tree levels (step :: rest) progress step progress
  | later {first step : Step} {rest : List Step} {start progress : Progress} :
      Takes tree levels rest (start.advance (tree.evaluate levels) first) step progress →
      Takes tree levels (first :: rest) start step progress

/-- What is evaluated at a place; below the deepest level nothing is. -/
def dataAt? (tree : Tree) (place : Place) : Option NodeData :=
  if place.levels = 0 then none else tree.data? place.index

/-- The evaluation at a place takes a step at some point. -/
def Performs (tree : Tree) (place : Place) (step : Step) (progress : Progress) : Prop :=
  ∃ data, tree.dataAt? place = some data ∧
    tree.Takes (place.levels - 1) (data.plan tree) place.progress step progress

/-- The places below a place, itself included. -/
inductive Below (tree : Tree) : Place → Place → Prop where
  | refl (place : Place) : Below tree place place
  | visit {place lower : Place} {child : NodeIndex} {progress : Progress} :
      tree.Performs place (.visit child) progress →
      Below tree (place.child progress child) lower → Below tree place lower
  | enter {place lower : Place} {body : NodeIndex} {progress : Progress} :
      tree.Performs place (.enter body) progress →
      Below tree (place.body progress body) lower → Below tree place lower

/-- Where the evaluation of a tree begins. -/
def start (tree : Tree) : Place :=
  ⟨depthLimit, 0, ⟨0, 0, []⟩, tree.root⟩

/-- Where the evaluation of a tree begins if so many levels of it are evaluated. -/
def startAt (tree : Tree) (levels : Nat) : Place :=
  ⟨levels, 0, ⟨0, 0, []⟩, tree.root⟩

/-- The places where something is evaluated. -/
def Occurs (tree : Tree) (place : Place) : Prop :=
  tree.Below tree.start place

/-- The point after the evaluation at a place. -/
def progressAfter (tree : Tree) (place : Place) : Progress :=
  tree.evaluate place.levels place.index place.progress

/-- An occurrence accesses a field of what is evaluated at a place, or an element if no field is
named. -/
inductive Accesses (tree : Tree) : Place → Place → Option String → Prop where
  | load {place : Place} {data : NodeData} {base : NodeIndex} {field : Option String} :
      tree.dataAt? place = some data → data.base? tree = some (base, field) →
      Accesses tree place (place.child place.progress base) field
  | store {place : Place} {target value base : NodeIndex} {data : NodeData}
      {field : Option String} :
      tree.dataAt? place = some (.assignment target value) → tree.data? target = some data →
      data.base? tree = some (base, field) →
      Accesses tree place (place.child (tree.progressAfter (place.value value)) base) field
  | iterate {place : Place} {iterable body : NodeIndex} {key : Option StrId} {value : StrId} :
      tree.dataAt? place = some (.foreachStmt iterable key value body) →
      Accesses tree place (place.child place.progress iterable) none

/-! ## What expressions may denote -/

section

-- Whether a name is global at some point.
variable (isGlobal : StrId → Progress → Prop) (tree : Tree)

/-- The objects that the value of an expression comes from. -/
inductive Yields : Place → Source → Prop where
  | site {place : Place} {progress : Progress} :
      tree.Performs place .allocate progress →
      Yields place (.site ⟨progress.sites, place.index⟩)
  | named {place : Place} {name : StrId} :
      tree.dataAt? place = some (.var name) → ¬ isGlobal name place.progress →
      Yields place (.named ⟨place.scope, name⟩)
  | assigned {place : Place} {target value : NodeIndex} {name : StrId} :
      tree.dataAt? place = some (.assignment target value) →
      tree.data? target = some (.var name) →
      ¬ isGlobal name (tree.progressAfter (place.value value)) →
      Yields place (.named ⟨place.scope, name⟩)

/-- What an occurrence makes a variable denote. -/
inductive Flows : Place → VarKey → Source → Prop where
  | assigned {place : Place} {target value : NodeIndex} {name : StrId} {source : Source} :
      tree.dataAt? place = some (.assignment target value) →
      tree.data? target = some (.var name) →
      ¬ isGlobal name (tree.progressAfter (place.value value)) →
      Yields isGlobal tree (place.value value) source →
      Flows place ⟨place.scope, name⟩ source
  | captured {place : Place} {params captures : List StrId} {body : NodeIndex} {name : StrId}
      {progress : Progress} :
      tree.dataAt? place = some (.closure params captures body) → name ∈ captures →
      ¬ isGlobal name place.progress → tree.Performs place (.enter body) progress →
      Flows place ⟨progress.scopes + 1, name⟩ (.named ⟨place.scope, name⟩)

/-- A variable may denote an object. -/
inductive MayDenote : Source → Site → Prop where
  | site (site : Site) : MayDenote (.site site) site
  | flow {place : Place} {key : VarKey} {source : Source} {site : Site} :
      tree.Occurs place → Flows isGlobal tree place key source → MayDenote source site →
      MayDenote (.named key) site

end

end Tree

/-- Objects escape through the operands of a node: they are returned, thrown, called, passed as
an argument or put into an array. -/
def NodeData.exposesOperands : NodeData → Bool
  | .objectInstantiation .. | .arrayInit .. | .returnStmt _ | .functionCall .. | .methodCall ..
  | .throwStmt _ => true
  | _ => false

/-- Whether a node accesses a field or an element by itself. -/
def NodeData.isAccess : NodeData → Bool
  | .propertyAccess .. | .arrayAccess .. | .foreachStmt .. => true
  | _ => false

namespace Tree

section

variable (isGlobal : StrId → Progress → Prop) (tree : Tree)

/-- What an occurrence exposes. -/
inductive Exposes : Place → Source → Prop where
  | operand {place : Place} {data : NodeData} {child : NodeIndex} {progress : Progress}
      {source : Source} :
      tree.dataAt? place = some data → data.exposesOperands = true →
      tree.Performs place (.visit child) progress →
      Yields isGlobal tree (place.child progress child) source → Exposes place source
  /-- What is assigned to anything but a variable that is not global. -/
  | stored {place : Place} {target value : NodeIndex} {source : Source} :
      tree.dataAt? place = some (.assignment target value) →
      (∀ name, tree.data? target = some (.var name) →
        isGlobal name (tree.progressAfter (place.value value))) →
      Yields isGlobal tree (place.value value) source → Exposes place source
  | captured {place : Place} {params captures : List StrId} {body : NodeIndex} {name : StrId} :
      tree.dataAt? place = some (.closure params captures body) → name ∈ captures →
      ¬ isGlobal name place.progress → Exposes place (.named ⟨place.scope, name⟩)

/-- Something stands in a position through which objects escape. -/
def Exposed (source : Source) : Prop :=
  ∃ place, tree.Occurs place ∧ Exposes isGlobal tree place source

/-- Something that stands in such a position may denote an object of a site. -/
def MayEscape (site : Site) : Prop :=
  ∃ source, Exposed isGlobal tree source ∧ MayDenote isGlobal tree source site

end

end Tree

end EscapePlan
