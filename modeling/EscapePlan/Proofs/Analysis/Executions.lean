import Mathlib
import EscapePlan.Proofs.Analysis.Soundness
import EscapePlan.Proofs.Flow.Shape

/-!
# Declarations of globals along paths

The walk decides whether a name is global in the order in which it meets declarations.  A
path through the control flow of a scope may get somewhere in another way: by going round a
loop again, or by leaving out a branch.

Here the occurrences of a scope are executed in any order and any number of times, so whatever
holds of all executions holds along every path.  An object that gets into a global variable or
is handed on is found to escape if the walk and the execution agree on which variables are
global wherever the execution stores the object or reads it.  Where they do not agree the
escape may stay hidden, both when something is stored and when something is read.
-/

namespace EscapePlan

/-- What a variable holds: an object, which it got while it was global or while it was not. -/
structure Holding where
  site : Site
  shared : Bool
  deriving DecidableEq, Repr

/-- What a scope has come to: which names are global, and which objects the variables hold. -/
structure Memory where
  globals : List StrId
  held : StrId → Option Holding

namespace Memory

/-- The memory where a scope begins. -/
def empty : Memory :=
  ⟨[], fun _ => none⟩

/-- Whether a variable is global. -/
def shares (memory : Memory) (name : StrId) : Bool :=
  decide (name ∈ memory.globals)

/-- The memory after a variable has been given an object. -/
def give (memory : Memory) (name : StrId) (site : Site) : Memory :=
  { memory with
    held := fun other =>
      if other = name then some ⟨site, memory.shares name⟩ else memory.held other }

/-- The memory after variables have been given something else. -/
def overwrite (memory : Memory) (names : List StrId) : Memory :=
  { memory with held := fun other => if other ∈ names then none else memory.held other }

/-- The memory after names have been declared to be global. -/
def declare (memory : Memory) (names : List StrId) : Memory :=
  { memory with globals := names ++ memory.globals }

end Memory

/-- A use of a variable that an object is passed on by. -/
inductive Use where
  | read
  | store
  deriving DecidableEq, Repr

namespace Tree

section

-- Which uses of a name are followed, given the point of the evaluation: a store to a variable
-- that is global or is not, or a read of what the variable got while it was or was not.
variable (follows : Use → Bool → StrId → Progress → Prop) (tree : Tree)

/-- The value of an expression is an object: it is allocated there, or a variable holds it. -/
inductive Evaluates (memory : Memory) : Place → Site → Prop where
  | allocated {place : Place} {progress : Progress} :
      tree.Performs place .allocate progress →
      Evaluates memory place ⟨progress.sites, place.index⟩
  | held {place : Place} {name : StrId} {site : Site} {shared : Bool} :
      tree.dataAt? place = some (.var name) → memory.held name = some ⟨site, shared⟩ →
      follows .read shared name place.progress → Evaluates memory place site

/-- An occurrence assigns an object to a variable. -/
inductive Assigns (memory : Memory) : Place → StrId → Site → Prop where
  | intro {place : Place} {target value : NodeIndex} {name : StrId} {site : Site} :
      tree.dataAt? place = some (.assignment target value) →
      tree.data? target = some (.var name) →
      Evaluates follows tree memory (place.value value) site →
      follows .store (memory.shares name) name (tree.progressAfter (place.value value)) →
      Assigns memory place name site

/-- The execution of an occurrence changes the memory. -/
inductive Executes (memory : Memory) : Place → Memory → Prop where
  | declare {place : Place} {names : List StrId} :
      tree.dataAt? place = some (.global names) → Executes memory place (memory.declare names)
  | overwrite {place : Place} {iterable body : NodeIndex} {key : Option StrId} {value : StrId} :
      tree.dataAt? place = some (.foreachStmt iterable key value body) →
      Executes memory place (memory.overwrite (key.toList ++ [value]))
  | give {place : Place} {name : StrId} {site : Site} :
      Assigns follows tree memory place name site →
      Executes memory place (memory.give name site)
  | forget {place : Place} {target value : NodeIndex} {name : StrId} :
      tree.dataAt? place = some (.assignment target value) →
      tree.data? target = some (.var name) → Executes memory place (memory.overwrite [name])

/-- The memories that the execution of occurrences of a scope may come to. -/
inductive Reaches (scope : Nat) : Memory → Prop where
  | start : Reaches scope .empty
  | step {memory later : Memory} {place : Place} :
      Reaches scope memory → tree.Occurs place → place.scope = scope →
      Executes follows tree memory place later → Reaches scope later

/-- An execution hands an object on: it assigns it to a variable that is global, or it returns,
throws or passes what a variable holds that is not global. -/
inductive Reveals (scope : Nat) : Site → Prop where
  | stored {memory : Memory} {place : Place} {name : StrId} {site : Site} :
      Reaches follows tree scope memory → tree.Occurs place → place.scope = scope →
      Assigns follows tree memory place name site → name ∈ memory.globals →
      Reveals scope site
  | passed {memory : Memory} {place : Place} {data : NodeData} {child : NodeIndex}
      {progress : Progress} {name : StrId} {site : Site} {shared : Bool} :
      Reaches follows tree scope memory → tree.Occurs place → place.scope = scope →
      tree.dataAt? place = some data → data.exposesOperands = true →
      tree.Performs place (.visit child) progress →
      tree.dataAt? (place.child progress child) = some (.var name) → name ∉ memory.globals →
      memory.held name = some ⟨site, shared⟩ → follows .read shared name progress →
      Reveals scope site

end

/-- The walk has a name as global where something is stored to it while it is, and has it as
global where it is read only if what is read was stored while it was. -/
def Agree (use : Use) (shared : Bool) (name : StrId) (progress : Progress) : Prop :=
  match use with
  | .read => progress.IsGlobal name → shared = true
  | .store => shared = true → progress.IsGlobal name

/-- The walk and the execution agree at uses of one kind. -/
def AgreeAt (kind use : Use) (shared : Bool) (name : StrId) (progress : Progress) : Prop :=
  use = kind → Agree use shared name progress

theorem agreeAt_of_ne {kind use : Use} {shared : Bool} {name : StrId} {progress : Progress}
    (different : use ≠ kind) : AgreeAt kind use shared name progress :=
  fun same => absurd same different

variable {tree : Tree} {scope : Nat} {memory later : Memory} {place : Place} {name : StrId}
  {site : Site}

/-- What is known of an object that a variable got: either it escapes anyway, or the variable
was not global and may denote it. -/
def TracksAs (tree : Tree) (scope : Nat) (name : StrId) (shared : Bool) (site : Site) : Prop :=
  tree.MayEscape Progress.IsGlobal site ∨
    shared = false ∧ tree.MayDenote Progress.IsGlobal (.named ⟨scope, name⟩) site

/-- Every object that a variable holds is kept track of. -/
def Tracks (tree : Tree) (scope : Nat) (memory : Memory) : Prop :=
  ∀ name site shared, memory.held name = some ⟨site, shared⟩ →
    tree.TracksAs scope name shared site

/-- What is known of the value of an assignment. -/
theorem Tracks.evaluates (tracks : tree.Tracks scope memory) {value : NodeIndex}
    (scopeEq : place.scope = scope)
    (evaluates : tree.Evaluates Agree memory (place.value value) site) :
    tree.MayEscape Progress.IsGlobal site ∨
      ∃ source, tree.Yields Progress.IsGlobal (place.value value) source ∧
        tree.MayDenote Progress.IsGlobal source site := by
  cases evaluates with
  | allocated performs => exact .inr ⟨_, .site performs, .site _⟩
  | held dataEq heldEq agree =>
      rcases tracks _ _ _ heldEq with escapes | ⟨sharedEq, mayDenote⟩
      · exact .inl escapes
      · have localHere : ¬ Progress.IsGlobal _ (place.value value).progress := fun isGlobal =>
          Bool.false_ne_true (sharedEq.symm.trans (agree isGlobal))
        exact .inr ⟨_, .named dataEq localHere, scopeEq ▸ mayDenote⟩

/-- An object is kept track of when it is assigned: if the walk has the variable as global the
object escapes, and otherwise the walk and the execution agree that it is not. -/
theorem Tracks.assigns (tracks : tree.Tracks scope memory) (occurs : tree.Occurs place)
    (scopeEq : place.scope = scope) (assigns : tree.Assigns Agree memory place name site) :
    tree.TracksAs scope name (memory.shares name) site := by
  cases assigns with
  | @intro target value _ _ dataEq targetEq evaluates agree =>
      rcases tracks.evaluates scopeEq evaluates with escapes | ⟨source, yields, mayDenote⟩
      · exact .inl escapes
      by_cases isGlobal : Progress.IsGlobal name (tree.progressAfter (place.value value))
      · refine .inl ⟨source, ⟨place, occurs, .stored dataEq (fun other otherEq => ?_) yields⟩,
          mayDenote⟩
        cases targetEq.symm.trans otherEq
        exact isGlobal
      · refine .inr ⟨Bool.eq_false_iff.2 fun sharedEq => isGlobal (agree sharedEq), ?_⟩
        exact .flow occurs (scopeEq ▸ .assigned dataEq targetEq isGlobal yields) mayDenote

theorem Tracks.overwrite (tracks : tree.Tracks scope memory) (names : List StrId) :
    tree.Tracks scope (memory.overwrite names) := by
  intro name site shared heldEq
  have kept : (if name ∈ names then none else memory.held name) = some ⟨site, shared⟩ := heldEq
  split at kept
  next => contradiction
  next => exact tracks name site shared kept

theorem Tracks.give (tracks : tree.Tracks scope memory)
    (given : tree.TracksAs scope name (memory.shares name) site) :
    tree.Tracks scope (memory.give name site) := by
  intro other held shared heldEq
  have kept : (if other = name then some ⟨site, memory.shares name⟩ else memory.held other) =
    some (Holding.mk held shared) := heldEq
  split at kept
  next same =>
    cases same
    cases kept
    exact given
  next => exact tracks other held shared kept

/-- Every execution of an occurrence keeps track of the objects that variables hold. -/
theorem Tracks.executes (tracks : tree.Tracks scope memory) (occurs : tree.Occurs place)
    (scopeEq : place.scope = scope) (executes : tree.Executes Agree memory place later) :
    tree.Tracks scope later := by
  cases executes with
  | declare dataEq => exact tracks
  | overwrite dataEq => exact tracks.overwrite _
  | give assigns => exact tracks.give (tracks.assigns occurs scopeEq assigns)
  | forget dataEq targetEq => exact tracks.overwrite _

theorem tracks_of_reaches (reaches : tree.Reaches Agree scope memory) :
    tree.Tracks scope memory := by
  induction reaches with
  | start => exact fun _ _ _ heldEq => nomatch heldEq
  | step _ occurs scopeEq executes inductionHypothesis =>
      exact inductionHypothesis.executes occurs scopeEq executes

theorem mayEscape_of_reveals (reveals : tree.Reveals Agree scope site) :
    tree.MayEscape Progress.IsGlobal site := by
  cases reveals with
  | stored reaches occurs scopeEq assigns member =>
      rcases (tracks_of_reaches reaches).assigns occurs scopeEq assigns with
        escapes | ⟨sharedEq, -⟩
      · exact escapes
      · exact absurd member (of_decide_eq_false sharedEq)
  | @passed memory place data child progress name site shared reaches occurs scopeEq dataEq
      exposes performs childEq _ heldEq agree =>
      rcases tracks_of_reaches reaches _ _ _ heldEq with escapes | ⟨sharedEq, mayDenote⟩
      · exact escapes
      · have localHere : ¬ progress.IsGlobal name := fun isGlobal =>
          Bool.false_ne_true (sharedEq.symm.trans (agree isGlobal))
        refine ⟨_, ⟨_, occurs, .operand dataEq exposes performs (.named childEq localHere)⟩, ?_⟩
        exact scopeEq ▸ mayDenote

end Tree

/-- An object that an execution hands on is found to escape if the walk agrees with the execution
on which of the variables that it is passed on by are global. -/
theorem Analysis.letsEscape_of_reveals (config : Config) (tree : Tree) {scope : Nat} {site : Site}
    (reveals : tree.Reveals Tree.Agree scope site) :
    (ofTree config tree).LetsEscape config.unknownIsBottom site := by
  rcases Tree.mayEscape_of_reveals reveals with ⟨source, exposed, mayDenote⟩
  exact letsEscape_of_exposed config tree exposed mayDenote

/-- A loop declares a variable to be global, which in its next round is given an object. -/
def declaredFirst : Tree where
  root := ⟨9⟩
  strings := .empty
  nodes := #[⟨.var ⟨0⟩, none⟩, ⟨.objectInstantiation ⟨1⟩ [], none⟩, ⟨.var ⟨2⟩, none⟩,
    ⟨.assignment ⟨2⟩ ⟨1⟩, none⟩, ⟨.global [⟨2⟩], none⟩, ⟨.block [⟨4⟩, ⟨3⟩], none⟩,
    ⟨.whileStmt ⟨0⟩ ⟨5⟩, none⟩, ⟨.block [⟨6⟩], none⟩, ⟨.functionDecl ⟨3⟩ [⟨0⟩] ⟨7⟩, none⟩,
    ⟨.root [⟨8⟩], none⟩]

theorem Analysis.letsEscape_of_reveals_declaredFirst :
    declaredFirst.Reveals Tree.Agree 1 ⟨0, ⟨1⟩⟩ ∧
      (ofTree {} declaredFirst).LetsEscape true ⟨0, ⟨1⟩⟩ := by
  have declares : declaredFirst.Occurs _ :=
    .visit ⟨_, rfl, .here⟩ (.enter ⟨_, rfl, .here⟩ (.visit ⟨_, rfl, .here⟩
      (.visit ⟨_, rfl, .later .here⟩ (.visit ⟨_, rfl, .here⟩ (.refl _)))))
  have assigns : declaredFirst.Occurs _ :=
    .visit ⟨_, rfl, .here⟩ (.enter ⟨_, rfl, .here⟩ (.visit ⟨_, rfl, .here⟩
      (.visit ⟨_, rfl, .later .here⟩ (.visit ⟨_, rfl, .later .here⟩ (.refl _)))))
  have reaches : declaredFirst.Reaches Tree.Agree 1 _ := .step .start declares rfl (.declare rfl)
  have reveals : declaredFirst.Reveals Tree.Agree 1 _ :=
    .stored reaches assigns rfl
      (.intro rfl rfl (.allocated ⟨_, rfl, .here⟩) fun _ => List.mem_cons_self) List.mem_cons_self
  exact ⟨reveals, letsEscape_of_reveals {} declaredFirst reveals⟩

/-- A loop gives a variable an object before it declares the variable to be global. -/
def declaredLate : Tree where
  root := ⟨9⟩
  strings := .empty
  nodes := #[⟨.var ⟨0⟩, none⟩, ⟨.objectInstantiation ⟨1⟩ [], none⟩, ⟨.var ⟨2⟩, none⟩,
    ⟨.assignment ⟨2⟩ ⟨1⟩, none⟩, ⟨.global [⟨2⟩], none⟩, ⟨.block [⟨3⟩, ⟨4⟩], none⟩,
    ⟨.whileStmt ⟨0⟩ ⟨5⟩, none⟩, ⟨.block [⟨6⟩], none⟩, ⟨.functionDecl ⟨3⟩ [⟨0⟩] ⟨7⟩, none⟩,
    ⟨.root [⟨8⟩], none⟩]

/-- It is not enough to agree wherever something is read: the second round of a loop stores an
object to a variable that the first has declared, and the object is said not to escape. -/
theorem Analysis.noEscape_of_agreeAt_read :
    Path (Walk.ofTree {} declaredLate depthLimit).graph.flow.Edge 1 [3, 2, 3, 2, 1] ∧
      declaredLate.Reveals (Tree.AgreeAt .read) 1 ⟨0, ⟨1⟩⟩ ∧
      ((ofTree {} declaredLate).recordOf? ⟨0, ⟨1⟩⟩).map (·.state) = some .noEscape := by
  have enters : (Walk.ofTree {} declaredLate depthLimit).graph.flow.Edge 1 2 :=
    of_decide_eq_true (by cbv)
  have begins : (Walk.ofTree {} declaredLate depthLimit).graph.flow.Edge 2 3 :=
    of_decide_eq_true (by cbv)
  have repeats : (Walk.ofTree {} declaredLate depthLimit).graph.flow.Edge 3 2 :=
    of_decide_eq_true (by cbv)
  have assigns : declaredLate.Occurs _ :=
    .visit ⟨_, rfl, .here⟩ (.enter ⟨_, rfl, .here⟩ (.visit ⟨_, rfl, .here⟩
      (.visit ⟨_, rfl, .later .here⟩ (.visit ⟨_, rfl, .here⟩ (.refl _)))))
  have declares : declaredLate.Occurs _ :=
    .visit ⟨_, rfl, .here⟩ (.enter ⟨_, rfl, .here⟩ (.visit ⟨_, rfl, .here⟩
      (.visit ⟨_, rfl, .later .here⟩ (.visit ⟨_, rfl, .later .here⟩ (.refl _)))))
  have stores {shared : Bool} {name : StrId} {progress : Progress} :
      Tree.AgreeAt .read .store shared name progress := Tree.agreeAt_of_ne (by decide)
  have given : declaredLate.Reaches (Tree.AgreeAt .read) 1 _ :=
    .step .start assigns rfl (.give (.intro rfl rfl (.allocated ⟨_, rfl, .here⟩) stores))
  have declared : declaredLate.Reaches (Tree.AgreeAt .read) 1 _ :=
    .step given declares rfl (.declare rfl)
  have reveals : declaredLate.Reveals (Tree.AgreeAt .read) 1 _ :=
    .stored declared assigns rfl (.intro rfl rfl (.allocated ⟨_, rfl, .here⟩) stores)
      List.mem_cons_self
  have rounds := (((Path.start.step enters).step begins).step repeats).step begins
  exact ⟨rounds, reveals, by cbv⟩

/-- A branch declares a variable to be global that holds an object.  The branch may be left out,
and then the variable is returned. -/
def declaredAside : Tree where
  root := ⟨11⟩
  strings := .empty
  nodes := #[⟨.objectInstantiation ⟨1⟩ [], none⟩, ⟨.var ⟨2⟩, none⟩, ⟨.assignment ⟨1⟩ ⟨0⟩, none⟩,
    ⟨.var ⟨0⟩, none⟩, ⟨.global [⟨2⟩], none⟩, ⟨.block [⟨4⟩], none⟩, ⟨.ifStmt ⟨3⟩ ⟨5⟩ none, none⟩,
    ⟨.var ⟨2⟩, none⟩, ⟨.returnStmt (some ⟨7⟩), none⟩, ⟨.block [⟨2⟩, ⟨6⟩, ⟨8⟩], none⟩,
    ⟨.functionDecl ⟨3⟩ [⟨0⟩] ⟨9⟩, none⟩, ⟨.root [⟨10⟩], none⟩]

/-- It is not enough to agree wherever something is stored. -/
theorem Analysis.noEscape_of_agreeAt_store :
    Path (Walk.ofTree {} declaredAside depthLimit).graph.flow.Edge 1 [3, 1] ∧
      declaredAside.Reveals (Tree.AgreeAt .store) 1 ⟨0, ⟨0⟩⟩ ∧
      ((ofTree {} declaredAside).recordOf? ⟨0, ⟨0⟩⟩).map (·.state) = some .noEscape := by
  have skips : (Walk.ofTree {} declaredAside depthLimit).graph.flow.Edge 1 3 :=
    of_decide_eq_true (by cbv)
  have assigns : declaredAside.Occurs _ :=
    .visit ⟨_, rfl, .here⟩ (.enter ⟨_, rfl, .here⟩ (.visit ⟨_, rfl, .here⟩ (.refl _)))
  have returns : declaredAside.Occurs _ :=
    .visit ⟨_, rfl, .here⟩ (.enter ⟨_, rfl, .here⟩
      (.visit ⟨_, rfl, .later (.later .here)⟩ (.refl _)))
  have given : declaredAside.Reaches (Tree.AgreeAt .store) 1 _ :=
    .step .start assigns rfl (.give (.intro rfl rfl (.allocated ⟨_, rfl, .here⟩)
      fun _ shared => absurd shared Bool.false_ne_true))
  have reveals : declaredAside.Reveals (Tree.AgreeAt .store) 1 _ :=
    .passed given returns rfl rfl rfl ⟨_, rfl, .here⟩ rfl List.not_mem_nil rfl
      (Tree.agreeAt_of_ne (by decide))
  exact ⟨.step .start skips, reveals, by cbv⟩

end EscapePlan
