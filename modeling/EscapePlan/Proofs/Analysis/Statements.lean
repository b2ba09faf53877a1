import EscapePlan.Proofs.Analysis.Coverage
import Mathlib.Tactic.Tauto

/-!
# Visits of statements

A visit covers the place it is made at, if the visits of its children do.  There is one lemma
for each form of a node; those of statements that do nothing but visit others are here.
-/

namespace EscapePlan.Walker

open Walk

variable {law : Law} {scope : Nat} {saved : List Bindings} {progress start finish : Progress}
  {given : Walk → Prop} {tree : Tree} {levels : Nat} {visit : Visit} {index : NodeIndex}
  {data : NodeData}

/-- Visits cover the places they are made at, and note nothing but what a law allows that governs
the place. -/
def Visits (law : Law) (tree : Tree) (levels : Nat) (visit : Visit) : Prop :=
  ∀ scope saved progress index, law.Governs tree ⟨levels, scope, progress, index⟩ →
    Runs law scope saved progress (fun _ => True) (visit index)
      (tree.evaluate levels index progress)
      fun value walk => Visited tree ⟨levels, scope, progress, index⟩ value walk

/-- The visit of a node that stands for some data covers it. -/
def Handles (law : Law) (tree : Tree) (levels : Nat) (index : NodeIndex) (data : NodeData)
    (action : Walker (Option NodeId)) : Prop :=
  ∀ scope saved progress, tree.data? index = some data →
    law.Governs tree ⟨levels + 1, scope, progress, index⟩ →
    Runs law scope saved progress (fun _ => True) action
      ((data.plan tree).foldl (Progress.advance (tree.evaluate levels)) progress)
      fun value walk => Visited tree ⟨levels + 1, scope, progress, index⟩ value walk

theorem dataAt?_eq {data : Option NodeData} (dataEq : tree.data? index = data) :
    tree.dataAt? ⟨levels + 1, scope, progress, index⟩ = data :=
  (if_neg (Nat.succ_ne_zero levels)).trans dataEq

/-! ## Lists of children -/

section

variable (visits : Visits law tree levels visit)

/-- A loop whose rounds take steps. -/
theorem runs_rounds {α : Type} {body : NodeIndex → Walker α}
    {known : Option NodeId → Walk → Prop} [∀ value, Lasting (known value)]
    {children : List NodeIndex}
    (permits : law.PermitsAll tree ⟨levels + 1, scope, progress, index⟩ data (children.map .visit)
      start)
    (round : ∀ child current,
      law.Permits tree ⟨levels + 1, scope, progress, index⟩ data (.visit child) current →
      Runs law scope saved current (fun _ => True) (body child)
        (current.advance (tree.evaluate levels) (.visit child))
        fun _ walk => Done tree ⟨levels + 1, scope, progress, index⟩ known (.visit child) current
          walk) :
    Runs law scope saved start (fun _ => True)
      (forIn children PUnit.unit fun child _ => do
        let _ ← body child
        return .yield PUnit.unit)
      ((children.map Step.visit).foldl (Progress.advance (tree.evaluate levels)) start)
      fun _ walk => Follows tree ⟨levels + 1, scope, progress, index⟩ known (children.map .visit)
        start walk := by
  rw [List.foldl_map]
  have yields (child : NodeIndex) (current : Progress)
      (permitted : law.Permits tree ⟨levels + 1, scope, progress, index⟩ data (.visit child)
        current) :
      Runs law scope saved current (fun _ => True)
        (do
          let _ ← body child
          return ForInStep.yield PUnit.unit)
        (current.advance (tree.evaluate levels) (.visit child))
        fun next walk => next = .yield ⟨⟩ ∧
          Done tree ⟨levels + 1, scope, progress, index⟩ known (.visit child) current walk := by
    apply (round child current permitted).bind
    intro _
    exact Runs.pure fun _ done => ⟨rfl, done⟩
  exact (runs_forIn permits.of_map yields).imp fun _ _ along => along.map

include visits

theorem runs_child {child : NodeIndex}
    (permitted : law.Permits tree ⟨levels + 1, scope, progress, index⟩ data (.visit child) start) :
    Runs law scope saved start (fun _ => True) (visit child)
      (start.advance (tree.evaluate levels) (.visit child))
      fun value walk =>
        Visited tree (Place.child ⟨levels + 1, scope, progress, index⟩ start child) value walk :=
  visits scope saved start child permitted.1

theorem runs_children {children : List NodeIndex}
    (permits : law.PermitsAll tree ⟨levels + 1, scope, progress, index⟩ data (children.map .visit)
      start) :
    Runs law scope saved start (fun _ => True)
      (forIn children PUnit.unit fun child _ => do
        let _ ← visit child
        return .yield PUnit.unit)
      ((children.map Step.visit).foldl (Progress.advance (tree.evaluate levels)) start)
      fun _ walk => Follows tree ⟨levels + 1, scope, progress, index⟩ (fun _ _ => True)
        (children.map .visit) start walk :=
  runs_rounds permits fun _ _ permitted => (runs_child visits permitted).imp
    fun value _ visited => ⟨value, visited, trivial⟩

/-- Operands that are visited one after the other before anything is done with their values. -/
theorem runs_operands {operands : List NodeIndex} (exposes : data.exposesOperands = true)
    (permits : law.PermitsAll tree ⟨levels + 1, scope, progress, index⟩ data (operands.map .visit)
      start) :
    Runs law scope saved start (fun _ => True) (operands.mapM visit)
      ((operands.map Step.visit).foldl (Progress.advance (tree.evaluate levels)) start)
      fun values walk => Follows tree ⟨levels + 1, scope, progress, index⟩
          (fun value _ => value ∈ values) (operands.map .visit) start walk ∧
        ∀ value ∈ values, WithinOf law.exposes value walk := by
  rw [List.foldl_map]
  have each (operand : NodeIndex) (current : Progress)
      (permitted : law.Permits tree ⟨levels + 1, scope, progress, index⟩ data (.visit operand)
        current) := @runs_child law scope saved progress current tree levels visit index data visits
          operand permitted
  apply (runs_mapM permits.of_map each).imp
  rintro values walk ⟨along, all⟩
  constructor
  · apply Along.map
    apply along.mono
    rintro operand current ⟨value, member, visited⟩
    exact ⟨value, visited, member⟩
  · intro value member
    rcases all value member with ⟨operand, current, permitted, visited⟩
    exact visited.within_.mono (permitted.2 exposes)

end

/-! ## Nodes that only visit -/

/-- The visit of a node that neither allocates, assigns nor is a variable covers it if all its
steps are done, and what it accesses is accessed. -/
theorem Handles.of_accesses {action : Walker (Option NodeId)} (silent : data.isSilent = true)
    (runs : ∀ scope saved progress,
      tree.dataAt? ⟨levels + 1, scope, progress, index⟩ = some data →
      law.Governs tree ⟨levels + 1, scope, progress, index⟩ →
      law.PermitsAll tree ⟨levels + 1, scope, progress, index⟩ data (data.plan tree) progress →
      Runs law scope saved progress (fun _ => True) action
        ((data.plan tree).foldl (Progress.advance (tree.evaluate levels)) progress)
        fun value walk => WithinOf (fun _ => False) value walk ∧
          NotesAccesses tree ⟨levels + 1, scope, progress, index⟩ walk ∧
          Follows tree ⟨levels + 1, scope, progress, index⟩ (Met data) (data.plan tree) progress
            walk) :
    Handles law tree levels index data action := by
  intro scope saved progress dataEq governs
  have known := @dataAt?_eq scope progress tree levels index (some data) dataEq
  apply (runs scope saved progress known governs (governs.permitsAll known)).imp
  rintro value walk ⟨mute, accesses, steps⟩
  exact visited_of_steps known silent accesses steps mute

theorem Handles.of_steps {action : Walker (Option NodeId)} (silent : data.isSilent = true)
    (noAccess : data.isAccess = false)
    (runs : ∀ scope saved progress,
      law.PermitsAll tree ⟨levels + 1, scope, progress, index⟩ data (data.plan tree) progress →
      Runs law scope saved progress (fun _ => True) action
        ((data.plan tree).foldl (Progress.advance (tree.evaluate levels)) progress)
        fun value walk => WithinOf (fun _ => False) value walk ∧
          Follows tree ⟨levels + 1, scope, progress, index⟩ (Met data) (data.plan tree) progress
            walk) :
    Handles law tree levels index data action := by
  apply Handles.of_accesses silent
  intro scope saved progress known _ permits
  apply (runs scope saved progress permits).imp
  rintro value walk ⟨mute, steps⟩
  have noAssignment : ∀ target value, data ≠ .assignment target value := by
    rintro target value rfl
    contradiction
  exact ⟨mute, notesAccesses_of_false known noAccess noAssignment, steps⟩

theorem Handles.of_statement {action : Walker Unit} (silent : data.isSilent = true)
    (noAccess : data.isAccess = false) (noOperands : data.exposesOperands = false)
    (runs : ∀ scope saved progress,
      law.PermitsAll tree ⟨levels + 1, scope, progress, index⟩ data (data.plan tree) progress →
      Runs law scope saved progress (fun _ => True) action
        ((data.plan tree).foldl (Progress.advance (tree.evaluate levels)) progress)
        fun _ walk => Follows tree ⟨levels + 1, scope, progress, index⟩ (fun _ _ => True)
          (data.plan tree) progress walk) :
    Handles law tree levels index data (do action; return none) := by
  apply Handles.of_steps silent noAccess
  intro scope saved progress permits
  apply (runs scope saved progress permits).bind
  intro _
  exact Runs.pure fun _ follows =>
    ⟨withinOf_none, follows.mono fun value _ => met_of_false noOperands value⟩

/-- Nothing has to be done for a node without steps. -/
theorem handles_neutral {action : Walker Unit} (silent : data.isSilent = true)
    (noAccess : data.isAccess = false) (noOperands : data.exposesOperands = false)
    (noSteps : data.plan tree = []) (neutral : Neutral action) :
    Handles law tree levels index data (do action; return none) := by
  apply Handles.of_statement silent noAccess noOperands
  intro scope saved progress _
  rw [noSteps]
  exact neutral.runs.imp fun _ _ _ => trivial

section

variable (visits : Visits law tree levels visit)
include visits

theorem handles_root (statements : List NodeIndex) :
    Handles law tree levels index (.root statements)
      (do
        for statement in statements do
          let _ ← visit statement
        return none) :=
  .of_statement rfl rfl rfl fun _ _ _ => runs_children visits

theorem handles_block (statements : List NodeIndex) :
    Handles law tree levels index (.block statements)
      (do
        for statement in statements do
          let _ ← visit statement
        return none) :=
  .of_statement rfl rfl rfl fun _ _ _ => runs_children visits

theorem handles_function (name : StrId) (params : List StrId) (body : NodeIndex)
    (position : Option Position) :
    Handles law tree levels index (.functionDecl name params body)
      (do
        visitBody visit params [] body position
        return none) := by
  apply Handles.of_steps rfl rfl
  intro scope saved progress permits
  have covers (outside : List Bindings) := (visits (progress.scopes + 1) outside progress.entered
    body permits.1).imp fun _ _ visited => visited.covers
  have runs := @runs_visitBody law scope saved progress _ visit body _ _ params [] position covers
  apply (runs.weaken fun walk _ =>
    ⟨fun _ member => absurd member List.not_mem_nil, .nil walk⟩).bind
  intro _
  exact Runs.pure fun _ noted => ⟨withinOf_none, noted.1, trivial⟩

/-! ## Branches and loops -/

theorem runs_visitIf {condition thenBranch : NodeIndex} {elseBranch : Option NodeIndex}
    (permits : law.PermitsAll tree ⟨levels + 1, scope, progress, index⟩ data
      ((NodeData.ifStmt condition thenBranch elseBranch).plan tree) progress) :
    Runs law scope saved progress (fun _ => True) (visitIf visit condition thenBranch elseBranch)
      (((NodeData.ifStmt condition thenBranch elseBranch).plan tree).foldl
        (Progress.advance (tree.evaluate levels)) progress)
      fun _ walk => Follows tree ⟨levels + 1, scope, progress, index⟩ (fun _ _ => True)
        ((NodeData.ifStmt condition thenBranch elseBranch).plan tree) progress walk := by
  apply (runs_child visits permits.1).bind
  intro value
  apply neutral_currentBlock.runsBind
  intro pivot
  apply (neutral_branchFrom pivot).runsBind
  intro _
  apply (runs_child visits permits.2.1).andThen
  intro thenValue
  apply neutral_currentBlock.runsBind
  intro thenEnd
  have joins (elseEnd : BlockId) : Neutral (do
      let join ← newBlock
      connect thenEnd join
      connect elseEnd join
      moveTo join) :=
    neutral_newBlock.bind fun join => (neutral_connect _ _).bind fun _ =>
      (neutral_connect _ _).bind fun _ => neutral_moveTo join
  cases elseBranch with
  | none =>
      apply (joins pivot).runs.last
      rintro _ walk - ⟨visitedThen, visited⟩
      exact ⟨⟨value, visited, trivial⟩, ⟨thenValue, visitedThen, trivial⟩, trivial⟩
  | some elseBranch =>
      apply (neutral_branchFrom pivot).runsBind
      intro _
      apply (runs_child visits permits.2.2.1).andThen
      intro elseValue
      apply neutral_currentBlock.runsBind
      intro elseEnd
      apply (joins elseEnd).runs.last
      rintro _ walk - ⟨visitedElse, visitedThen, visited⟩
      exact ⟨⟨value, visited, trivial⟩, ⟨thenValue, visitedThen, trivial⟩,
        ⟨elseValue, visitedElse, trivial⟩, trivial⟩

/-- A condition that need not be there. -/
theorem runs_condition {condition : Option NodeIndex} {next : Walker Unit} {plan : List Step}
    (permits : law.PermitsAll tree ⟨levels + 1, scope, progress, index⟩ data
      (condition.toList.map .visit) start)
    (rest : Runs law scope saved
      ((condition.toList.map Step.visit).foldl (Progress.advance (tree.evaluate levels)) start)
      (fun _ => True) next finish fun _ walk =>
        Follows tree ⟨levels + 1, scope, progress, index⟩ (fun _ _ => True) plan
          ((condition.toList.map Step.visit).foldl (Progress.advance (tree.evaluate levels)) start)
          walk) :
    Runs law scope saved start (fun _ => True)
      (do
        if let some condition := condition then
          let _ ← visit condition
        next)
      finish fun _ walk => Follows tree ⟨levels + 1, scope, progress, index⟩ (fun _ _ => True)
        (condition.toList.map .visit ++ plan) start walk := by
  cases condition with
  | none => exact rest
  | some condition =>
      apply (runs_child visits permits.1).bind
      intro value
      apply rest.last
      intro _ walk follows visited
      exact ⟨⟨value, visited, trivial⟩, follows⟩

/-- A round of a loop, and the way out of it. -/
theorem runs_round (header : BlockId) {body : NodeIndex} {update : List NodeIndex}
    (permits : law.PermitsAll tree ⟨levels + 1, scope, progress, index⟩ data
      (.visit body :: update.map .visit) start) :
    Runs law scope saved start (fun _ => True)
      (do
        let decision ← currentBlock
        let _ ← branchFrom decision
        let _ ← visit body
        for statement in update do
          let _ ← visit statement
        connect (← currentBlock) header
        let _ ← branchFrom decision)
      ((.visit body :: update.map Step.visit).foldl (Progress.advance (tree.evaluate levels)) start)
      fun _ walk => Follows tree ⟨levels + 1, scope, progress, index⟩ (fun _ _ => True)
        (.visit body :: update.map .visit) start walk := by
  apply neutral_currentBlock.runsBind
  intro decision
  apply (neutral_branchFrom decision).runsBind
  intro _
  apply (runs_child visits permits.1).bind
  intro value
  apply (runs_children visits permits.2).andThen
  intro _
  have leaves : Neutral (do
      connect (← currentBlock) header
      let _ ← branchFrom decision) :=
    neutral_currentBlock.bind fun _ => (neutral_connect _ _).bind fun _ =>
      (neutral_branchFrom decision).bind fun _ => .pure _
  apply leaves.runs.last
  rintro _ walk - ⟨follows, visited⟩
  exact ⟨⟨value, visited, trivial⟩, follows⟩

theorem runs_visitLoop {init : List NodeIndex} {condition : Option NodeIndex}
    {update : List NodeIndex} {body : NodeIndex}
    (permits : law.PermitsAll tree ⟨levels + 1, scope, progress, index⟩ data
      ((NodeData.forStmt init condition update body).plan tree) progress) :
    Runs law scope saved progress (fun _ => True) (visitLoop visit init condition update body)
      (((NodeData.forStmt init condition update body).plan tree).foldl
        (Progress.advance (tree.evaluate levels)) progress)
      fun _ walk => Follows tree ⟨levels + 1, scope, progress, index⟩ (fun _ _ => True)
        ((NodeData.forStmt init condition update body).plan tree) progress walk := by
  rw [NodeData.plan, List.append_assoc] at permits
  rcases permits.of_append with ⟨permitsInit, permitsLoop⟩
  rcases permitsLoop.of_append with ⟨permitsCondition, permitsRound⟩
  rw [NodeData.plan, List.foldl_append, List.foldl_append, List.append_assoc]
  apply (runs_children visits permitsInit).bind
  intro _
  apply neutral_currentBlock.runsBind
  intro before
  apply (neutral_branchFrom before).runsBind
  intro header
  apply (runs_condition visits permitsCondition (runs_round visits header permitsRound)).last
  intro _ walk follows first
  exact first.append follows

theorem handles_if (condition thenBranch : NodeIndex) (elseBranch : Option NodeIndex) :
    Handles law tree levels index (.ifStmt condition thenBranch elseBranch)
      (do
        visitIf visit condition thenBranch elseBranch
        return none) :=
  .of_statement rfl rfl rfl fun _ _ _ => runs_visitIf visits

theorem handles_while (condition body : NodeIndex) :
    Handles law tree levels index (.whileStmt condition body)
      (do
        visitLoop visit [] (some condition) [] body
        return none) :=
  .of_statement rfl rfl rfl fun _ _ _ permits => runs_visitLoop visits permits

theorem handles_for (init : List NodeIndex) (condition : Option NodeIndex)
    (update : List NodeIndex) (body : NodeIndex) :
    Handles law tree levels index (.forStmt init condition update body)
      (do
        visitLoop visit init condition update body
        return none) :=
  .of_statement rfl rfl rfl fun _ _ _ => runs_visitLoop visits

/-! ## Loops over elements -/

/-- The value of a round is bound anew before the body. -/
theorem runs_foreachBody {value : StrId} {body : NodeIndex} (position : Option Position)
    (element : NodeId) (header : BlockId) (scopes : progress.scopes = start.scopes)
    (sites : progress.sites = start.sites)
    (globals : ∀ name, name ∈ progress.globals ↔ name ∈ start.globals ∧ name ≠ value)
    (governs : law.Governs tree ⟨levels, scope, progress, body⟩) :
    Runs law scope saved start (fun walk => walk.kind? element = some .arrayLoad)
      (do
        let node ← addNode .localVar (some index) position .unknown
        addEdge element node .defUse
        let _ ← defineVariable value node
        let _ ← visit body
        connect (← currentBlock) header
        let _ ← branchFrom header)
      (progress.advance (tree.evaluate levels) (.visit body))
      fun _ walk => ∃ value, Visited tree ⟨levels, scope, progress, body⟩ value walk := by
  apply ((runs_addNode_new .localVar (some index) position .unknown).carry.weaken
    fun _ known => ⟨known, trivial⟩).bind
  intro node
  apply (runs_addEdge_new (by decide) (by decide)).bind
  intro _
  apply (runs_defineVariable value node rfl).bind
  intro key
  apply Runs.forget
  have visitsBody : Runs law scope saved
      { start with globals := start.globals.filter (· ≠ value) } (fun _ => True) (visit body)
      (tree.evaluate levels body progress)
      fun value walk => Visited tree ⟨levels, scope, progress, body⟩ value walk := by
    refine Runs.regard (visits scope saved progress body governs) scopes sites fun name => ?_
    rw [globals, List.mem_filter, decide_eq_true_iff]
  apply visitsBody.bind
  intro bodyValue
  have leaves : Neutral (do
      connect (← currentBlock) header
      let _ ← branchFrom header) :=
    neutral_currentBlock.bind fun _ => (neutral_connect _ _).bind fun _ =>
      (neutral_branchFrom header).bind fun _ => .pure _
  exact leaves.runs.last fun _ _ _ visited => ⟨bodyValue, visited⟩

/-- So is the key, if there is one. -/
theorem runs_foreachRound {key : Option StrId} {value : StrId} {body : NodeIndex}
    (position : Option Position) (element : NodeId) (header : BlockId)
    (permits : law.PermitsAll tree ⟨levels + 1, scope, progress, index⟩ data
      [.overwrite (key.toList ++ [value]), .visit body] start) :
    Runs law scope saved start (fun walk => walk.kind? element = some .arrayLoad)
      (do
        if let some key := key then
          let node ← addNode .localVar (some index) position .unknown
          let _ ← defineVariable key node
        let node ← addNode .localVar (some index) position .unknown
        addEdge element node .defUse
        let _ ← defineVariable value node
        let _ ← visit body
        connect (← currentBlock) header
        let _ ← branchFrom header)
      ([.overwrite (key.toList ++ [value]), .visit body].foldl
        (Progress.advance (tree.evaluate levels)) start)
      fun _ walk => Follows tree ⟨levels + 1, scope, progress, index⟩ (fun _ _ => True)
        [.overwrite (key.toList ++ [value]), .visit body] start walk := by
  have bodies := fun current scopes sites globals => @runs_foreachBody law scope saved
    (start.advance (tree.evaluate levels) (.overwrite (key.toList ++ [value]))) current tree levels
    visit index visits value body position element header scopes sites globals permits.2.1.1
  have done : ∀ walk, (∃ bodyValue, Visited tree ⟨levels, scope,
      start.advance (tree.evaluate levels) (.overwrite (key.toList ++ [value])), body⟩ bodyValue
        walk) →
      Follows tree ⟨levels + 1, scope, progress, index⟩ (fun _ _ => True)
        [.overwrite (key.toList ++ [value]), .visit body] start walk := by
    rintro walk ⟨bodyValue, visited⟩
    exact ⟨trivial, ⟨bodyValue, visited, trivial⟩, trivial⟩
  cases key with
  | none =>
      apply (bodies start rfl rfl ?_).imp fun _ => done
      intro name
      simp [Progress.advance]
  | some key =>
      apply ((runs_addNode_new .localVar (some index) position .unknown).carry.weaken
        fun _ known => ⟨known, trivial⟩).bind
      intro node
      apply (runs_defineVariable key node rfl).carry.bind
      intro _
      apply Runs.weaken _ fun _ facts => facts.1
      apply (bodies { start with globals := start.globals.filter (· ≠ key) } rfl rfl ?_).imp
        fun _ => done
      intro name
      simp [Progress.advance]
      tauto

theorem runs_visitForeach {iterable : NodeIndex} {key : Option StrId} {value : StrId}
    {body : NodeIndex} (position : Option Position)
    (known : tree.dataAt? ⟨levels + 1, scope, progress, index⟩ =
      some (.foreachStmt iterable key value body))
    (governs : law.Governs tree ⟨levels + 1, scope, progress, index⟩)
    (permits : law.PermitsAll tree ⟨levels + 1, scope, progress, index⟩ data
      ((NodeData.foreachStmt iterable key value body).plan tree) progress) :
    Runs law scope saved progress (fun _ => True)
      (visitForeach visit index iterable key value body position)
      (((NodeData.foreachStmt iterable key value body).plan tree).foldl
        (Progress.advance (tree.evaluate levels)) progress)
      fun _ walk => NotesAccesses tree ⟨levels + 1, scope, progress, index⟩ walk ∧
        Follows tree ⟨levels + 1, scope, progress, index⟩ (fun _ _ => True)
          ((NodeData.foreachStmt iterable key value body).plan tree) progress walk := by
  apply (runs_child visits permits.1).bind
  intro source
  apply neutral_currentBlock.runsBind
  intro before
  apply (neutral_branchFrom before).runsBind
  intro header
  apply (neutral_branchFrom header).runsBind
  intro _
  apply runs_accessOf source (some index) position none .unknown ⟨rfl, rfl⟩
  · exact fun walk visited =>
      visited.within_.mono fun source yields => governs.here.accesses _ _ source (.iterate known) yields
  · intro element
    have rounds := @runs_foreachRound law scope saved progress _ tree levels visit index _ visits key
      value body position element header permits.2
    have kept : Runs law scope saved _ (fun walk =>
        (Accessed none source walk ∧
          Visited tree (Place.child ⟨levels + 1, scope, progress, index⟩ progress iterable) source
            walk) ∧ walk.kind? element = some .arrayLoad) _ _ _ := rounds.carry
    refine (kept.weaken fun walk facts => ⟨⟨facts.1, facts.2.2⟩, facts.2.1⟩).imp ?_
    rintro _ walk ⟨⟨accessed, visited⟩, follows⟩
    exact ⟨notesAccesses_of_iterate known ⟨source, visited.valued, accessed⟩,
      ⟨source, visited, trivial⟩, follows⟩

theorem handles_foreach (iterable : NodeIndex) (key : Option StrId) (value : StrId)
    (body : NodeIndex) (position : Option Position) :
    Handles law tree levels index (.foreachStmt iterable key value body)
      (do
        visitForeach visit index iterable key value body position
        return none) := by
  apply Handles.of_accesses rfl
  intro scope saved progress known governs permits
  apply (runs_visitForeach visits position known governs permits).bind
  intro _
  apply Runs.pure
  rintro walk ⟨accesses, follows⟩
  exact ⟨withinOf_none, accesses, follows.mono fun value _ => met_of_false rfl value⟩

end

end EscapePlan.Walker
