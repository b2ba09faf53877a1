import EscapePlan.Proofs.Analysis.Statements

/-!
# Visits of expressions

The forms of nodes that have values, or whose operands escape.
-/

namespace EscapePlan.Walker

open Walk

variable {law : Law} {scope : Nat} {saved : List Bindings} {progress start finish : Progress}
  {given : Walk → Prop} {tree : Tree} {levels : Nat} {visit : Visit} {index : NodeIndex}
  {data : NodeData}

/-! ## Operands that escape -/

/-- Control leaves with a value that may be there. -/
theorem runs_leave (value : Option NodeId) (reason : EscapeReason) (position : Option Position)
    [Lasting given] (allowed : ∀ walk, given walk → WithinOf law.exposes value walk) :
    Runs law scope saved start given
      (do
        let exit ← addNode .returnValue (some index) position .unknown
        if let some value := value then
          addSink value exit .defUse reason position
        leaveControl
        return none : Walker (Option NodeId))
      start fun result walk => WithinOf (fun _ => False) result walk ∧ Sunk value walk ∧
        given walk := by
  apply (runs_addNode_kind .returnValue (some index) position .unknown).andThen
  intro exit
  apply runs_addSinkOf value exit .defUse reason position
  · exact fun walk facts => ⟨allowed walk facts.2, receives_of_kind facts.1 rfl⟩
  apply neutral_leaveControl.runsBind
  intro _
  exact Runs.pure fun _ facts => ⟨withinOf_none, facts.1, facts.2.2⟩

section

variable (visits : Visits law tree levels visit)
include visits

theorem handles_throw (value : NodeIndex) (position : Option Position) :
    Handles law tree levels index (.throwStmt value)
      (do
        let thrown ← visit value
        let exit ← addNode .returnValue (some index) position .unknown
        if let some thrown := thrown then
          addSink thrown exit .defUse .thrownAsException position
        leaveControl
        return none) := by
  apply Handles.of_steps rfl rfl
  intro scope saved progress permits
  apply (runs_child visits permits.1).bind
  intro thrown
  apply (runs_leave thrown .thrownAsException position fun walk visited =>
    visited.within_.mono (permits.1.2 rfl)).imp
  rintro _ walk ⟨mute, sunk, visited⟩
  exact ⟨mute, ⟨thrown, visited, fun _ => sunk⟩, trivial⟩

theorem handles_return (value : Option NodeIndex) (position : Option Position) :
    Handles law tree levels index (.returnStmt value)
      (do
        let value ← match value with
          | none => pure none
          | some value => visit value
        let exit ← addNode .returnValue (some index) position .unknown
        if let some value := value then
          addSink value exit .defUse .returned position
        leaveControl
        return none) := by
  apply Handles.of_steps rfl rfl
  intro scope saved progress permits
  cases value with
  | none =>
      apply (runs_leave none .returned position fun _ _ => withinOf_none).imp
      exact fun _ _ facts => ⟨facts.1, trivial⟩
  | some value =>
      apply (runs_child visits permits.1).bind
      intro returned
      apply (runs_leave returned .returned position fun walk visited =>
        visited.within_.mono (permits.1.2 rfl)).imp
      rintro _ walk ⟨mute, sunk, visited⟩
      exact ⟨mute, ⟨returned, visited, fun _ => sunk⟩, trivial⟩

theorem runs_visitArgument (position : Option Position) {arg : NodeIndex}
    (exposes : data.exposesOperands = true)
    (permitted : law.Permits tree ⟨levels + 1, scope, progress, index⟩ data (.visit arg) start) :
    Runs law scope saved start (fun _ => True) (visitArgument visit position arg)
      (start.advance (tree.evaluate levels) (.visit arg))
      fun _ walk =>
        Done tree ⟨levels + 1, scope, progress, index⟩ Sunk (.visit arg) start walk := by
  apply (runs_child visits permitted).bind
  intro value
  cases value with
  | none => exact Runs.pure fun _ visited => ⟨none, visited, nofun⟩
  | some value =>
      apply ((runs_passToUnknown value (some arg) position).weaken fun walk
        (visited : Visited tree (Place.child ⟨levels + 1, scope, progress, index⟩ start arg)
          (some value) walk) =>
        visited.within_.mono (permitted.2 exposes) value rfl).keepGiven.imp
      rintro _ walk ⟨sunk, visited⟩
      refine ⟨some value, visited, fun id same => ?_⟩
      cases same
      exact sunk

theorem runs_visitArguments (position : Option Position) {args : List NodeIndex}
    (exposes : data.exposesOperands = true)
    (permits : law.PermitsAll tree ⟨levels + 1, scope, progress, index⟩ data (args.map .visit)
      start) :
    Runs law scope saved start (fun _ => True)
      (forIn args PUnit.unit fun arg _ => do
        visitArgument visit position arg
        return .yield PUnit.unit)
      ((args.map Step.visit).foldl (Progress.advance (tree.evaluate levels)) start)
      fun _ walk => Follows tree ⟨levels + 1, scope, progress, index⟩ Sunk (args.map .visit) start
        walk :=
  runs_rounds permits fun _ _ permitted => runs_visitArgument visits position exposes permitted

omit visits in
/-- Nothing is known of what a call returns. -/
theorem runs_result (position : Option Position) :
    Runs law scope saved start (fun _ => True)
      (some <$> addNode .callResult (some index) position .unknown) start
      fun value walk => WithinOf (fun _ => False) value walk :=
  Runs.map ((runs_addNode_kind .callResult (some index) position .unknown).imp fun _ _ known =>
    withinOf_of_mute ⟨_, known, rfl⟩)

theorem handles_functionCall (name : StrId) (args : List NodeIndex) (position : Option Position) :
    Handles law tree levels index (.functionCall name args)
      (do
        for arg in args do
          visitArgument visit position arg
        some <$> addNode .callResult (some index) position .unknown) := by
  apply Handles.of_steps rfl rfl
  intro scope saved progress permits
  apply (runs_visitArguments visits position rfl permits).bind
  intro _
  apply (runs_result position).last
  exact fun _ walk mute follows => ⟨mute, follows.mono fun _ sunk _ => sunk⟩

theorem handles_methodCall (object : NodeIndex) (method : StrId) (args : List NodeIndex)
    (position : Option Position) :
    Handles law tree levels index (.methodCall object method args)
      (do
        visitArgument visit position object
        for arg in args do
          visitArgument visit position arg
        some <$> addNode .callResult (some index) position .unknown) := by
  apply Handles.of_steps rfl rfl
  intro scope saved progress permits
  apply (runs_visitArgument visits position rfl permits.1).bind
  intro _
  apply (runs_visitArguments visits position rfl permits.2).andThen
  intro _
  apply (runs_result position).last
  rintro _ walk mute ⟨follows, done⟩
  exact ⟨mute, Follows.mono ⟨done, follows⟩ fun _ sunk _ => sunk⟩

/-! ## Accesses -/

theorem handles_propertyAccess (object : NodeIndex) (property : StrId)
    (position : Option Position) :
    Handles law tree levels index (.propertyAccess object property)
      (do
        let base ← visit object
        let load ← addNode .fieldLoad (some index) position .unknown
        if let some base := base then
          addAccess base load (some (tree.name property)) .unknown
        return some load) := by
  apply Handles.of_accesses rfl
  intro scope saved progress known governs permits
  apply (runs_child visits permits.1).bind
  intro base
  apply runs_accessOf base (some index) position (some (tree.name property)) .unknown ⟨rfl, rfl⟩
  · exact fun walk visited => visited.within_.mono fun source yields =>
      governs.here.accesses _ _ source (.load known rfl) yields
  intro load
  apply Runs.pure
  rintro walk ⟨accessed, loaded, visited⟩
  have based : Based tree (Place.child ⟨levels + 1, scope, progress, index⟩ progress object)
      (some (tree.name property)) walk := ⟨base, visited.valued, accessed⟩
  exact ⟨withinOf_of_mute ⟨_, loaded, rfl⟩, notesAccesses_of_load known rfl based,
    ⟨base, visited, met_of_false rfl base⟩, trivial⟩

/-- An array and an index that need not be there. -/
theorem runs_element {array : NodeIndex} {element : Option NodeIndex} {α : Type}
    {next : Option NodeId → Walker α} {holds : α → Walk → Prop} [Lasting given]
    (permits : law.PermitsAll tree ⟨levels + 1, scope, progress, index⟩ data
      (.visit array :: element.toList.map .visit) start)
    (rest : ∀ base, Runs law scope saved
      ((.visit array :: element.toList.map Step.visit).foldl
        (Progress.advance (tree.evaluate levels)) start)
      (fun walk => (Visited tree (Place.child ⟨levels + 1, scope, progress, index⟩ start array) base
          walk ∧
        Follows tree ⟨levels + 1, scope, progress, index⟩ (fun _ _ => True)
          (.visit array :: element.toList.map .visit) start walk) ∧ given walk)
      (next base) finish holds) :
    Runs law scope saved start given
      (do
        let base ← visit array
        if let some element := element then
          let _ ← visit element
        next base)
      finish holds := by
  apply (runs_child visits permits.1).andThen
  intro base
  cases element with
  | none =>
      apply (rest base).weaken
      exact fun _ facts => ⟨⟨facts.1, ⟨base, facts.1, trivial⟩, trivial⟩, facts.2⟩
  | some element =>
      apply (runs_child visits permits.2.1).andThen
      intro value
      apply (rest base).weaken
      rintro walk ⟨visitedElement, visited, facts⟩
      exact ⟨⟨visited, ⟨base, visited, trivial⟩, ⟨value, visitedElement, trivial⟩, trivial⟩, facts⟩

theorem handles_arrayAccess (array : NodeIndex) (element : Option NodeIndex)
    (position : Option Position) :
    Handles law tree levels index (.arrayAccess array element)
      (do
        let base ← visit array
        if let some element := element then
          let _ ← visit element
        let load ← addNode .arrayLoad (some index) position .unknown
        if let some base := base then
          addAccess base load none .unknown
        return some load) := by
  apply Handles.of_accesses rfl
  intro scope saved progress known governs permits
  apply runs_element visits permits
  intro base
  apply runs_accessOf base (some index) position none .unknown ⟨rfl, rfl⟩
  · exact fun walk facts => facts.1.1.within_.mono fun source yields =>
      governs.here.accesses _ _ source (.load known rfl) yields
  intro load
  apply Runs.pure
  rintro walk ⟨accessed, loaded, ⟨visited, follows⟩, -⟩
  have based : Based tree (Place.child ⟨levels + 1, scope, progress, index⟩ progress array) none
      walk := ⟨base, visited.valued, accessed⟩
  exact ⟨withinOf_of_mute ⟨_, loaded, rfl⟩, notesAccesses_of_load known rfl based,
    follows.mono fun value _ => met_of_false rfl value⟩

/-! ## Allocations -/

omit visits in
/-- All values of a list meet a sink. -/
theorem runs_sinkAll {values : List (Option NodeId)} {action : NodeId → Walker Unit}
    [Lasting given] (allowed : ∀ walk, given walk → ∀ value ∈ values, WithinOf law.exposes value walk)
    (sinks : ∀ value, Runs law scope saved start (fun walk => walk.Within law.exposes value)
      (action value) start fun _ walk => ∃ sink ∈ walk.sinks, sink.value = value) :
    Runs law scope saved start given
      (forIn values PUnit.unit fun value _ => do
        if let some value := value then
          action value
        return .yield PUnit.unit)
      start fun _ walk => ∀ value ∈ values, Sunk value walk := by
  apply runs_forIn_constant
  intro value member
  cases value with
  | none => exact Runs.pure fun _ _ => ⟨rfl, nofun⟩
  | some value =>
      apply ((sinks value).weaken fun walk facts => allowed walk facts _ member value rfl).bind
      intro _
      apply Runs.pure
      intro walk sunk
      refine ⟨rfl, fun id same => ?_⟩
      cases same
      exact sunk

theorem handles_objectInstantiation (config : Config) (className : StrId) (args : List NodeIndex)
    (position : Option Position) :
    Handles law tree levels index (.objectInstantiation className args)
      (do
        let args ← args.mapM visit
        let node ← addAllocation config index position .object (some (tree.name className))
          args.length
        for arg in args do
          if let some arg := arg then
            passToUnknown arg (some index) position
        return some node) := by
  intro scope saved progress dataEq governs
  have known := @dataAt?_eq scope progress tree levels index _ dataEq
  rw [NodeData.plan, List.foldl_append]
  apply (runs_operands visits rfl (governs.permitsAll known).of_append.1).bind
  intro values
  apply (runs_addAllocation config index position .object (some (tree.name className))
    values.length).andThen
  intro node
  apply (runs_sinkAll (fun _ facts => facts.2.2) fun value =>
    runs_passToUnknown value (some index) position).keepGiven.bind
  intro _
  apply Runs.pure
  rintro walk ⟨sunk, ⟨site, represents⟩, follows, -⟩
  exact visited_of_operands known rfl rfl rfl rfl
    (follows.mono fun value member => sunk value member) site represents

theorem handles_arrayInit (config : Config) (elements : List NodeIndex)
    (position : Option Position) :
    Handles law tree levels index (.arrayInit elements)
      (do
        let elements ← elements.mapM visit
        let node ← addAllocation config index position .array none elements.length
        for element in elements do
          if let some element := element then
            addSink element node .elementOf .storedToArray position
        return some node) := by
  intro scope saved progress dataEq governs
  have known := @dataAt?_eq scope progress tree levels index _ dataEq
  rw [NodeData.plan, List.foldl_append]
  apply (runs_operands visits rfl (governs.permitsAll known).of_append.1).bind
  intro values
  apply (runs_addAllocation config index position .array none values.length).andThen
  intro node
  apply (runs_sinkAll (fun _ facts => facts.2.2) fun value =>
    (runs_addSink value node .elementOf .storedToArray position).weaken fun _ allowed =>
      ⟨allowed, receives_of_ne (by decide) (by decide)⟩).keepGiven.bind
  intro _
  apply Runs.pure
  rintro walk ⟨sunk, ⟨site, represents⟩, follows, -⟩
  exact visited_of_operands known rfl rfl rfl rfl
    (follows.mono fun value member => sunk value member) site represents

theorem handles_closure (config : Config) (params captures : List StrId) (body : NodeIndex)
    (position : Option Position) :
    Handles law tree levels index (.closure params captures body)
      (some <$> visitClosure config visit index params captures body position) := by
  intro scope saved progress dataEq governs
  have known : tree.dataAt? ⟨levels + 1, scope, progress, index⟩ =
      some (.closure params captures body) := dataAt?_eq dataEq
  have enters : tree.Performs ⟨levels + 1, scope, progress, index⟩ (.enter body)
      { progress with sites := progress.sites + 1 } := ⟨_, known, .later .here⟩
  have exposed (name : StrId) (member : name ∈ captures) (undeclared : name ∉ progress.globals) :
      law.exposes (.named ⟨scope, name⟩) :=
    governs.here.exposes _ (.captured known member undeclared)
  have flowing (name : StrId) (member : name ∈ captures) (undeclared : name ∉ progress.globals) :
      law.flows ⟨{ progress with sites := progress.sites + 1 }.scopes + 1, name⟩
        (.named ⟨scope, name⟩) :=
    governs.here.flows _ _ (.captured known member undeclared enters)
  have governsBody : law.Governs tree ⟨levels, progress.scopes + 1,
      { progress with sites := progress.sites + 1 }.entered, body⟩ :=
    (governs.permitsAll known).2.1
  have covers (outside : List Bindings) := (visits (progress.scopes + 1) outside
    { progress with sites := progress.sites + 1 }.entered body governsBody).imp
      fun _ _ visited => visited.covers
  apply Runs.map
  apply (runs_visitClosure config index params captures position exposed flowing covers).imp
  rintro id walk ⟨⟨site, represents⟩, coversBody, captured⟩
  have steps : Follows tree ⟨levels + 1, scope, progress, index⟩ (fun _ _ => True)
      ((NodeData.closure params captures body).plan tree) progress walk :=
    ⟨trivial, coversBody, trivial⟩
  have accesses : NotesAccesses tree ⟨levels + 1, scope, progress, index⟩ walk :=
    notesAccesses_of_false known rfl nofun
  have sites : NotesSites tree ⟨levels + 1, scope, progress, index⟩ walk := by
    rintro made ⟨data, dataEq, takes⟩
    cases known.symm.trans dataEq
    rw [takes.of_closure.2 rfl]
    exact ⟨id, site, represents⟩
  refine ⟨covers_of_steps known ⟨?_, ?_, accesses, sites, cut_of_some known⟩ steps,
    fun source yields => ⟨id, rfl, ?_⟩, ?_⟩
  · intro key source flows
    cases flows with
    | assigned foundEq => cases known.symm.trans foundEq
    | captured foundEq member undeclared performs =>
        cases known.symm.trans foundEq
        rcases captured _ member with ⟨bound, rfl, facts, flowed⟩
        rcases performs with ⟨data, dataEq, takes⟩
        cases known.symm.trans dataEq
        rw [takes.of_closure.1]
        exact ⟨bound.2.2, flowed, facts.varKey undeclared⟩
  · intro source exposes
    cases exposes with
    | operand foundEq exposed =>
        cases known.symm.trans foundEq
        contradiction
    | stored foundEq => cases known.symm.trans foundEq
    | captured foundEq member undeclared =>
        cases known.symm.trans foundEq
        rcases captured _ member with ⟨bound, rfl, facts, -⟩
        rcases facts.sunk with ⟨sink, listed, sinkEq⟩
        exact ⟨sink, listed, sinkEq ▸ facts.varKey undeclared⟩
  · cases yields with
    | site performs =>
        rcases performs with ⟨data, dataEq, takes⟩
        cases known.symm.trans dataEq
        rw [takes.of_closure.2 rfl]
        exact represents
    | named foundEq => cases known.symm.trans foundEq
    | assigned foundEq => cases known.symm.trans foundEq
  · rintro other same
    cases same
    exact .inr ⟨_, .site ⟨_, known, .here⟩, represents⟩

end

/-! ## Assignments -/

/-- What may be assigned to some place: what may be exposed, unless the place is a variable that
is not global, and what may flow into it in this case. -/
def Fits (law : Law) (scope : Nat) (progress : Progress) (place : Option NodeData)
    (value : Option NodeId) (walk : Walk) : Prop :=
  ((∀ name, place = some (.var name) → Progress.IsGlobal name progress) →
      WithinOf law.exposes value walk) ∧
    ∀ name, place = some (.var name) → ¬ Progress.IsGlobal name progress →
      WithinOf (law.flows ⟨scope, name⟩) value walk

instance (place : Option NodeData) (value : Option NodeId) :
    Lasting (Fits law scope progress place value) := by
  unfold Fits
  infer_instance

/-- What is assigned to no variable may be exposed. -/
theorem Fits.exposes {place : Option NodeData} {value : Option NodeId} {walk : Walk}
    (fits : Fits law scope progress place value walk)
    (noVariable : ∀ name, place ≠ some (.var name)) : WithinOf law.exposes value walk :=
  fits.1 fun name placeEq => absurd placeEq (noVariable name)

section

variable (visits : Visits law tree levels visit)
include visits

theorem runs_storeProperty (target : NodeIndex) {object : NodeIndex} {property : StrId}
    (value : Option NodeId) (type : ValueType) (position : Option Position)
    (permits : law.PermitsAll tree ⟨levels + 1, scope, progress, index⟩ data [.visit object] start)
    (accesses : ∀ source, tree.Yields Progress.IsGlobal
      (Place.child ⟨levels + 1, scope, progress, index⟩ start object) source →
        law.accesses (some (tree.name property)) source) :
    Runs law scope saved start (WithinOf law.exposes value)
      (storeProperty tree visit target object property value type position)
      ([.visit object].foldl (Progress.advance (tree.evaluate levels)) start)
      fun id walk => WithinOf (fun _ => False) (some id) walk ∧ Sunk value walk ∧
        Based tree (Place.child ⟨levels + 1, scope, progress, index⟩ start object)
          (some (tree.name property)) walk ∧
        Follows tree ⟨levels + 1, scope, progress, index⟩ (fun _ _ => True) [.visit object] start
          walk := by
  apply (runs_child visits permits.1).andThen
  intro base
  apply runs_accessOf base (some target) position (some (tree.name property)) type ⟨rfl, rfl⟩
  · exact fun walk facts => facts.1.within_.mono accesses
  intro store
  apply runs_addSinkOf value store .fieldOf .storedToHeap position
  · exact fun walk facts => ⟨facts.2.2.2, receives_of_ne (by decide) (by decide)⟩
  apply Runs.pure
  rintro walk ⟨sunk, accessed, stored, visited, -⟩
  exact ⟨withinOf_of_mute ⟨_, stored, rfl⟩, sunk, ⟨base, visited.valued, accessed⟩,
    ⟨base, visited, trivial⟩, trivial⟩

theorem runs_storeElement (target : NodeIndex) {array : NodeIndex} {element : Option NodeIndex}
    (value : Option NodeId) (type : ValueType) (position : Option Position)
    (permits : law.PermitsAll tree ⟨levels + 1, scope, progress, index⟩ data
      (.visit array :: element.toList.map .visit) start)
    (accesses : ∀ source, tree.Yields Progress.IsGlobal
      (Place.child ⟨levels + 1, scope, progress, index⟩ start array) source →
        law.accesses none source) :
    Runs law scope saved start (WithinOf law.exposes value)
      (storeElement visit target array element value type position)
      ((.visit array :: element.toList.map Step.visit).foldl
        (Progress.advance (tree.evaluate levels)) start)
      fun id walk => WithinOf (fun _ => False) (some id) walk ∧ Sunk value walk ∧
        Based tree (Place.child ⟨levels + 1, scope, progress, index⟩ start array) none walk ∧
        Follows tree ⟨levels + 1, scope, progress, index⟩ (fun _ _ => True)
          (.visit array :: element.toList.map .visit) start walk := by
  apply runs_element visits permits
  intro base
  apply runs_accessOf base (some target) position none type ⟨rfl, rfl⟩
  · exact fun walk facts => facts.1.1.within_.mono accesses
  intro store
  apply runs_addSinkOf value store .elementOf .storedToArray position
  · exact fun walk facts => ⟨facts.2.2.2, receives_of_ne (by decide) (by decide)⟩
  apply Runs.pure
  rintro walk ⟨sunk, accessed, stored, ⟨visited, follows⟩, -⟩
  exact ⟨withinOf_of_mute ⟨_, stored, rfl⟩, sunk, ⟨base, visited.valued, accessed⟩, follows⟩

omit visits in
theorem runs_heap (target : NodeIndex) (value : Option NodeId) (type : ValueType)
    (position : Option Position) [Lasting given]
    (allowed : ∀ walk, given walk → WithinOf law.exposes value walk) :
    Runs law scope saved start given
      (do
        let sink ← addNode .globalVar (some target) position type
        if let some value := value then
          addSink value sink .defUse .storedToHeap position)
      start fun _ walk => Sunk value walk ∧ given walk := by
  apply (runs_addNode_kind .globalVar (some target) position type).andThen
  intro sink
  apply runs_addSinkOf value sink .defUse .storedToHeap position
  · exact fun walk facts => ⟨allowed walk facts.2, receives_of_kind facts.1 rfl⟩
  exact Runs.pure fun _ facts => ⟨facts.1, facts.2.2⟩

theorem runs_storeElsewhere {target : NodeIndex} (value : Option NodeId) (type : ValueType)
    (position : Option Position)
    (permits : law.PermitsAll tree ⟨levels + 1, scope, progress, index⟩ data [.visit target] start) :
    Runs law scope saved start (WithinOf law.exposes value)
      (storeElsewhere visit target false value type position)
      ([.visit target].foldl (Progress.advance (tree.evaluate levels)) start)
      fun _ walk => Sunk value walk ∧ Follows tree ⟨levels + 1, scope, progress, index⟩
        (fun _ _ => True) [.visit target] start walk := by
  apply (runs_child visits permits.1).andThen
  intro stored
  apply (runs_heap target value type position fun _ facts => facts.2).imp
  rintro _ walk ⟨sunk, visited, -⟩
  exact ⟨sunk, ⟨stored, visited, trivial⟩, trivial⟩

theorem runs_target {target : NodeIndex} (value : Option NodeId) (type : ValueType)
    (position : Option Position)
    (permits : law.PermitsAll tree ⟨levels + 1, scope, progress, index⟩ data
      (tree.targetPlan target) start)
    (accesses : ∀ place base field, tree.data? target = some place →
      place.base? tree = some (base, field) → ∀ source, tree.Yields Progress.IsGlobal
        (Place.child ⟨levels + 1, scope, progress, index⟩ start base) source →
          law.accesses field source) :
    Runs law scope saved start (Fits law scope start (tree.data? target) value)
      (match tree.data? target with
        | some (.var name) => some <$> assignVariable name target value type position
        | some (.propertyAccess object property) =>
            some <$> storeProperty tree visit target object property value type position
        | some (.arrayAccess array index) =>
            some <$> storeElement visit target array index value type position
        | other => do
            storeElsewhere visit target other.isNone value type position
            return none)
      ((tree.targetPlan target).foldl (Progress.advance (tree.evaluate levels)) start)
      fun result walk => Assigned scope start (tree.data? target) value result walk ∧
        Stored tree ⟨levels + 1, scope, progress, index⟩ start (tree.data? target) walk ∧
        Follows tree ⟨levels + 1, scope, progress, index⟩ (fun _ _ => True)
          (tree.targetPlan target) start walk := by
  have elsewhere (place : NodeData) (noVariable : ∀ name, some place ≠ some (.var name))
      (noBase : place.base? tree = none)
      (permits : law.PermitsAll tree ⟨levels + 1, scope, progress, index⟩ data [.visit target]
        start) :
      Runs law scope saved start (Fits law scope start (some place) value)
        (do
          storeElsewhere visit target false value type position
          return none)
        ([.visit target].foldl (Progress.advance (tree.evaluate levels)) start)
        fun result walk => Assigned scope start (some place) value result walk ∧
          Stored tree ⟨levels + 1, scope, progress, index⟩ start (some place) walk ∧
          Follows tree ⟨levels + 1, scope, progress, index⟩ (fun _ _ => True) [.visit target]
            start walk := by
    apply Runs.weaken _ fun walk fits => fits.exposes noVariable
    apply (runs_storeElsewhere visits value type position permits).bind
    intro _
    apply Runs.pure
    rintro walk ⟨sunk, follows⟩
    refine ⟨Assigned.of_sunk noVariable sunk withinOf_none, fun stored base field same based => ?_,
      follows⟩
    cases same
    rw [noBase] at based
    contradiction
  rw [Tree.targetPlan] at permits ⊢
  generalize tree.data? target = place at permits accesses ⊢
  cases place with
  | none =>
      apply Runs.weaken _ fun walk fits => fits.exposes nofun
      apply (runs_heap target value type position fun _ allowed => allowed).bind
      intro _
      exact Runs.pure fun _ facts => ⟨Assigned.of_sunk nofun facts.1 withinOf_none, nofun, trivial⟩
  | some place =>
      cases place with
      | var name =>
          apply Runs.map
          apply ((runs_assignVariable name target value type position).weaken fun walk fits =>
            ⟨fun declared => fits.1 (by simpa [Progress.IsGlobal] using declared),
              fits.2 name rfl⟩).imp
          rintro id walk ⟨global, local_⟩
          refine ⟨⟨fun declared => ?_, fun other same undeclared => ?_⟩, ?_, trivial⟩
          · rcases global (declared name rfl) with ⟨mute, sunk⟩
            exact ⟨sunk, withinOf_of_mute mute⟩
          · cases same
            rcases local_ undeclared with ⟨varKey, flowed⟩
            exact ⟨flowed, id, rfl, varKey⟩
          · intro _ _ _ same based
            cases same
            contradiction
      | propertyAccess object property =>
          apply Runs.map
          apply ((runs_storeProperty visits target value type position permits
            (accesses _ _ _ rfl rfl)).weaken fun walk fits => fits.exposes (by simp)).imp
          rintro id walk ⟨mute, sunk, based, follows⟩
          refine ⟨Assigned.of_sunk (by simp) sunk mute, ?_, follows⟩
          rintro _ _ _ same basedEq
          cases same
          cases basedEq
          exact based
      | arrayAccess array element =>
          apply Runs.map
          apply ((runs_storeElement visits target value type position permits
            (accesses _ _ _ rfl rfl)).weaken fun walk fits => fits.exposes (by simp)).imp
          rintro id walk ⟨mute, sunk, based, follows⟩
          refine ⟨Assigned.of_sunk (by simp) sunk mute, ?_, follows⟩
          rintro _ _ _ same basedEq
          cases same
          cases basedEq
          exact based
      | _ => exact elsewhere _ (by simp) rfl permits

theorem handles_assignment (target value : NodeIndex) (position : Option Position) :
    Handles law tree levels index (.assignment target value)
      (visitAssignment tree visit target value position) := by
  intro scope saved progress dataEq governs
  have known := @dataAt?_eq scope progress tree levels index _ dataEq
  have permits := governs.permitsAll known
  apply (runs_child visits permits.1).bind
  intro found
  apply neutral_get.runsBind
  intro before
  have fits (walk : Walk) (visited : Visited tree
      (Place.value ⟨levels + 1, scope, progress, index⟩ value) found walk) :
      Fits law scope (tree.progressAfter (Place.value ⟨levels + 1, scope, progress, index⟩ value))
        (tree.data? target) found walk := by
    constructor
    · exact fun declared => visited.within_.mono fun source yields =>
        governs.here.exposes _ (.stored known declared yields)
    · exact fun name targetEq undeclared => visited.within_.mono fun source yields =>
        governs.here.flows _ _ (.assigned known targetEq undeclared yields)
  apply ((runs_target visits found _ position permits.2
    fun place base field placeEq baseEq source yields =>
      governs.here.accesses _ _ source (.store known placeEq baseEq) yields).weaken
      fits).keepGiven.imp
  rintro result walk ⟨⟨assigned, stored, follows⟩, visited⟩
  exact visited_of_assignment known ⟨⟨found, visited, trivial⟩, follows⟩ visited.valued assigned
    stored

end

/-! ## Nodes without operands -/

theorem handles_var (name : StrId) (position : Option Position) :
    Handles law tree levels index (.var name) (some <$> readVariable name index position) := by
  intro scope saved progress dataEq _
  have known : tree.dataAt? ⟨levels + 1, scope, progress, index⟩ = some (.var name) :=
    dataAt?_eq dataEq
  apply Runs.map
  apply (runs_readVariable name index position).imp
  rintro id walk ⟨mute, varKey⟩
  have steps : Follows tree ⟨levels + 1, scope, progress, index⟩ (Met (.var name))
      ((NodeData.var name).plan tree) progress walk := trivial
  have accesses : NotesAccesses tree ⟨levels + 1, scope, progress, index⟩ walk :=
    notesAccesses_of_false known rfl nofun
  have sites : NotesSites tree ⟨levels + 1, scope, progress, index⟩ walk :=
    notesSites_of_notMem known List.not_mem_nil
  refine ⟨covers_of_steps known (notes_of_steps known nofun nofun accesses sites steps) steps,
    fun source yields => ⟨id, rfl, ?_⟩, ?_⟩
  · cases yields with
    | site performs =>
        rcases performs with ⟨found, foundEq, takes⟩
        cases known.symm.trans foundEq
        nomatch takes
    | named foundEq undeclared =>
        cases known.symm.trans foundEq
        exact varKey undeclared
    | assigned foundEq =>
        cases known.symm.trans foundEq
  · rintro other same
    cases same
    by_cases declared : name ∈ progress.globals
    · exact .inl (mute declared)
    · exact .inr ⟨_, .named known declared, varKey declared⟩

theorem handles_literal (value : Literal) (type : ValueType) (position : Option Position) :
    Handles law tree levels index (.literal value)
      (some <$> addNode .constant (some index) position type) := by
  apply Handles.of_steps rfl rfl
  intro scope saved progress _
  apply Runs.map
  exact (runs_addNode_kind .constant (some index) position type).imp fun _ _ known =>
    ⟨withinOf_of_mute ⟨_, known, rfl⟩, trivial⟩

theorem runs_declareAll (names : List StrId) (position : Option Position) :
    Runs law scope saved start (fun _ => True)
      (forIn names PUnit.unit fun name _ => do
        let node ← addNode .globalVar (some index) position .unknown
        modifyScopes (·.bind name node)
        return .yield PUnit.unit)
      { start with globals := names ++ start.globals } fun _ _ => True := by
  have declared (current : Progress) :
      names.foldl (fun progress name => { progress with globals := name :: progress.globals })
        current = { current with globals := names.reverse ++ current.globals } := by
    induction names generalizing current with
    | nil => rfl
    | cons name rest inductionHypothesis =>
        rw [List.foldl_cons, inductionHypothesis, List.reverse_cons, List.append_assoc]
        rfl
  have round (name : StrId) (current : Progress) (_ : True) :
      Runs law scope saved current (fun _ => True)
        (do
          let node ← addNode .globalVar (some index) position .unknown
          modifyScopes (·.bind name node)
          return ForInStep.yield PUnit.unit)
        { current with globals := name :: current.globals }
        fun next _ => next = .yield ⟨⟩ ∧ True := by
    have runs := @runs_declare law scope saved current name (some index) position
    intro walk at_ facts
    rcases runs walk at_ facts with ⟨grows, atFinish, -⟩
    exact ⟨grows, atFinish, rfl, trivial⟩
  refine Runs.arrive ((runs_forIn (.of_forall fun _ _ => trivial) round).imp fun _ _ _ => trivial) ?_ ?_ fun name => ?_
  · rw [declared]
  · rw [declared]
  · rw [declared]
    simp

theorem handles_global (names : List StrId) (position : Option Position) :
    Handles law tree levels index (.global names)
      (do
        for name in names do
          let node ← addNode .globalVar (some index) position .unknown
          modifyScopes (·.bind name node)
        return none) := by
  apply Handles.of_steps rfl rfl
  intro scope saved progress _
  apply (runs_declareAll names position).bind
  intro _
  exact Runs.pure fun _ _ => ⟨withinOf_none, trivial, trivial⟩

end EscapePlan.Walker
