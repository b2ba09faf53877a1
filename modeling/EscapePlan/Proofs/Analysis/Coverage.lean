import EscapePlan.Proofs.Analysis.Bodies

/-!
# What a visit has to note

A visit covers a place if everything that happens at and below it has been noted: whatever
flows into a variable there, and whatever is exposed or accessed there.  Nothing but the steps
that are taken at the place and the place itself have to be looked at.

On the other hand nothing else may be noted: a law governs a place if it allows whatever happens
at and below it.
-/

namespace EscapePlan

/-! ## What may be noted at a place -/

namespace Law

/-- A law allows whatever happens at a place to be noted. -/
structure Allows (law : Law) (tree : Tree) (place : Place) : Prop where
  flows : ∀ key source, tree.Flows Progress.IsGlobal place key source → law.flows key source
  exposes : ∀ source, tree.Exposes Progress.IsGlobal place source → law.exposes source
  accesses : ∀ base field source, tree.Accesses place base field →
    tree.Yields Progress.IsGlobal base source → law.accesses field source

/-- A law allows whatever happens at a place and below it. -/
def Governs (law : Law) (tree : Tree) (place : Place) : Prop :=
  ∀ lower, tree.Below place lower → law.Allows tree lower

/-- A law permits what happens in a step that is taken at a place. -/
def Permits (law : Law) (tree : Tree) (place : Place) (data : NodeData) (step : Step)
    (progress : Progress) : Prop :=
  match step with
  | .visit child =>
      law.Governs tree (place.child progress child) ∧
        (data.exposesOperands = true →
          ∀ source, tree.Yields Progress.IsGlobal (place.child progress child) source →
            law.exposes source)
  | .enter body => law.Governs tree (place.body progress body)
  | _ => True

/-- A law permits what happens in the steps of a plan. -/
def PermitsAll (law : Law) (tree : Tree) (place : Place) (data : NodeData) (plan : List Step)
    (start : Progress) : Prop :=
  Along (Progress.advance (tree.evaluate (place.levels - 1))) (law.Permits tree place data) plan
    start

variable {law : Law} {tree : Tree} {place : Place} {data : NodeData}

theorem Governs.here (governs : law.Governs tree place) : law.Allows tree place :=
  governs place (.refl place)

/-- A law that governs a place permits all steps that are taken there. -/
theorem Governs.permitsAll (governs : law.Governs tree place)
    (dataEq : tree.dataAt? place = some data) :
    law.PermitsAll tree place data (data.plan tree) place.progress := by
  apply Along.of_takes
  intro step progress takes
  cases step with
  | visit child =>
      have performs : tree.Performs place (.visit child) progress := ⟨data, dataEq, takes⟩
      refine ⟨fun lower below => governs lower (.visit performs below), fun exposes source yields => ?_⟩
      exact governs.here.exposes source (.operand dataEq exposes performs yields)
  | enter body => exact fun lower below => governs lower (.enter ⟨data, dataEq, takes⟩ below)
  | allocate => trivial
  | declare names => trivial
  | overwrite names => trivial

end Law

namespace Walk

/-! ## What has to be noted at a place -/

/-- The accesses of an occurrence have been noted. -/
def NotesAccesses (tree : Tree) (place : Place) (walk : Walk) : Prop :=
  ∀ base field source, tree.Accesses place base field →
    tree.Yields Progress.IsGlobal base source →
    ∃ access, access ∈ walk.accesses ∧ access.field = field ∧ walk.Represents access.base source

/-- The site of an occurrence has been noted, with the scope it belongs to. -/
def NotesSites (tree : Tree) (place : Place) (walk : Walk) : Prop :=
  ∀ progress, tree.Performs place .allocate progress →
    ∃ id, walk.sites[progress.sites]? = some (id, place.scope) ∧
      walk.Represents id (.site ⟨progress.sites, place.index⟩)

/-- A walk has noted what happens at a place. -/
structure Notes (tree : Tree) (place : Place) (walk : Walk) : Prop where
  flows : ∀ key source, tree.Flows Progress.IsGlobal place key source →
    ∃ id, (key, id) ∈ walk.flows ∧ walk.Represents id source
  exposes : ∀ source, tree.Exposes Progress.IsGlobal place source →
    ∃ sink, sink ∈ walk.sinks ∧ walk.Represents sink.value source
  accesses : NotesAccesses tree place walk
  sites : NotesSites tree place walk
  /-- Where the tree is cut off the scope counts as truncated. -/
  cut : place.levels = 0 → tree.data? place.index ≠ none → place.scope ∈ walk.truncated

/-- A walk has noted what happens at a place and below it. -/
def Covers (tree : Tree) (place : Place) (walk : Walk) : Prop :=
  ∀ lower, tree.Below place lower → Notes tree lower walk

/-- A value stands for whatever an expression may come from. -/
def Valued (tree : Tree) (place : Place) (value : Option NodeId) (walk : Walk) : Prop :=
  ∀ source, tree.Yields Progress.IsGlobal place source →
    ∃ id, value = some id ∧ walk.Represents id source

/-- What holds after a visit. -/
structure Visited (tree : Tree) (place : Place) (value : Option NodeId) (walk : Walk) : Prop where
  covers : Covers tree place walk
  valued : Valued tree place value walk
  /-- The value stands for nothing else. -/
  within_ : Walker.WithinOf (tree.Yields Progress.IsGlobal place) value walk

/-- The base of an access at a place has been accessed. -/
def Based (tree : Tree) (place : Place) (field : Option String) (walk : Walk) : Prop :=
  ∃ base, Valued tree place base walk ∧ Walker.Accessed field base walk

/-- What holds after a step that is taken at a place, if something more is known of the values
of the expressions that are visited. -/
def Done (tree : Tree) (place : Place) (known : Option NodeId → Walk → Prop) (step : Step)
    (progress : Progress) (walk : Walk) : Prop :=
  match step with
  | .visit child =>
      ∃ value, Visited tree (place.child progress child) value walk ∧ known value walk
  | .enter body => Covers tree (place.body progress body) walk
  | _ => True

/-- What holds after the steps of a plan. -/
def Follows (tree : Tree) (place : Place) (known : Option NodeId → Walk → Prop)
    (plan : List Step) (start : Progress) (walk : Walk) : Prop :=
  Along (Progress.advance (tree.evaluate (place.levels - 1)))
    (fun step progress => Done tree place known step progress walk) plan start

instance (tree : Tree) (place : Place) : Lasting (NotesAccesses tree place) := by
  unfold NotesAccesses
  infer_instance

instance (tree : Tree) (place : Place) : Lasting (NotesSites tree place) := by
  unfold NotesSites
  infer_instance

instance (tree : Tree) (place : Place) : Lasting (Notes tree place) where
  last grows notes := by
    constructor
    · intro key source flows
      rcases notes.flows key source flows with ⟨id, flowed, represents⟩
      exact ⟨id, grows.flows _ flowed, represents.last grows⟩
    · intro source exposes
      rcases notes.exposes source exposes with ⟨sink, listed, represents⟩
      exact ⟨sink, grows.sinks _ listed, represents.last grows⟩
    · exact Lasting.last grows notes.accesses
    · exact Lasting.last grows notes.sites
    · exact fun none known => grows.truncated _ (notes.cut none known)

instance (tree : Tree) (place : Place) : Lasting (Covers tree place) := by
  unfold Covers
  infer_instance

instance (tree : Tree) (place : Place) (value : Option NodeId) :
    Lasting (Valued tree place value) := by
  unfold Valued
  infer_instance

instance (tree : Tree) (place : Place) (value : Option NodeId) :
    Lasting (Visited tree place value) where
  last grows visited :=
    ⟨Lasting.last grows visited.covers, Lasting.last grows visited.valued,
      Lasting.last grows visited.within_⟩

instance (tree : Tree) (place : Place) (field : Option String) :
    Lasting (Based tree place field) := by
  unfold Based
  infer_instance

instance (tree : Tree) (place : Place) (known : Option NodeId → Walk → Prop)
    [∀ value, Lasting (known value)] (step : Step) (progress : Progress) :
    Lasting (Done tree place known step progress) := by
  unfold Done
  cases step with
  | visit child => infer_instance
  | enter body =>
      show Lasting (Covers tree (place.body progress body))
      infer_instance
  | allocate => infer_instance
  | declare names => infer_instance
  | overwrite names => infer_instance

instance (tree : Tree) (place : Place) (known : Option NodeId → Walk → Prop)
    [∀ value, Lasting (known value)] (plan : List Step) (start : Progress) :
    Lasting (Follows tree place known plan start) := by
  unfold Follows
  infer_instance

variable {tree : Tree} {place : Place} {data : NodeData} {walk : Walk}

theorem Follows.mono {known stronger : Option NodeId → Walk → Prop} {plan : List Step}
    {start : Progress} (follows : Follows tree place stronger plan start walk)
    (enough : ∀ value, stronger value walk → known value walk) :
    Follows tree place known plan start walk := by
  apply Along.mono follows
  intro step progress done
  cases step with
  | visit child =>
      rcases done with ⟨value, visited, facts⟩
      exact ⟨value, visited, enough value facts⟩
  | enter body => exact done
  | allocate => trivial
  | declare names => trivial
  | overwrite names => trivial

theorem Follows.append {known : Option NodeId → Walk → Prop} {first second : List Step}
    {start : Progress} (one : Follows tree place known first start walk)
    (two : Follows tree place known second
      (first.foldl (Progress.advance (tree.evaluate (place.levels - 1))) start) walk) :
    Follows tree place known (first ++ second) start walk :=
  Along.append one two

/-- A place is covered if what happens there has been noted and all its steps are done. -/
theorem covers_of_steps {known : Option NodeId → Walk → Prop}
    (dataEq : tree.dataAt? place = some data) (notes : Notes tree place walk)
    (steps : Follows tree place known (data.plan tree) place.progress walk) :
    Covers tree place walk := by
  intro lower below
  cases below with
  | refl => exact notes
  | visit performs rest =>
      rcases performs with ⟨found, foundEq, takes⟩
      cases dataEq.symm.trans foundEq
      rcases takes.holds steps with ⟨value, visited, -⟩
      exact visited.covers lower rest
  | enter performs rest =>
      rcases performs with ⟨found, foundEq, takes⟩
      cases dataEq.symm.trans foundEq
      exact takes.holds steps lower rest

/-- Where nothing is evaluated there is nothing to note but that the tree may be cut off. -/
theorem visited_of_none (dataEq : tree.dataAt? place = none)
    (cut : place.levels = 0 → tree.data? place.index ≠ none → place.scope ∈ walk.truncated) :
    Visited tree place none walk := by
  have performsNone : ∀ step progress, ¬ tree.Performs place step progress := by
    rintro step progress ⟨found, foundEq, -⟩
    rw [dataEq] at foundEq
    contradiction
  have known : ∀ found, tree.dataAt? place ≠ some found := by
    intro found foundEq
    rw [dataEq] at foundEq
    contradiction
  refine ⟨fun lower below => ?_, fun source yields => ?_, Walker.withinOf_none⟩
  · cases below with
    | refl =>
        constructor
        · intro key source flows
          cases flows with
          | assigned foundEq => exact absurd foundEq (known _)
          | captured foundEq => exact absurd foundEq (known _)
        · intro source exposes
          cases exposes with
          | operand foundEq => exact absurd foundEq (known _)
          | stored foundEq => exact absurd foundEq (known _)
          | captured foundEq => exact absurd foundEq (known _)
        · intro base field source accesses
          cases accesses with
          | load foundEq => exact absurd foundEq (known _)
          | store foundEq => exact absurd foundEq (known _)
          | iterate foundEq => exact absurd foundEq (known _)
        · exact fun progress performs => absurd performs (performsNone _ _)
        · exact cut
    | visit performs => exact absurd performs (performsNone _ _)
    | enter performs => exact absurd performs (performsNone _ _)
  · cases yields with
    | site performs => exact absurd performs (performsNone _ _)
    | named foundEq => exact absurd foundEq (known _)
    | assigned foundEq => exact absurd foundEq (known _)

/-- Where something is evaluated the tree is not cut off. -/
theorem cut_of_some (dataEq : tree.dataAt? place = some data) (none_ : place.levels = 0)
    (_ : tree.data? place.index ≠ none) : place.scope ∈ walk.truncated := by
  rw [Tree.dataAt?, if_pos none_] at dataEq
  contradiction

/-- What is accessed at a place has been noted if its base has been accessed. -/
theorem Based.noted {field : Option String} (based : Based tree place field walk)
    {source : Source} (yields : tree.Yields Progress.IsGlobal place source) :
    ∃ access, access ∈ walk.accesses ∧ access.field = field ∧
      walk.Represents access.base source := by
  rcases based with ⟨base, valued, accessed⟩
  rcases valued source yields with ⟨id, baseEq, represents⟩
  rcases accessed id baseEq with ⟨access, listed, fieldEq, idEq⟩
  exact ⟨access, listed, fieldEq, idEq ▸ represents⟩

/-- A property or an element that is read accesses its base and nothing else. -/
theorem notesAccesses_of_load {base : NodeIndex} {field : Option String}
    (dataEq : tree.dataAt? place = some data) (baseEq : data.base? tree = some (base, field))
    (based : Based tree (place.child place.progress base) field walk) :
    NotesAccesses tree place walk := by
  intro other otherField source accesses yields
  cases accesses with
  | load foundEq otherEq =>
      cases dataEq.symm.trans foundEq
      cases baseEq.symm.trans otherEq
      exact based.noted yields
  | store foundEq | iterate foundEq =>
      cases dataEq.symm.trans foundEq
      contradiction

/-- A loop over elements accesses what it goes over. -/
theorem notesAccesses_of_iterate {iterable body : NodeIndex} {key : Option StrId} {value : StrId}
    (dataEq : tree.dataAt? place = some (.foreachStmt iterable key value body))
    (based : Based tree (place.child place.progress iterable) none walk) :
    NotesAccesses tree place walk := by
  intro other otherField source accesses yields
  cases accesses with
  | iterate foundEq =>
      cases dataEq.symm.trans foundEq
      exact based.noted yields
  | load foundEq otherEq =>
      cases dataEq.symm.trans foundEq
      contradiction
  | store foundEq => cases dataEq.symm.trans foundEq

/-- Most nodes access nothing. -/
theorem notesAccesses_of_false (dataEq : tree.dataAt? place = some data)
    (noAccess : data.isAccess = false) (noAssignment : ∀ target value, data ≠ .assignment target value) :
    NotesAccesses tree place walk := by
  intro base field source accesses
  cases accesses with
  | load foundEq baseEq =>
      cases dataEq.symm.trans foundEq
      cases data <;> contradiction
  | iterate foundEq =>
      cases dataEq.symm.trans foundEq
      contradiction
  | store foundEq =>
      exact absurd (Option.some.inj (dataEq.symm.trans foundEq)) (noAssignment _ _)

/-- What is known of the values of a node's operands: they have met a sink if objects escape
through them. -/
def Met (data : NodeData) (value : Option NodeId) (walk : Walk) : Prop :=
  data.exposesOperands = true → Walker.Sunk value walk

instance (value : Option NodeId) : Lasting (Met data value) := by
  unfold Met
  infer_instance

/-- Nothing has to be known of the values if objects do not escape through them. -/
theorem met_of_false (noOperands : data.exposesOperands = false) (value : Option NodeId) :
    Met data value walk := by
  intro exposes
  rw [noOperands] at exposes
  contradiction

/-- What is exposed by the operands of a node has been noted when they have met a sink. -/
theorem sink_of_operand {child : NodeIndex} {progress : Progress} {source : Source}
    (dataEq : tree.dataAt? place = some data) (exposes : data.exposesOperands = true)
    (steps : Follows tree place (Met data) (data.plan tree) place.progress walk)
    (performs : tree.Performs place (.visit child) progress)
    (yields : tree.Yields Progress.IsGlobal (place.child progress child) source) :
    ∃ sink, sink ∈ walk.sinks ∧ walk.Represents sink.value source := by
  rcases performs with ⟨found, foundEq, takes⟩
  cases dataEq.symm.trans foundEq
  rcases takes.holds steps with ⟨value, visited, met⟩
  rcases visited.valued source yields with ⟨id, valueEq, represents⟩
  rcases met exposes id valueEq with ⟨sink, member, sinkEq⟩
  exact ⟨sink, member, sinkEq ▸ represents⟩

/-- Most nodes do nothing by themselves. -/
theorem notes_of_steps (dataEq : tree.dataAt? place = some data)
    (noAssignment : ∀ target value, data ≠ .assignment target value)
    (noClosure : ∀ params captures body, data ≠ .closure params captures body)
    (accesses : NotesAccesses tree place walk) (sites : NotesSites tree place walk)
    (steps : Follows tree place (Met data) (data.plan tree) place.progress walk) :
    Notes tree place walk := by
  refine ⟨?_, ?_, accesses, sites, cut_of_some dataEq⟩
  · intro key source flows
    cases flows with
    | assigned foundEq =>
        exact absurd (Option.some.inj (dataEq.symm.trans foundEq)) (noAssignment _ _)
    | captured foundEq =>
        exact absurd (Option.some.inj (dataEq.symm.trans foundEq)) (noClosure _ _ _)
  · intro source exposes
    cases exposes with
    | operand foundEq exposed performs yields =>
        cases dataEq.symm.trans foundEq
        exact sink_of_operand dataEq exposed steps performs yields
    | stored foundEq =>
        exact absurd (Option.some.inj (dataEq.symm.trans foundEq)) (noAssignment _ _)
    | captured foundEq =>
        exact absurd (Option.some.inj (dataEq.symm.trans foundEq)) (noClosure _ _ _)

end Walk

/-! ## What yields nothing -/

theorem Tree.Takes.mem {tree : Tree} {levels : Nat} {plan : List Step} {start progress : Progress}
    {step : Step} (takes : tree.Takes levels plan start step progress) : step ∈ plan := by
  induction takes with
  | here => exact List.mem_cons_self
  | later _ inductionHypothesis => exact List.mem_cons_of_mem _ inductionHypothesis

/-- Whether a node neither allocates, assigns nor is a variable. -/
def NodeData.isSilent : NodeData → Bool
  | .var _ | .assignment .. | .objectInstantiation .. | .arrayInit .. | .closure .. => false
  | _ => true

theorem NodeData.allocate_notMem_plan {data : NodeData} (silent : data.isSilent = true)
    (tree : Tree) : .allocate ∉ data.plan tree := by
  cases data <;> simp_all [isSilent, plan]

theorem NodeData.allocate_notMem_assignment {tree : Tree} {target value : NodeIndex} :
    .allocate ∉ (NodeData.assignment target value).plan tree := by
  rw [plan, List.mem_cons, not_or]
  refine ⟨nofun, ?_⟩
  unfold Tree.targetPlan
  split <;> simp

theorem Walk.notesSites_of_notMem {tree : Tree} {place : Place} {data : NodeData} {walk : Walk}
    (dataEq : tree.dataAt? place = some data) (absent : .allocate ∉ data.plan tree) :
    NotesSites tree place walk := by
  rintro progress ⟨found, foundEq, takes⟩
  cases dataEq.symm.trans foundEq
  exact absurd takes.mem absent

/-- An expression that neither allocates nor is a variable or an assignment comes from nothing
known. -/
theorem Walk.valued_of_silent {tree : Tree} {place : Place} {data : NodeData} {walk : Walk}
    (dataEq : tree.dataAt? place = some data) (silent : data.isSilent = true)
    (value : Option NodeId) :
    Valued tree place value walk := by
  intro source yields
  cases yields with
  | site performs =>
      rcases performs with ⟨found, foundEq, takes⟩
      cases dataEq.symm.trans foundEq
      exact absurd takes.mem (NodeData.allocate_notMem_plan silent tree)
  | named foundEq =>
      cases dataEq.symm.trans foundEq
      contradiction
  | assigned foundEq =>
      cases dataEq.symm.trans foundEq
      contradiction

/-- What holds after the visit of a node that neither allocates, assigns nor is a variable. -/
theorem Walk.visited_of_steps {tree : Tree} {place : Place} {data : NodeData} {walk : Walk}
    {value : Option NodeId} (dataEq : tree.dataAt? place = some data)
    (silent : data.isSilent = true) (accesses : NotesAccesses tree place walk)
    (steps : Follows tree place (Met data) (data.plan tree) place.progress walk)
    (mute : Walker.WithinOf (fun _ => False) value walk) :
    Visited tree place value walk := by
  have noAssignment : ∀ target value, data ≠ .assignment target value := by
    rintro target value rfl
    contradiction
  have noClosure : ∀ params captures body, data ≠ .closure params captures body := by
    rintro params captures body rfl
    contradiction
  have sites : NotesSites tree place walk :=
    notesSites_of_notMem dataEq (NodeData.allocate_notMem_plan silent tree)
  exact ⟨covers_of_steps dataEq
      (notes_of_steps dataEq noAssignment noClosure accesses sites steps) steps,
    valued_of_silent dataEq silent value, mute.mono fun _ => False.elim⟩

/-- After the operands of a node the sites in them have been met. -/
theorem Tree.Takes.of_visits {tree : Tree} {levels : Nat} {operands : List NodeIndex}
    {start progress : Progress}
    (takes : tree.Takes levels (operands.map .visit ++ [.allocate]) start .allocate progress) :
    progress = (operands.map .visit).foldl (Progress.advance (tree.evaluate levels)) start := by
  induction operands generalizing start with
  | nil =>
      cases takes with
      | here => rfl
      | later rest => nomatch rest
  | cons operand rest inductionHypothesis =>
      cases takes with
      | later rest => exact inductionHypothesis rest

/-- The last step of a plan is taken after all others. -/
theorem Tree.takes_last (tree : Tree) (levels : Nat) (plan : List Step) (step : Step)
    (start : Progress) :
    tree.Takes levels (plan ++ [step]) start step
      (plan.foldl (Progress.advance (tree.evaluate levels)) start) := by
  induction plan generalizing start with
  | nil => exact .here
  | cons first rest inductionHypothesis => exact .later (inductionHypothesis _)

/-- A closure allocates before it enters its body. -/
theorem Tree.Takes.of_closure {tree : Tree} {levels : Nat} {body : NodeIndex}
    {start progress : Progress} {step : Step}
    (takes : tree.Takes levels [.allocate, .enter body] start step progress) :
    progress.scopes = start.scopes ∧ (step = .allocate → progress = start) := by
  cases takes with
  | here => exact ⟨rfl, fun _ => rfl⟩
  | later rest =>
      cases rest with
      | here => exact ⟨rfl, nofun⟩
      | later none => nomatch none

/-- What holds after the visit of a node that allocates after its operands. -/
theorem Walk.visited_of_operands {tree : Tree} {place : Place} {data : NodeData} {walk : Walk}
    {operands : List NodeIndex} {id : NodeId} {made : Progress}
    (dataEq : tree.dataAt? place = some data) (exposes : data.exposesOperands = true)
    (noAccess : data.isAccess = false) (plan : data.plan tree = operands.map .visit ++ [.allocate])
    (madeEq : made = (operands.map .visit).foldl
      (Progress.advance (tree.evaluate (place.levels - 1))) place.progress)
    (steps : Follows tree place Walker.Sunk (operands.map .visit) place.progress walk)
    (site : walk.sites[made.sites]? = some (id, place.scope))
    (represents : walk.Represents id (.site ⟨made.sites, place.index⟩)) :
    Visited tree place (some id) walk := by
  subst madeEq
  have follows : Follows tree place (Met data) (data.plan tree) place.progress walk := by
    rw [plan]
    exact Follows.append (steps.mono fun _ sunk _ => sunk) ⟨trivial, trivial⟩
  have noAssignment : ∀ target value, data ≠ .assignment target value := by
    rintro target value rfl
    contradiction
  have noClosure : ∀ params captures body, data ≠ .closure params captures body := by
    rintro params captures body rfl
    contradiction
  have accesses : NotesAccesses tree place walk :=
    notesAccesses_of_false dataEq noAccess noAssignment
  have sites : NotesSites tree place walk := by
    rintro progress ⟨found, foundEq, takes⟩
    cases dataEq.symm.trans foundEq
    rw [plan] at takes
    rw [takes.of_visits]
    exact ⟨id, site, represents⟩
  have notes := notes_of_steps dataEq noAssignment noClosure accesses sites follows
  refine ⟨covers_of_steps dataEq notes follows, fun source yields => ⟨id, rfl, ?_⟩, ?_⟩
  · cases yields with
    | site performs =>
        rcases performs with ⟨found, foundEq, takes⟩
        cases dataEq.symm.trans foundEq
        rw [plan] at takes
        rw [takes.of_visits]
        exact represents
    | named foundEq =>
        cases dataEq.symm.trans foundEq
        contradiction
    | assigned foundEq =>
        exact absurd (Option.some.inj (dataEq.symm.trans foundEq)) (noAssignment _ _)
  · rintro other same
    cases same
    refine .inr ⟨_, .site ⟨data, dataEq, ?_⟩, represents⟩
    rw [plan]
    exact tree.takes_last _ _ _ _

/-- A value that is assigned to some place has met a sink, or it has flowed into the variable
that the place is. -/
def Walk.Assigned (scope : Nat) (progress : Progress) (place : Option NodeData)
    (value result : Option NodeId) (walk : Walk) : Prop :=
  ((∀ name, place = some (.var name) → Progress.IsGlobal name progress) →
      Walker.Sunk value walk ∧ Walker.WithinOf (fun _ => False) result walk) ∧
    ∀ name, place = some (.var name) → ¬ Progress.IsGlobal name progress →
      Walker.Flowed ⟨scope, name⟩ value walk ∧
        ∃ id, result = some id ∧ walk.varKey? id = some ⟨scope, name⟩

theorem Walk.Assigned.of_sunk {scope : Nat} {progress : Progress} {place : Option NodeData}
    {value result : Option NodeId} {walk : Walk} (noVariable : ∀ name, place ≠ some (.var name))
    (sunk : Walker.Sunk value walk) (mute : Walker.WithinOf (fun _ => False) result walk) :
    Assigned scope progress place value result walk :=
  ⟨fun _ => ⟨sunk, mute⟩, fun name placeEq => absurd placeEq (noVariable name)⟩

/-- The base of what is assigned to has been accessed, if it has one. -/
def Walk.Stored (tree : Tree) (place : Place) (start : Progress) (target : Option NodeData)
    (walk : Walk) : Prop :=
  ∀ data base field, target = some data → data.base? tree = some (base, field) →
    Based tree (place.child start base) field walk

/-- What holds after an assignment. -/
theorem Walk.visited_of_assignment {tree : Tree} {place : Place} {walk : Walk}
    {target value : NodeIndex} {found result : Option NodeId}
    (dataEq : tree.dataAt? place = some (.assignment target value))
    (steps : Follows tree place (fun _ _ => True) ((NodeData.assignment target value).plan tree)
      place.progress walk)
    (valued : Valued tree (place.value value) found walk)
    (assigned : Assigned place.scope (tree.progressAfter (place.value value)) (tree.data? target)
      found result walk)
    (stored : Stored tree place (tree.progressAfter (place.value value)) (tree.data? target) walk) :
    Visited tree place result walk := by
  have accesses : NotesAccesses tree place walk := by
    intro base field source accesses yields
    cases accesses with
    | store foundEq targetEq baseEq =>
        cases dataEq.symm.trans foundEq
        exact (stored _ _ _ targetEq baseEq).noted yields
    | load foundEq baseEq =>
        cases dataEq.symm.trans foundEq
        contradiction
    | iterate foundEq => cases dataEq.symm.trans foundEq
  have sites : NotesSites tree place walk :=
    notesSites_of_notMem dataEq NodeData.allocate_notMem_assignment
  refine ⟨covers_of_steps dataEq ⟨?_, ?_, accesses, sites, cut_of_some dataEq⟩ steps, ?_, ?_⟩
  · intro key source flows
    cases flows with
    | assigned foundEq targetEq undeclared yields =>
        cases dataEq.symm.trans foundEq
        rcases valued source yields with ⟨id, foundId, represents⟩
        exact ⟨id, (assigned.2 _ targetEq undeclared).1 id foundId, represents⟩
    | captured foundEq => cases dataEq.symm.trans foundEq
  · intro source exposes
    cases exposes with
    | operand foundEq exposed =>
        cases dataEq.symm.trans foundEq
        contradiction
    | stored foundEq declared yields =>
        cases dataEq.symm.trans foundEq
        rcases valued source yields with ⟨id, foundId, represents⟩
        rcases (assigned.1 declared).1 id foundId with ⟨sink, listed, sinkEq⟩
        exact ⟨sink, listed, sinkEq ▸ represents⟩
    | captured foundEq => cases dataEq.symm.trans foundEq
  · intro source yields
    cases yields with
    | site performs =>
        rcases performs with ⟨data, otherEq, takes⟩
        cases dataEq.symm.trans otherEq
        exact absurd takes.mem NodeData.allocate_notMem_assignment
    | named foundEq => cases dataEq.symm.trans foundEq
    | assigned foundEq targetEq undeclared =>
        cases dataEq.symm.trans foundEq
        exact (assigned.2 _ targetEq undeclared).2
  · by_cases declared : ∀ name, tree.data? target = some (.var name) →
        Progress.IsGlobal name (tree.progressAfter (place.value value))
    · exact (assigned.1 declared).2.mono fun _ => False.elim
    · rcases not_forall.1 declared with ⟨name, other⟩
      rcases Classical.not_imp.1 other with ⟨targetEq, undeclared⟩
      rcases (assigned.2 name targetEq undeclared).2 with ⟨id, resultEq, varKey⟩
      intro other otherEq
      cases resultEq.symm.trans otherEq
      exact .inr ⟨_, .assigned dataEq targetEq undeclared, varKey⟩

end EscapePlan
