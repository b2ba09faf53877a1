import EscapePlan.Proofs.Analysis.Numbering

/-!
# Evaluations of different depth

If the tree is cut off nowhere in a scope, the scope is evaluated in the same way whatever the
limit: its places correspond to each other, and the same names are global at them.  Only the
numbers of scopes and sites may differ, since less may be evaluated in the scopes within it.
-/

namespace EscapePlan

/-- The nodes that a node refers to. -/
def NodeData.children : NodeData → List NodeIndex
  | .root statements | .block statements => statements
  | .functionDecl _ _ body | .closure _ _ body => [body]
  | .assignment target value => [target, value]
  | .objectInstantiation _ operands | .arrayInit operands | .functionCall _ operands => operands
  | .returnStmt value => value.toList
  | .methodCall object _ args => object :: args
  | .propertyAccess object _ => [object]
  | .arrayAccess array index => array :: index.toList
  | .var _ | .literal _ | .global _ | .other => []
  | .ifStmt condition thenBranch elseBranch => condition :: thenBranch :: elseBranch.toList
  | .whileStmt condition body => [condition, body]
  | .forStmt init condition update body => init ++ condition.toList ++ body :: update
  | .foreachStmt iterable _ _ body => [iterable, body]
  | .throwStmt value => [value]

/-- A step evaluates a node. -/
def Step.Evaluates (step : Step) (index : NodeIndex) : Prop :=
  step = .visit index ∨ step = .enter index

namespace Tree

/-- A node refers to another one. -/
def Child (tree : Tree) (child parent : NodeIndex) : Prop :=
  ∃ data, tree.data? parent = some data ∧ child ∈ data.children

/-- So many levels hold a node and everything below it. -/
def Fits (tree : Tree) : Nat → NodeIndex → Prop
  | 0, index => tree.data? index = none
  | levels + 1, index =>
      ∀ data, tree.data? index = some data → ∀ child ∈ data.children, tree.Fits levels child

instance decidableFits (tree : Tree) : (levels : Nat) → (index : NodeIndex) →
    Decidable (tree.Fits levels index)
  | 0, _ => decidable_of_iff _ Option.isNone_iff_eq_none
  | levels + 1, index =>
      match dataEq : tree.data? index with
      | none => .isTrue fun _ found => absurd (dataEq.symm.trans found) (Option.some_ne_none _).symm
      | some data =>
          have := tree.decidableFits levels
          decidable_of_iff (∀ child ∈ data.children, tree.Fits levels child)
            ⟨fun fits _ found => Option.some.inj (dataEq.symm.trans found) ▸ fits,
              fun fits => fits data dataEq⟩

/-- So many levels hold what is evaluated of a node within its scope. -/
def Intact (tree : Tree) : Nat → NodeIndex → Prop
  | 0, index => tree.data? index = none
  | levels + 1, index => ∀ data, tree.data? index = some data →
      ∀ child, .visit child ∈ data.plan tree → tree.Intact levels child

variable {tree : Tree} {levels : Nat} {index : NodeIndex}

theorem Fits.mono (fits : tree.Fits levels index) {more : Nat} (le : levels ≤ more) :
    tree.Fits more index := by
  induction levels generalizing index more with
  | zero =>
      cases more with
      | zero => exact fits
      | succ more =>
          intro data dataEq
          exact absurd (fits.symm.trans dataEq) (Option.some_ne_none data).symm
  | succ levels inductionHypothesis =>
      cases more with
      | zero => exact absurd le (Nat.not_succ_le_zero levels)
      | succ more =>
          intro data dataEq child member
          exact inductionHypothesis (fits data dataEq child member) (Nat.le_of_succ_le_succ le)

theorem exists_fits_all {children : List NodeIndex}
    (each : ∀ child ∈ children, ∃ levels, tree.Fits levels child) :
    ∃ levels, ∀ child ∈ children, tree.Fits levels child := by
  induction children with
  | nil => exact ⟨0, fun child member => absurd member List.not_mem_nil⟩
  | cons first rest inductionHypothesis =>
      rcases each first List.mem_cons_self with ⟨levels, fits⟩
      rcases inductionHypothesis fun child member =>
        each child (List.mem_cons_of_mem first member) with ⟨more, fitsRest⟩
      refine ⟨max levels more, fun child member => ?_⟩
      rcases List.mem_cons.1 member with rfl | member
      · exact fits.mono (Nat.le_max_left levels more)
      · exact (fitsRest child member).mono (Nat.le_max_right levels more)

/-- If no node refers to itself, directly or through others, each is held by some number of
levels. -/
theorem exists_fits (acyclic : WellFounded tree.Child) (index : NodeIndex) :
    ∃ levels, tree.Fits levels index := by
  induction index using acyclic.induction with
  | h index inductionHypothesis =>
      cases dataEq : tree.data? index with
      | none => exact ⟨0, dataEq⟩
      | some data =>
          rcases exists_fits_all fun child member =>
            inductionHypothesis child ⟨data, dataEq, member⟩ with ⟨levels, fits⟩
          refine ⟨levels + 1, fun found foundEq => ?_⟩
          cases dataEq.symm.trans foundEq
          exact fits

/-- The target of an assignment is evaluated, or what it refers to. -/
theorem of_mem_targetPlan {target child : NodeIndex} {step : Step}
    (member : step ∈ tree.targetPlan target) (evaluates : step.Evaluates child) :
    child = target ∨ tree.Child child target := by
  rw [targetPlan] at member
  split at member
  next => exact absurd member List.not_mem_nil
  next => exact absurd member List.not_mem_nil
  next object property dataEq =>
    refine .inr ⟨_, dataEq, ?_⟩
    cases List.mem_singleton.1 member
    rcases evaluates with same | same
    · cases same
      exact List.mem_singleton_self _
    · contradiction
  next array index dataEq =>
    refine .inr ⟨_, dataEq, ?_⟩
    rcases evaluates with rfl | rfl
    · simpa [NodeData.children] using member
    · simp at member
  next =>
    cases List.mem_singleton.1 member
    rcases evaluates with same | same
    · cases same
      exact .inl rfl
    · contradiction

/-- Most nodes evaluate nothing but what they refer to. -/
theorem mem_children_of_step {data : NodeData} {step : Step} {child : NodeIndex}
    (noAssignment : ∀ target value, data ≠ .assignment target value)
    (member : step ∈ data.plan tree) (evaluates : step.Evaluates child) : child ∈ data.children := by
  cases data with
  | assignment target value => exact absurd rfl (noAssignment target value)
  | _ =>
      rcases evaluates with rfl | rfl <;>
        simp only [NodeData.plan, NodeData.children] at member ⊢ <;> simp_all

/-- Whatever is evaluated in a step lies below the node. -/
theorem Fits.of_step {data : NodeData} {step : Step} {child : NodeIndex}
    (fits : tree.Fits (levels + 1) index) (dataEq : tree.data? index = some data)
    (member : step ∈ data.plan tree) (evaluates : step.Evaluates child) : tree.Fits levels child := by
  have children := fits data dataEq
  by_cases assigns : ∃ target value, data = .assignment target value
  · rcases assigns with ⟨target, value, rfl⟩
    have fitsTarget := children target List.mem_cons_self
    have fitsValue := children value (List.mem_cons_of_mem _ List.mem_cons_self)
    rcases List.mem_cons.1 member with rfl | member
    · rcases evaluates with same | same
      · cases same
        exact fitsValue
      · contradiction
    · rcases of_mem_targetPlan member evaluates with rfl | ⟨targetData, targetEq, below⟩
      · exact fitsTarget
      · cases levels with
        | zero => exact absurd (fitsTarget.symm.trans targetEq) (Option.some_ne_none _).symm
        | succ levels => exact (fitsTarget _ targetEq child below).mono (Nat.le_succ levels)
  · have noAssignment : ∀ target value, data ≠ .assignment target value :=
      fun target value same => assigns ⟨target, value, same⟩
    exact children child (mem_children_of_step noAssignment member evaluates)

/-- What is evaluated at a place is what stands at its node if the tree is not cut off there. -/
theorem dataAt?_of_intact {place : Place} (intact : tree.Intact place.levels place.index) :
    tree.dataAt? place = tree.data? place.index := by
  rw [dataAt?]
  split
  next none_ =>
    rw [none_] at intact
    exact intact.symm
  next => rfl

theorem Intact.visit {data : NodeData} {child : NodeIndex} (intact : tree.Intact levels index)
    (dataEq : tree.data? index = some data) (member : .visit child ∈ data.plan tree) :
    tree.Intact (levels - 1) child := by
  cases levels with
  | zero => exact absurd (intact.symm.trans dataEq) (Option.some_ne_none data).symm
  | succ levels => exact intact data dataEq child member

theorem Fits.intact (fits : tree.Fits levels index) : tree.Intact levels index := by
  induction levels generalizing index with
  | zero => exact fits
  | succ levels inductionHypothesis =>
      intro data dataEq child member
      exact inductionHypothesis (fits.of_step dataEq member (.inl rfl))

/-- Wherever a path leads, what is there is held if all is held that is at its start. -/
theorem Fits.leads {place lower : Place} {path : List Nat} (leads : tree.Leads place path lower)
    (fits : tree.Fits place.levels place.index) : tree.Fits lower.levels lower.index := by
  induction leads with
  | refl => exact fits
  | @step place next lower position step progress path performs goesOn _ inductionHypothesis =>
      rcases performs with ⟨data, dataEq, stepEq, -⟩
      rcases dataAt?_eq_some_iff.1 dataEq with ⟨levels, found⟩
      rcases Nat.exists_eq_succ_of_ne_zero levels with ⟨rest, levelsEq⟩
      rw [levelsEq] at fits
      have member := List.mem_of_getElem? stepEq
      apply inductionHypothesis
      cases step with
      | visit child =>
          cases goesOn
          rw [Place.child, levelsEq]
          exact fits.of_step found member (.inl rfl)
      | enter body =>
          cases goesOn
          rw [Place.body, levelsEq]
          exact fits.of_step found member (.inr rfl)
      | _ => contradiction

/-- A scope that is cut off nowhere is evaluated as a whole. -/
theorem intact_of_spans {place : Place} (uncut : ∀ path lower, tree.Spans place path lower →
    lower.levels = 0 → tree.data? lower.index = none) : tree.Intact place.levels place.index := by
  rcases place with ⟨levels, scope, progress, index⟩
  induction levels generalizing progress index with
  | zero => exact uncut [] _ (.refl _) rfl
  | succ levels inductionHypothesis =>
      intro data dataEq child member
      rcases List.getElem?_of_mem member with ⟨position, stepEq⟩
      have performs : tree.PerformsAt ⟨levels + 1, scope, progress, index⟩ position (.visit child)
          _ := ⟨data, dataAt?_eq_some_iff.2 ⟨Nat.succ_ne_zero levels, dataEq⟩, stepEq, rfl⟩
      exact inductionHypothesis _ child fun path lower spans =>
        uncut (position :: path) lower (.visit performs spans)

/-! ## The same path from the same node -/

section

variable {one other lower partner : Place} {path : List Nat}

theorem PerformsAt.step_eq {position : Nat} {step otherStep : Step} {progress later : Progress}
    (performs : tree.PerformsAt one position step progress)
    (performsOther : tree.PerformsAt other position otherStep later)
    (same : one.index = other.index) : step = otherStep := by
  rcases performs with ⟨data, dataEq, stepEq, -⟩
  rcases performsOther with ⟨otherData, otherEq, otherStepEq, -⟩
  have found := (dataAt?_eq_some_iff.1 dataEq).2
  rw [same] at found
  cases found.symm.trans (dataAt?_eq_some_iff.1 otherEq).2
  exact Option.some.inj (stepEq.symm.trans otherStepEq)

/-- The same path leads from the same node to the same node. -/
theorem Leads.index_eq (leads : tree.Leads one path lower) (leadsOther : tree.Leads other path partner)
    (same : one.index = other.index) : lower.index = partner.index := by
  induction leads generalizing other with
  | refl =>
      cases leadsOther
      exact same
  | @step place next lower position step progress path performs goesOn _ inductionHypothesis =>
      cases leadsOther with
      | step performsOther goesOnOther rest =>
          cases performs.step_eq performsOther same
          apply inductionHypothesis rest
          cases step with
          | visit child | enter child =>
              cases goesOn
              cases goesOnOther
              rfl
          | _ => contradiction

/-- If it stays in a scope, it does so from either place. -/
theorem Spans.transfer (spans : tree.Spans one path lower) (leads : tree.Leads other path partner)
    (same : one.index = other.index) : tree.Spans other path partner := by
  induction spans generalizing other with
  | refl =>
      cases leads
      exact .refl _
  | visit performs _ inductionHypothesis =>
      cases leads with
      | step performsOther goesOn rest =>
          cases performs.step_eq performsOther same
          cases goesOn
          exact .visit performsOther (inductionHypothesis rest rfl)

/-- If it leads to where a scope begins, it does so from either place. -/
theorem Opens.transfer (opens : tree.Opens one path lower) (leads : tree.Leads other path partner)
    (same : one.index = other.index) : tree.Opens other path partner := by
  cases opens with
  | top =>
      cases leads
      exact .top
  | enter above performs =>
      rcases leads.split with ⟨middle, aboveOther, last⟩
      cases last with
      | step performsOther goesOn rest =>
          cases performs.step_eq performsOther (above.index_eq aboveOther same)
          cases goesOn
          cases rest
          exact .enter aboveOther performsOther

end

/-! ## Agreement -/

/-- The same names are global after plans whose visits agree on this. -/
theorem globals_foldl_congr {first second : NodeIndex → Progress → Progress} {plan : List Step}
    (visits : ∀ child, .visit child ∈ plan → ∀ one other : Progress, one.globals = other.globals →
      (first child one).globals = (second child other).globals)
    {one other : Progress} (same : one.globals = other.globals) :
    (plan.foldl (Progress.advance first) one).globals =
      (plan.foldl (Progress.advance second) other).globals := by
  induction plan generalizing one other with
  | nil => exact same
  | cons step rest inductionHypothesis =>
      apply inductionHypothesis fun child member => visits child (List.mem_cons_of_mem step member)
      cases step with
      | visit child => exact visits child List.mem_cons_self one other same
      | allocate => exact same
      | enter body => exact same
      | declare names => exact congrArg (names ++ ·) same
      | overwrite names => exact congrArg (List.filter (· ∉ names)) same

theorem evaluate_of_none (dataEq : tree.data? index = none) (progress : Progress) :
    tree.evaluate levels index progress = progress := by
  cases levels with
  | zero => rfl
  | succ levels => rw [evaluate, dataEq]

/-- The same names are global after a node, whatever the limit, if it is held. -/
theorem Intact.globals_evaluate {more : Nat} (intact : tree.Intact levels index)
    (intactMore : tree.Intact more index) {one other : Progress}
    (same : one.globals = other.globals) :
    (tree.evaluate levels index one).globals = (tree.evaluate more index other).globals := by
  induction levels generalizing more index one other with
  | zero =>
      rw [evaluate_of_none intact, evaluate_of_none intact]
      exact same
  | succ levels inductionHypothesis =>
      cases more with
      | zero =>
          rw [evaluate_of_none intactMore, evaluate_of_none intactMore]
          exact same
      | succ more =>
          rw [evaluate, evaluate]
          cases dataEq : tree.data? index with
          | none => exact same
          | some data =>
              refine globals_foldl_congr (fun child member one other same => ?_) same
              exact inductionHypothesis (intact data dataEq child member)
                (intactMore data dataEq child member) same

/-! ## Corresponding places -/

/-- Two places are the same but for the limit and for how much has been counted. -/
structure Twins (tree : Tree) (one other : Place) : Prop where
  index_eq : one.index = other.index
  globals_eq : one.progress.globals = other.progress.globals
  intact : tree.Intact one.levels one.index
  intact_other : tree.Intact other.levels other.index

namespace Twins

variable {one other : Place}

theorem dataAt?_eq (twins : tree.Twins one other) : tree.dataAt? one = tree.dataAt? other := by
  rw [dataAt?_of_intact twins.intact, dataAt?_of_intact twins.intact_other, twins.index_eq]

/-- The same names are global after twins. -/
theorem after (twins : tree.Twins one other) :
    (tree.progressAfter one).globals = (tree.progressAfter other).globals := by
  have intact := twins.intact
  rw [twins.index_eq] at intact
  rw [progressAfter, progressAfter, twins.index_eq]
  exact intact.globals_evaluate twins.intact_other twins.globals_eq

/-- Twins take the same steps, and the same names are global then. -/
theorem performsAt (twins : tree.Twins one other) {position : Nat} {step : Step}
    {progress : Progress} (performs : tree.PerformsAt one position step progress) :
    ∃ later, tree.PerformsAt other position step later ∧ progress.globals = later.globals := by
  rcases performs with ⟨data, dataEq, stepEq, rfl⟩
  refine ⟨_, ⟨data, twins.dataAt?_eq ▸ dataEq, stepEq, rfl⟩, ?_⟩
  have found := (dataAt?_eq_some_iff.1 dataEq).2
  refine globals_foldl_congr (fun child member one other same => ?_) twins.globals_eq
  have visits := List.mem_of_mem_take member
  exact (twins.intact.visit found visits).globals_evaluate
    (twins.intact_other.visit (twins.index_eq ▸ found) visits) same

/-- What they visit are twins. -/
theorem visit (twins : tree.Twins one other) {position : Nat} {child : NodeIndex}
    {progress later : Progress} (performs : tree.PerformsAt one position (.visit child) progress)
    (same : progress.globals = later.globals) :
    tree.Twins (one.child progress child) (other.child later child) := by
  rcases performs with ⟨data, dataEq, stepEq, -⟩
  have found := (dataAt?_eq_some_iff.1 dataEq).2
  have visits := List.mem_of_getElem? stepEq
  exact ⟨rfl, same, twins.intact.visit found visits,
    twins.intact_other.visit (twins.index_eq ▸ found) visits⟩

/-- A path within a scope leads from twins to twins. -/
theorem spans (twins : tree.Twins one other) {path : List Nat} {place : Place}
    (spans : tree.Spans one path place) :
    ∃ partner, tree.Spans other path partner ∧ tree.Twins place partner := by
  induction spans generalizing other with
  | refl => exact ⟨other, .refl other, twins⟩
  | visit performs _ inductionHypothesis =>
      rcases twins.performsAt performs with ⟨later, performsOther, same⟩
      rcases inductionHypothesis (twins.visit performs same) with ⟨partner, spans, twinsLower⟩
      exact ⟨partner, .visit performsOther spans, twinsLower⟩

end Twins

end Tree

end EscapePlan
