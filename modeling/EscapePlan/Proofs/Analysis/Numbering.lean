import EscapePlan.Proofs.Analysis.Occurrence

/-!
# What the numbers of scopes and sites tell

A path says by which steps the evaluation of a tree comes to a place: it lists their positions in
the plans of the nodes on the way.  Scopes and sites are numbered in the order of evaluation.  What
is counted within one step lies between the points before and after it, so the number of a scope or
of a site tells the path that leads to it, and the places of one scope are those to which nothing
but visits lead from the place where the scope begins.
-/

namespace EscapePlan

/-! ## Counting -/

/-- What is counted along an evaluation. -/
inductive Counter where
  | scopes
  | sites

namespace Counter

/-- How many have been counted at some point. -/
def read : Counter → Progress → Nat
  | .scopes, progress => progress.scopes
  | .sites, progress => progress.sites

/-- A step is counted. -/
def Marks : Counter → Step → Prop
  | .scopes, .enter _ => True
  | .sites, .allocate => True
  | _, _ => False

theorem read_congr (counter : Counter) {first second : Progress}
    (scopes : first.scopes = second.scopes) (sites : first.sites = second.sites) :
    counter.read first = counter.read second := by
  cases counter with
  | scopes => exact scopes
  | sites => exact sites

theorem read_le_entered (counter : Counter) (progress : Progress) :
    counter.read progress ≤ counter.read progress.entered := by
  cases counter with
  | scopes => exact Nat.le_succ _
  | sites => exact Nat.le_refl _

/-- A step counts nothing down. -/
theorem read_le_advance (counter : Counter) {evaluate : NodeIndex → Progress → Progress}
    (rises : ∀ index progress, counter.read progress ≤ counter.read (evaluate index progress))
    (progress : Progress) (step : Step) :
    counter.read progress ≤ counter.read (progress.advance evaluate step) := by
  cases step with
  | visit child => exact rises child progress
  | allocate =>
      cases counter with
      | scopes => exact Nat.le_refl _
      | sites => exact Nat.le_succ _
  | enter body =>
      have inside := Nat.le_trans (counter.read_le_entered progress) (rises body progress.entered)
      exact Nat.le_trans inside (Nat.le_of_eq (counter.read_congr rfl rfl))
  | declare names => exact Nat.le_of_eq (counter.read_congr rfl rfl)
  | overwrite names => exact Nat.le_of_eq (counter.read_congr rfl rfl)

theorem read_le_foldl (counter : Counter) {evaluate : NodeIndex → Progress → Progress}
    (rises : ∀ index progress, counter.read progress ≤ counter.read (evaluate index progress))
    (plan : List Step) (progress : Progress) :
    counter.read progress ≤ counter.read (plan.foldl (Progress.advance evaluate) progress) := by
  induction plan generalizing progress with
  | nil => exact Nat.le_refl _
  | cons step rest inductionHypothesis =>
      exact Nat.le_trans (counter.read_le_advance rises progress step) (inductionHypothesis _)

/-- The evaluation of a node counts nothing down. -/
theorem read_le_evaluate (counter : Counter) (tree : Tree) (levels : Nat) (index : NodeIndex)
    (progress : Progress) :
    counter.read progress ≤ counter.read (tree.evaluate levels index progress) := by
  induction levels generalizing index progress with
  | zero => exact Nat.le_refl _
  | succ levels inductionHypothesis =>
      rw [Tree.evaluate]
      cases tree.data? index with
      | none => exact Nat.le_refl _
      | some data => exact counter.read_le_foldl inductionHypothesis (data.plan tree) progress

/-- What is counted is counted up. -/
theorem read_lt_advance {counter : Counter} {step : Step} (marks : counter.Marks step)
    (tree : Tree) (levels : Nat) (progress : Progress) :
    counter.read progress < counter.read (progress.advance (tree.evaluate levels) step) := by
  cases counter with
  | scopes =>
      cases step with
      | enter body => exact Counter.read_le_evaluate .scopes tree levels body progress.entered
      | _ => exact marks.elim
  | sites =>
      cases step with
      | allocate => exact Nat.lt_succ_self _
      | _ => exact marks.elim

end Counter

/-! ## Paths -/

/-- The place where a step goes on that is taken at a place. -/
def Step.next? (place : Place) (progress : Progress) : Step → Option Place
  | .visit child => some (place.child progress child)
  | .enter body => some (place.body progress body)
  | _ => none

namespace Tree

/-- The evaluation at a place takes the step at a position of its plan, at some point. -/
def PerformsAt (tree : Tree) (place : Place) (position : Nat) (step : Step) (progress : Progress) :
    Prop :=
  ∃ data, tree.dataAt? place = some data ∧ (data.plan tree)[position]? = some step ∧
    progress = ((data.plan tree).take position).foldl
      (Progress.advance (tree.evaluate (place.levels - 1))) place.progress

/-- A path leads from a place to another one. -/
inductive Leads (tree : Tree) : Place → List Nat → Place → Prop where
  | refl (place : Place) : Leads tree place [] place
  | step {place next lower : Place} {position : Nat} {step : Step} {progress : Progress}
      {path : List Nat} :
      tree.PerformsAt place position step progress → step.next? place progress = some next →
      Leads tree next path lower → Leads tree place (position :: path) lower

/-- A path leads to a place of the same scope. -/
inductive Spans (tree : Tree) : Place → List Nat → Place → Prop where
  | refl (place : Place) : Spans tree place [] place
  | visit {place lower : Place} {position : Nat} {child : NodeIndex} {progress : Progress}
      {path : List Nat} :
      tree.PerformsAt place position (.visit child) progress →
      Spans tree (place.child progress child) path lower →
      Spans tree place (position :: path) lower

/-- A path leads to a place where a scope begins. -/
inductive Opens (tree : Tree) (top : Place) : List Nat → Place → Prop where
  | top : Opens tree top [] top
  | enter {place : Place} {path : List Nat} {position : Nat} {body : NodeIndex}
      {progress : Progress} :
      tree.Leads top path place → tree.PerformsAt place position (.enter body) progress →
      Opens tree top (path ++ [position]) (place.body progress body)

variable {tree : Tree} {place lower : Place} {position : Nat} {step : Step} {progress : Progress}
  {path : List Nat}

theorem dataAt?_eq_some_iff {data : NodeData} :
    tree.dataAt? place = some data ↔ place.levels ≠ 0 ∧ tree.data? place.index = some data := by
  rw [dataAt?]
  split
  next none_ => exact ⟨nofun, fun found => absurd none_ found.1⟩
  next some_ => exact ⟨fun found => ⟨some_, found⟩, fun found => found.2⟩

theorem progressAfter_eq {data : NodeData} (dataEq : tree.dataAt? place = some data) :
    tree.progressAfter place = (data.plan tree).foldl
      (Progress.advance (tree.evaluate (place.levels - 1))) place.progress := by
  rcases dataAt?_eq_some_iff.1 dataEq with ⟨levels, found⟩
  rcases Nat.exists_eq_succ_of_ne_zero levels with ⟨below, levelsEq⟩
  rw [progressAfter, levelsEq, evaluate, found]
  rfl

/-- A step of a plan is taken at its position. -/
theorem takes_iff {levels : Nat} {plan : List Step} {start : Progress} :
    tree.Takes levels plan start step progress ↔
      ∃ position, plan[position]? = some step ∧
        progress = (plan.take position).foldl (Progress.advance (tree.evaluate levels)) start := by
  constructor
  · intro takes
    induction takes with
    | here => exact ⟨0, rfl, rfl⟩
    | later _ inductionHypothesis =>
        rcases inductionHypothesis with ⟨position, stepEq, progressEq⟩
        exact ⟨position + 1, stepEq, progressEq⟩
  · rintro ⟨position, stepEq, progressEq⟩
    induction position generalizing plan start with
    | zero =>
        cases plan with
        | nil => contradiction
        | cons first rest =>
            cases stepEq
            cases progressEq
            exact .here
    | succ position inductionHypothesis =>
        cases plan with
        | nil => contradiction
        | cons first rest => exact .later (inductionHypothesis stepEq progressEq)

theorem performs_iff : tree.Performs place step progress ↔
    ∃ position, tree.PerformsAt place position step progress := by
  constructor
  · rintro ⟨data, dataEq, takes⟩
    rcases takes_iff.1 takes with ⟨position, stepEq, progressEq⟩
    exact ⟨position, data, dataEq, stepEq, progressEq⟩
  · rintro ⟨position, data, dataEq, stepEq, progressEq⟩
    exact ⟨data, dataEq, takes_iff.2 ⟨position, stepEq, progressEq⟩⟩

/-- A fold over a plan goes through each of its steps. -/
theorem foldl_eq_of_getElem? {plan : List Step} (stepEq : plan[position]? = some step)
    (advance : Progress → Step → Progress) (start : Progress) :
    plan.foldl advance start = (plan.drop (position + 1)).foldl advance
      (advance ((plan.take position).foldl advance start) step) := by
  calc plan.foldl advance start
      = (plan.take (position + 1) ++ plan.drop (position + 1)).foldl advance start := by
        rw [List.take_append_drop]
    _ = _ := by
        rw [List.take_add_one, stepEq, List.foldl_append, List.foldl_append]
        rfl

namespace PerformsAt

theorem performs (performs : tree.PerformsAt place position step progress) :
    tree.Performs place step progress :=
  performs_iff.2 ⟨position, performs⟩

theorem unique {other : Step} {later : Progress}
    (one : tree.PerformsAt place position step progress)
    (two : tree.PerformsAt place position other later) : step = other ∧ progress = later := by
  rcases one with ⟨data, dataEq, stepEq, progressEq⟩
  rcases two with ⟨_, sameData, otherEq, laterEq⟩
  cases dataEq.symm.trans sameData
  cases stepEq.symm.trans otherEq
  exact ⟨rfl, progressEq.trans laterEq.symm⟩

variable (counter : Counter)

theorem read_start_le (performs : tree.PerformsAt place position step progress) :
    counter.read place.progress ≤ counter.read progress := by
  rcases performs with ⟨data, -, -, rfl⟩
  exact counter.read_le_foldl (counter.read_le_evaluate tree _) _ _

/-- What is counted in a step has been counted before any later step. -/
theorem read_le_of_lt {next : Nat} {other : Step} {later : Progress}
    (one : tree.PerformsAt place position step progress)
    (two : tree.PerformsAt place next other later) (before : position < next) :
    counter.read (progress.advance (tree.evaluate (place.levels - 1)) step) ≤
      counter.read later := by
  rcases one with ⟨data, dataEq, stepEq, rfl⟩
  rcases two with ⟨_, sameData, -, rfl⟩
  cases dataEq.symm.trans sameData
  have stepEqTake : ((data.plan tree).take next)[position]? = some step := by
    rw [List.getElem?_take_of_lt before]
    exact stepEq
  rw [foldl_eq_of_getElem? stepEqTake, List.take_take, Nat.min_eq_left (Nat.le_of_lt before)]
  exact counter.read_le_foldl (counter.read_le_evaluate tree _) _ _

/-- It has been counted after the evaluation. -/
theorem read_le_after (performs : tree.PerformsAt place position step progress) :
    counter.read (progress.advance (tree.evaluate (place.levels - 1)) step) ≤
      counter.read (tree.progressAfter place) := by
  rcases performs with ⟨data, dataEq, stepEq, rfl⟩
  rw [progressAfter_eq dataEq, foldl_eq_of_getElem? stepEq]
  exact counter.read_le_foldl (counter.read_le_evaluate tree _) _ _

end PerformsAt

/-! ## What is counted where -/

section

variable {next : Place}

theorem read_le_next (counter : Counter) (goesOn : step.next? place progress = some next) :
    counter.read progress ≤ counter.read next.progress := by
  cases step with
  | visit child =>
      cases goesOn
      exact Nat.le_refl _
  | enter body =>
      cases goesOn
      exact counter.read_le_entered progress
  | _ => contradiction

theorem read_lt_next {counter : Counter} (marks : counter.Marks step)
    (goesOn : step.next? place progress = some next) :
    counter.read progress < counter.read next.progress := by
  cases counter with
  | scopes =>
      cases step with
      | enter body =>
          cases goesOn
          exact Nat.lt_succ_self _
      | _ => exact marks.elim
  | sites =>
      cases step with
      | allocate => contradiction
      | _ => exact marks.elim

/-- What is counted where a step goes on is counted in the step. -/
theorem read_after_next (counter : Counter) (goesOn : step.next? place progress = some next) :
    counter.read (tree.progressAfter next) =
      counter.read (progress.advance (tree.evaluate (place.levels - 1)) step) := by
  cases step with
  | visit child =>
      cases goesOn
      rfl
  | enter body =>
      cases goesOn
      exact counter.read_congr rfl rfl
  | _ => contradiction

end

/-- Where a plan is followed, some step comes to any number of sites between those before and
after. -/
theorem exists_takes {levels number : Nat} {plan : List Step} {start : Progress}
    (begun : start.sites ≤ number)
    (done : number < (plan.foldl (Progress.advance (tree.evaluate levels)) start).sites) :
    ∃ step progress, tree.Takes levels plan start step progress ∧ progress.sites ≤ number ∧
      number < (progress.advance (tree.evaluate levels) step).sites := by
  induction plan generalizing start with
  | nil => exact absurd done (Nat.not_lt_of_le begun)
  | cons step rest inductionHypothesis =>
      by_cases reached : number < (start.advance (tree.evaluate levels) step).sites
      · exact ⟨step, start, .here, begun, reached⟩
      · obtain ⟨other, progress, takes, between⟩ :=
          inductionHypothesis (Nat.le_of_not_lt reached) done
        exact ⟨other, progress, .later takes, between⟩

/-- Every site that is counted at a place is allocated there or below. -/
theorem exists_allocates {number : Nat}
    (begun : place.progress.sites ≤ number) (done : number < (tree.progressAfter place).sites) :
    ∃ lower made, tree.Below place lower ∧ tree.Performs lower .allocate made ∧
      made.sites = number := by
  induction levelsEq : place.levels generalizing place with
  | zero =>
      rw [progressAfter, levelsEq] at done
      exact absurd done (Nat.not_lt_of_le begun)
  | succ levels inductionHypothesis =>
      cases dataEq : tree.dataAt? place with
      | none =>
          rw [dataAt?, levelsEq, if_neg (Nat.succ_ne_zero _)] at dataEq
          rw [progressAfter, levelsEq, evaluate, dataEq] at done
          exact absurd done (Nat.not_lt_of_le begun)
      | some data =>
          rw [progressAfter_eq dataEq] at done
          obtain ⟨step, progress, takes, before, after⟩ := exists_takes begun done
          have performs : tree.Performs place step progress := ⟨data, dataEq, takes⟩
          have fewer : place.levels - 1 = levels := by rw [levelsEq, Nat.add_sub_cancel]
          cases step with
          | visit child =>
              obtain ⟨lower, made, below, inside⟩ :=
                @inductionHypothesis (place.child progress child) before after fewer
              exact ⟨lower, made, .visit performs below, inside⟩
          | enter body =>
              obtain ⟨lower, made, below, inside⟩ :=
                @inductionHypothesis (place.body progress body) before after fewer
              exact ⟨lower, made, .enter performs below, inside⟩
          | allocate =>
              exact ⟨place, progress, .refl place, performs,
                Nat.le_antisymm before (Nat.le_of_lt_succ after)⟩
          | declare | overwrite => exact absurd after (Nat.not_lt_of_le before)

namespace Leads

/-- What is counted below a place is counted there. -/
theorem read_le (counter : Counter) (leads : tree.Leads place path lower) :
    counter.read place.progress ≤ counter.read lower.progress ∧
      counter.read (tree.progressAfter lower) ≤ counter.read (tree.progressAfter place) := by
  induction leads with
  | refl => exact ⟨Nat.le_refl _, Nat.le_refl _⟩
  | step performs goesOn _ inductionHypothesis =>
      have begun := performs.read_start_le counter
      have next := read_le_next counter goesOn
      have done := performs.read_le_after counter
      rw [← read_after_next counter goesOn] at done
      exact ⟨Nat.le_trans begun (Nat.le_trans next inductionHypothesis.1),
        Nat.le_trans inductionHypothesis.2 done⟩

theorem unique {other : Place} (one : tree.Leads place path lower)
    (two : tree.Leads place path other) : lower = other := by
  induction one with
  | refl =>
      cases two
      rfl
  | step performs goesOn _ inductionHypothesis =>
      cases two with
      | step performsOther goesOnOther rest =>
          rcases performs.unique performsOther with ⟨rfl, rfl⟩
          cases goesOn.symm.trans goesOnOther
          exact inductionHypothesis rest

theorem append {middle : Place} {rest : List Nat} (one : tree.Leads place path middle)
    (two : tree.Leads middle rest lower) : tree.Leads place (path ++ rest) lower := by
  induction one with
  | refl => exact two
  | step performs goesOn _ inductionHypothesis =>
      exact .step performs goesOn (inductionHypothesis two)

theorem split {rest : List Nat} (leads : tree.Leads place (path ++ rest) lower) :
    ∃ middle, tree.Leads place path middle ∧ tree.Leads middle rest lower := by
  induction path generalizing place with
  | nil => exact ⟨place, .refl place, leads⟩
  | cons position path inductionHypothesis =>
      cases leads with
      | step performs goesOn below =>
          rcases inductionHypothesis below with ⟨middle, above, under⟩
          exact ⟨middle, .step performs goesOn above, under⟩

end Leads

/-- The places below a place are those that paths lead to. -/
theorem below_iff_leads : tree.Below place lower ↔ ∃ path, tree.Leads place path lower := by
  constructor
  · intro below
    induction below with
    | refl => exact ⟨[], .refl _⟩
    | visit performs _ inductionHypothesis | enter performs _ inductionHypothesis =>
        rcases performs_iff.1 performs with ⟨position, performsAt⟩
        rcases inductionHypothesis with ⟨path, leads⟩
        exact ⟨position :: path, .step performsAt rfl leads⟩
  · rintro ⟨path, leads⟩
    induction leads with
    | refl => exact .refl _
    | @step place next lower position step progress path performs goesOn _ inductionHypothesis =>
        cases step with
        | visit child =>
            cases goesOn
            exact .visit performs.performs inductionHypothesis
        | enter body =>
            cases goesOn
            exact .enter performs.performs inductionHypothesis
        | _ => contradiction

theorem Spans.leads (spans : tree.Spans place path lower) : tree.Leads place path lower := by
  induction spans with
  | refl => exact .refl _
  | visit performs _ inductionHypothesis => exact .step performs rfl inductionHypothesis

theorem Spans.scope_eq (spans : tree.Spans place path lower) : lower.scope = place.scope := by
  induction spans with
  | refl => rfl
  | visit _ _ inductionHypothesis => exact inductionHypothesis

/-- A number is counted in the step at a position. -/
def CountsAt (tree : Tree) (counter : Counter) (place : Place) (position number : Nat) : Prop :=
  ∃ step progress, tree.PerformsAt place position step progress ∧ counter.read progress ≤ number ∧
    number < counter.read (progress.advance (tree.evaluate (place.levels - 1)) step)

variable {counter : Counter}

theorem CountsAt.unique {other number : Nat} (one : tree.CountsAt counter place position number)
    (two : tree.CountsAt counter place other number) : position = other := by
  rcases one with ⟨step, progress, performs, begun, done⟩
  rcases two with ⟨otherStep, later, performsOther, begunOther, doneOther⟩
  rcases Nat.lt_trichotomy position other with before | same | after
  · have := performs.read_le_of_lt counter performsOther before
    omega
  · exact same
  · have := performsOther.read_le_of_lt counter performs after
    omega

theorem PerformsAt.countsAt (performs : tree.PerformsAt place position step progress)
    (marks : counter.Marks step) : tree.CountsAt counter place position (counter.read progress) :=
  ⟨step, progress, performs, Nat.le_refl _, Counter.read_lt_advance marks tree _ progress⟩

/-- What is counted at a place is counted in the step that leads there. -/
theorem Leads.countsAt {next : Place} {first : Nat} {way : Step} {passed : Progress}
    (takes : tree.PerformsAt place first way passed) (goesOn : way.next? place passed = some next)
    (leads : tree.Leads next path lower) (performs : tree.PerformsAt lower position step progress)
    (marks : counter.Marks step) : tree.CountsAt counter place first (counter.read progress) := by
  refine ⟨way, passed, takes, ?_, ?_⟩
  · have begun := Nat.le_trans (leads.read_le counter).1 (performs.read_start_le counter)
    exact Nat.le_trans (read_le_next counter goesOn) begun
  · have counted := Counter.read_lt_advance marks tree (lower.levels - 1) progress
    have done := Nat.le_trans (performs.read_le_after counter) (leads.read_le counter).2
    rw [read_after_next counter goesOn] at done
    exact Nat.lt_of_lt_of_le counted done

/-- A path leads no further through what is counted. -/
theorem Leads.read_ne {next : Place} {first : Nat} {way : Step} {passed : Progress}
    (takes : tree.PerformsAt place first way passed) (goesOn : way.next? place passed = some next)
    (leads : tree.Leads next path lower) (performs : tree.PerformsAt lower position step progress)
    (marks : counter.Marks step) {other : Nat} {marked : Step} {reached : Progress}
    (here : tree.PerformsAt place other marked reached) (marksHere : counter.Marks marked) :
    counter.read reached ≠ counter.read progress := by
  intro same
  have countsHere := here.countsAt marksHere
  rw [same] at countsHere
  cases countsHere.unique (leads.countsAt takes goesOn performs marks)
  rcases here.unique takes with ⟨rfl, rfl⟩
  have begun := performs.read_start_le counter
  have further := read_lt_next marksHere goesOn
  have through := (leads.read_le counter).1
  omega

/-- A number tells the path to what it is given to. -/
theorem Leads.path_eq {first second : List Nat} {one two : Place} {other : Nat} {marked : Step}
    {later : Progress} (leads : tree.Leads place first one)
    (performs : tree.PerformsAt one position step progress) (marks : counter.Marks step)
    (leadsOther : tree.Leads place second two)
    (performsOther : tree.PerformsAt two other marked later) (marksOther : counter.Marks marked)
    (same : counter.read progress = counter.read later) :
    first ++ [position] = second ++ [other] := by
  -- Both paths begin with the step in which the number is counted.
  induction leads generalizing second with
  | refl =>
      cases leadsOther with
      | refl =>
          have counts := performs.countsAt marks
          rw [same] at counts
          rw [counts.unique (performsOther.countsAt marksOther)]
      | step takes goesOn rest =>
          exact absurd same (rest.read_ne takes goesOn performsOther marksOther performs marks)
  | step takes goesOn rest inductionHypothesis =>
      cases leadsOther with
      | refl =>
          exact absurd same.symm (rest.read_ne takes goesOn performs marks performsOther marksOther)
      | step takesOther goesOnOther restOther =>
          have counts := rest.countsAt takes goesOn performs marks
          rw [same] at counts
          have countsOther := restOther.countsAt takesOther goesOnOther performsOther marksOther
          cases counts.unique countsOther
          rcases takes.unique takesOther with ⟨rfl, rfl⟩
          cases goesOn.symm.trans goesOnOther
          rw [List.cons_append, List.cons_append, inductionHypothesis performs restOther]

/-- A site is allocated at one place only. -/
theorem Leads.maker_unique {first second : List Nat} {one two : Place} {made later : Progress}
    (leads : tree.Leads place first one) (makes : tree.Performs one .allocate made)
    (leadsOther : tree.Leads place second two) (makesOther : tree.Performs two .allocate later)
    (same : made.sites = later.sites) : first = second := by
  rcases performs_iff.1 makes with ⟨position, performs⟩
  rcases performs_iff.1 makesOther with ⟨other, performsOther⟩
  have marks : Counter.sites.Marks .allocate := trivial
  exact (List.append_inj' (leads.path_eq performs marks leadsOther performsOther marks same) rfl).1

/-! ## Where scopes begin -/

/-- Every path passes the place where the scope begins that it ends in. -/
theorem Leads.exists_opens (leads : tree.Leads place path lower) :
    ∃ above inner root, path = above ++ inner ∧ tree.Opens place above root ∧
      tree.Spans root inner lower := by
  induction leads with
  | refl => exact ⟨[], [], _, rfl, .top, .refl _⟩
  | @step place next lower position step progress path performs goesOn rest inductionHypothesis =>
      rcases inductionHypothesis with ⟨above, inner, root, rfl, opens, spans⟩
      -- Where the rest of the path begins a scope need not begin: the step may be a visit.
      cases opens with
      | top =>
          cases step with
          | visit child =>
              cases goesOn
              exact ⟨[], _, place, rfl, .top, .visit performs spans⟩
          | enter body =>
              cases goesOn
              exact ⟨[position], inner, _, rfl, .enter (.refl place) performs, spans⟩
          | _ => contradiction
      | enter above performsEnter =>
          exact ⟨position :: _, inner, _, rfl, .enter (.step performs goesOn above) performsEnter,
            spans⟩

/-- The number of a scope tells where it begins. -/
theorem Opens.unique {first second : List Nat} {one two : Place} (opens : tree.Opens place first one)
    (opensOther : tree.Opens place second two) (outermost : place.scope ≤ place.progress.scopes)
    (same : one.scope = two.scope) : first = second ∧ one = two := by
  have inner {path : List Nat} {other : Place} {position : Nat} {step : Step} {progress : Progress}
      (leads : tree.Leads place path other) (performs : tree.PerformsAt other position step progress) :
      place.scope < progress.scopes + 1 :=
    Nat.lt_succ_of_le (Nat.le_trans outermost
      (Nat.le_trans (leads.read_le .scopes).1 (performs.read_start_le .scopes)))
  cases opens with
  | top =>
      cases opensOther with
      | top => exact ⟨rfl, rfl⟩
      | enter leads performs => exact absurd same (Nat.ne_of_lt (inner leads performs))
  | @enter maker above position body progress leads performs =>
      cases opensOther with
      | top => exact absurd same.symm (Nat.ne_of_lt (inner leads performs))
      | @enter other aside place body later leadsOther performsOther =>
          have marks (body : NodeIndex) : Counter.scopes.Marks (.enter body) := trivial
          have paths := leads.path_eq performs (marks _) leadsOther performsOther (marks _)
            (Nat.succ.inj same)
          rcases List.append_inj' paths rfl with ⟨rfl, positions⟩
          cases positions
          cases leads.unique leadsOther
          rcases performs.unique performsOther with ⟨steps, rfl⟩
          cases steps
          exact ⟨rfl, rfl⟩

/-- All places of a scope are reached by visits from where it begins. -/
theorem Opens.spans_of_scope_eq {above : List Nat} {root : Place} (opens : tree.Opens place above root)
    (outermost : place.scope ≤ place.progress.scopes) (leads : tree.Leads place path lower)
    (same : lower.scope = root.scope) : ∃ inner, path = above ++ inner ∧ tree.Spans root inner lower := by
  rcases leads.exists_opens with ⟨first, inner, other, rfl, opensOther, spans⟩
  rcases opensOther.unique opens outermost (spans.scope_eq.symm.trans same) with ⟨rfl, rfl⟩
  exact ⟨inner, rfl, spans⟩

theorem Opens.leads {root : Place} (opens : tree.Opens place path root) :
    tree.Leads place path root := by
  cases opens with
  | top => exact .refl place
  | enter leads performs => exact leads.append (.step performs rfl (.refl _))

/-- No names are global where a scope begins. -/
theorem Opens.globals_eq {root : Place} (opens : tree.Opens place path root)
    (none_ : place.progress.globals = []) : root.progress.globals = [] := by
  cases opens with
  | top => exact none_
  | enter => rfl

end Tree

end EscapePlan
