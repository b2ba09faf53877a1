import EscapePlan.Proofs.Placement.Replacement

/-!
# What a replaced object is used for

Every value that is evaluated is used in some way: it is accessed, given to a variable, exposed,
tested or dropped.  An object is replaced by local variables exactly if it does not escape and is
accessed through its named fields, apart from other objects.  That it is tested is not looked at: a
test leaves no trace, although nothing is left to be tested once the object is replaced.
-/

namespace EscapePlan

/-- What becomes of the value of an expression. -/
inductive Usage where
  /-- A field of it is accessed, or an element if no field is named. -/
  | accessed (field : Option String)
  /-- It is given to a variable. -/
  | copied
  /-- It is returned, thrown, passed on or stored. -/
  | exposed
  /-- It decides where control goes, or which element is accessed. -/
  | tested
  /-- Nothing. -/
  | dropped
  deriving DecidableEq, Repr

/-- What becomes of a value that is assigned. -/
def Tree.valueUsage (tree : Tree) (target : NodeIndex) : Usage :=
  match tree.data? target with
  | some (.var _) => .copied
  | _ => .exposed

/-- What evaluating the place that is assigned to does, and what the values are used for. -/
def Tree.targetUsages (tree : Tree) (target : NodeIndex) : List (Step × Usage) :=
  match tree.data? target with
  | none | some (.var _) => []
  | some (.propertyAccess object property) =>
      [(.visit object, .accessed (some (tree.name property)))]
  | some (.arrayAccess array index) =>
      (.visit array, .accessed none) :: index.toList.map (.visit ·, .tested)
  | some _ => [(.visit target, .dropped)]

/-- What evaluating a node does, in order, and what the values are used for. -/
def NodeData.usages (tree : Tree) : NodeData → List (Step × Usage)
  | .root statements | .block statements => statements.map (.visit ·, .dropped)
  | .functionDecl _ _ body => [(.enter body, .dropped)]
  | .assignment target value => (.visit value, tree.valueUsage target) :: tree.targetUsages target
  | .objectInstantiation _ operands | .arrayInit operands =>
      operands.map (.visit ·, .exposed) ++ [(.allocate, .dropped)]
  | .returnStmt value => value.toList.map (.visit ·, .exposed)
  | .functionCall _ args => args.map (.visit ·, .exposed)
  | .methodCall object _ args => (.visit object, .exposed) :: args.map (.visit ·, .exposed)
  | .propertyAccess object property => [(.visit object, .accessed (some (tree.name property)))]
  | .arrayAccess array index =>
      (.visit array, .accessed none) :: index.toList.map (.visit ·, .tested)
  | .closure _ _ body => [(.allocate, .dropped), (.enter body, .dropped)]
  | .var _ | .literal _ | .other => []
  | .ifStmt condition thenBranch elseBranch =>
      (.visit condition, .tested) :: (.visit thenBranch, .dropped) ::
        elseBranch.toList.map (.visit ·, .dropped)
  | .whileStmt condition body => [(.visit condition, .tested), (.visit body, .dropped)]
  | .forStmt init condition update body =>
      init.map (.visit ·, .dropped) ++ condition.toList.map (.visit ·, .tested) ++
        (.visit body, .dropped) :: update.map (.visit ·, .dropped)
  | .foreachStmt iterable key value body =>
      [(.visit iterable, .accessed none), (.overwrite (key.toList ++ [value]), .dropped),
        (.visit body, .dropped)]
  | .throwStmt value => [(.visit value, .exposed)]
  | .global names => [(.declare names, .dropped)]

theorem Tree.steps_targetUsages (tree : Tree) (target : NodeIndex) :
    (tree.targetUsages target).map (·.1) = tree.targetPlan target := by
  rw [targetUsages, targetPlan]
  cases tree.data? target with
  | none => rfl
  | some data => cases data <;> simp [Function.comp_def]

/-- The steps that values are used in are those that evaluating a node takes. -/
theorem NodeData.steps_usages (tree : Tree) (data : NodeData) :
    (data.usages tree).map (·.1) = data.plan tree := by
  cases data with
  | assignment target value => rw [usages, plan, List.map_cons, tree.steps_targetUsages]
  | _ => simp [usages, plan, Function.comp_def]

namespace Tree

variable {tree : Tree} {place base : Place} {site : Site}

/-- A value is used in one of several steps, which is taken at some point. -/
inductive TakesFor (tree : Tree) (levels : Nat) :
    List (Step × Usage) → Progress → NodeIndex → Usage → Progress → Prop where
  | here {child : NodeIndex} {use : Usage} {rest : List (Step × Usage)} {progress : Progress} :
      TakesFor tree levels ((.visit child, use) :: rest) progress child use progress
  | later {first : Step × Usage} {rest : List (Step × Usage)} {child : NodeIndex} {use : Usage}
      {start progress : Progress} :
      TakesFor tree levels rest (start.advance (tree.evaluate levels) first.1) child use progress →
      TakesFor tree levels (first :: rest) start child use progress

/-- At a place the value of an expression is used in some way. -/
def Uses (tree : Tree) (place base : Place) (use : Usage) : Prop :=
  ∃ data child progress, tree.dataAt? place = some data ∧
    tree.TakesFor (place.levels - 1) (data.usages tree) place.progress child use progress ∧
    base = place.child progress child

theorem TakesFor.mem {levels : Nat} {uses : List (Step × Usage)} {start progress : Progress}
    {child : NodeIndex} {use : Usage}
    (takes : tree.TakesFor levels uses start child use progress) : (.visit child, use) ∈ uses := by
  induction takes with
  | here => exact List.mem_cons_self
  | later _ inductionHypothesis => exact List.mem_cons_of_mem _ inductionHypothesis

theorem TakesFor.takes {levels : Nat} {uses : List (Step × Usage)} {start progress : Progress}
    {child : NodeIndex} {use : Usage}
    (takes : tree.TakesFor levels uses start child use progress) :
    tree.Takes levels (uses.map (·.1)) start (.visit child) progress := by
  induction takes with
  | here => exact .here
  | later _ inductionHypothesis => exact .later inductionHypothesis

/-- Whatever is evaluated is used in some way. -/
theorem exists_uses {child : NodeIndex} {progress : Progress}
    (performs : tree.Performs place (.visit child) progress) :
    ∃ use, tree.Uses place (place.child progress child) use := by
  obtain ⟨data, dataEq, takes⟩ := performs
  suffices found : ∃ use, tree.TakesFor (place.levels - 1) (data.usages tree) place.progress child
      use progress by
    obtain ⟨use, takesFor⟩ := found
    exact ⟨use, data, child, progress, dataEq, takesFor, rfl⟩
  rw [← data.steps_usages tree] at takes
  generalize data.usages tree = uses at takes
  generalize place.progress = start at takes
  induction uses generalizing start with
  | nil => nomatch takes
  | cons first rest inductionHypothesis =>
      obtain ⟨step, use⟩ := first
      cases takes with
      | here => exact ⟨use, .here⟩
      | later takes =>
          obtain ⟨other, takesFor⟩ := inductionHypothesis _ takes
          exact ⟨other, .later takesFor⟩

/-! ## Accesses and exposures -/

theorem uses_of_accesses {field : Option String} (accesses : tree.Accesses place base field) :
    tree.Uses place base (.accessed field) := by
  cases accesses with
  | load dataEq baseEq =>
      rename_i data index
      refine ⟨data, index, place.progress, dataEq, ?_, rfl⟩
      cases data with
      | propertyAccess => cases baseEq; exact .here
      | arrayAccess => cases baseEq; exact .here
      | _ => cases baseEq
  | store dataEq targetEq baseEq =>
      rename_i target value index data
      refine ⟨_, index, tree.progressAfter (place.value value), dataEq, .later ?_, rfl⟩
      rw [targetUsages, targetEq]
      cases data with
      | propertyAccess => cases baseEq; exact .here
      | arrayAccess => cases baseEq; exact .here
      | _ => cases baseEq
  | iterate dataEq => exact ⟨_, _, _, dataEq, .here, rfl⟩

/-- What is accessed on the way to where a value is assigned to. -/
theorem TakesFor.of_targetUsages {target child : NodeIndex} {use : Usage}
    {start progress : Progress} {levels : Nat}
    (takes : tree.TakesFor levels (tree.targetUsages target) start child use progress) :
    use ≠ .exposed ∧ ∀ field, use = .accessed field → progress = start ∧
      ∃ data, tree.data? target = some data ∧ data.base? tree = some (child, field) := by
  rw [targetUsages] at takes
  cases targetEq : tree.data? target with
  | none =>
      rw [targetEq] at takes
      nomatch takes
  | some data =>
      rw [targetEq] at takes
      cases data with
      | var name => nomatch takes
      | propertyAccess object property =>
          cases takes with
          | here =>
              refine ⟨nofun, fun field same => ⟨rfl, _, rfl, ?_⟩⟩
              cases same
              rfl
          | later takes => nomatch takes
      | arrayAccess array index =>
          cases takes with
          | here =>
              refine ⟨nofun, fun field same => ⟨rfl, _, rfl, ?_⟩⟩
              cases same
              rfl
          | later takes =>
              have listed := takes.mem
              simp only [List.mem_map, Prod.mk.injEq] at listed
              obtain ⟨-, -, -, rfl⟩ := listed
              exact ⟨nofun, nofun⟩
      | _ =>
          cases takes with
          | here => exact ⟨nofun, nofun⟩
          | later takes => nomatch takes

theorem accesses_of_uses {field : Option String} (uses : tree.Uses place base (.accessed field)) :
    tree.Accesses place base field := by
  obtain ⟨data, child, progress, dataEq, takes, rfl⟩ := uses
  cases data with
  | assignment target value =>
      rw [NodeData.usages] at takes
      generalize valueEq : tree.valueUsage target = use at takes
      cases takes with
      | here =>
          rw [valueUsage] at valueEq
          split at valueEq <;> nomatch valueEq
      | later takes =>
          obtain ⟨rfl, data, targetEq, baseEq⟩ := takes.of_targetUsages.2 field rfl
          exact .store dataEq targetEq baseEq
  | propertyAccess object property =>
      cases takes with
      | here => exact .load dataEq rfl
      | later takes => nomatch takes
  | arrayAccess array index =>
      cases takes with
      | here => exact .load dataEq rfl
      | later takes =>
          have listed := takes.mem
          simp at listed
  | foreachStmt iterable key value body =>
      cases takes with
      | here => exact .iterate dataEq
      | later takes =>
          have listed := takes.mem
          simp at listed
  | _ =>
      have listed := takes.mem
      simp [NodeData.usages] at listed

/-- What is exposed may escape. -/
theorem mayEscape_of_uses (occurs : tree.Occurs place) (uses : tree.Uses place base .exposed)
    (mayYield : tree.MayYield base site) : tree.MayEscape (fun _ _ => False) site := by
  obtain ⟨data, child, progress, dataEq, takes, rfl⟩ := uses
  obtain ⟨source, yields, mayDenote⟩ := mayYield
  refine ⟨source, ⟨place, occurs, ?_⟩, mayDenote⟩
  have performs : tree.Performs place (.visit child) progress :=
    ⟨data, dataEq, data.steps_usages tree ▸ takes.takes⟩
  cases exposed : data.exposesOperands with
  | true => exact .operand dataEq exposed performs yields
  | false =>
      cases data with
      | assignment target value =>
          rw [NodeData.usages] at takes
          generalize valueEq : tree.valueUsage target = use at takes
          cases takes with
          | here =>
              refine .stored dataEq (fun name targetEq => ?_) yields
              rw [valueUsage, targetEq] at valueEq
              nomatch valueEq
          | later takes => exact absurd rfl takes.of_targetUsages.1
      | _ =>
          have listed := takes.mem
          simp [NodeData.usages, NodeData.exposesOperands] at listed exposed

/-- An object of a site may be replaced although it is used so: through a named field of nothing
else, or without anything being done with it. -/
def Spares (tree : Tree) (base : Place) (site : Site) : Usage → Prop
  | .accessed (some _) => ∀ other, tree.MayYield base other → other = site
  | .accessed none | .exposed => False
  | .copied | .tested | .dropped => True

end Tree

namespace Placement

/-- In a tree that declares no globals, the objects of a site are replaced by local variables
exactly if they do not escape, some field of them may be accessed by name, and whatever they are
used for is an access to a named field of nothing else, a copy, a test or nothing at all; unless
nothing can be placed at all. -/
theorem replaced_iff_uses (config : Config) {tree : Tree} (noGlobal : tree.NoGlobal)
    (site : Site) :
    siteLocation? config tree site = some .scalarReplaced ↔
      ¬ Overflows config tree ∧ config.enableScalarReplacement = true ∧
        ((Analysis.ofTree config tree).recordOf? site).map (·.state) = some .noEscape ∧
        (∃ place base field, tree.Occurs place ∧ tree.Uses place base (.accessed (some field)) ∧
          tree.MayYield base site) ∧
        ∀ place base use, tree.Occurs place → tree.Uses place base use → tree.MayYield base site →
          tree.Spares base site use := by
  constructor
  · intro replaced
    obtain ⟨record, -, found, -⟩ := exists_of_siteLocation? replaced
    obtain ⟨replaceable, placed⟩ := (siteLocation?_eq_scalarReplaced_iff found).1 replaced
    have noEscape := noEscape_of_siteLocation? found replaced (by decide)
    obtain ⟨enabled, ⟨place, base, field, occurs, accesses, mayYield⟩, exclusive⟩ :=
      (isScalarReplaceable_iff_of_noGlobal noGlobal found noEscape).1 replaceable
    refine ⟨placed, enabled, by rw [found, Option.map_some, noEscape],
      ⟨place, base, field, occurs, Tree.uses_of_accesses accesses, mayYield⟩, ?_⟩
    intro place base use occurs uses mayYield
    have confined := not_mayEscape_of_noEscape noGlobal found noEscape
    cases use with
    | accessed field =>
        obtain ⟨source, yields, mayDenote⟩ := mayYield
        obtain ⟨named, alone⟩ := exclusive place base field source occurs
          (Tree.accesses_of_uses uses) yields mayDenote
        cases field with
        | none => exact absurd rfl named
        | some field =>
            rintro other ⟨same, yieldsSame, denotes⟩
            cases yields.unique yieldsSame
            exact alone other denotes
    | exposed => exact confined (Tree.mayEscape_of_uses occurs uses mayYield)
    | copied => trivial
    | tested => trivial
    | dropped => trivial
  · rintro ⟨placed, enabled, state, ⟨place, base, field, occurs, uses, mayYield⟩, spares⟩
    rcases Option.map_eq_some_iff.1 state with ⟨record, found, noEscape⟩
    rw [siteLocation?_eq_scalarReplaced_iff found,
      isScalarReplaceable_iff_of_noGlobal noGlobal found noEscape]
    refine ⟨⟨enabled, ⟨place, base, field, occurs, Tree.accesses_of_uses uses, mayYield⟩, ?_⟩, placed⟩
    intro place base field source occurs accesses yields mayDenote
    have spared := spares place base _ occurs (Tree.uses_of_accesses accesses)
      ⟨source, yields, mayDenote⟩
    cases field with
    | none => exact spared.elim
    | some field =>
        exact ⟨Option.some_ne_none field, fun other denotes =>
          spared other ⟨source, yields, denotes⟩⟩

/-- A field of an object is read, and the object is tested. -/
def testedPoint : Tree where
  root := ⟨0⟩
  strings := .ofList ["plot", "point", "Point", "x"]
  nodes := #[⟨.root [⟨1⟩], none⟩, ⟨.functionDecl ⟨0⟩ [] ⟨2⟩, none⟩, ⟨.block [⟨3⟩, ⟨6⟩, ⟨7⟩], none⟩,
    ⟨.assignment ⟨4⟩ ⟨5⟩, none⟩, ⟨.var ⟨1⟩, none⟩, ⟨.objectInstantiation ⟨2⟩ [], none⟩,
    ⟨.propertyAccess ⟨4⟩ ⟨3⟩, none⟩, ⟨.ifStmt ⟨4⟩ ⟨8⟩ none, none⟩, ⟨.block [], none⟩]

theorem noGlobal_testedPoint : testedPoint.NoGlobal := by
  apply Tree.noGlobal_of_nodes
  simp [testedPoint]

theorem denotes_testedPoint : testedPoint.MayDenote (fun _ _ => False) (.named ⟨1, ⟨1⟩⟩)
    ⟨0, ⟨5⟩⟩ := by
  have given : testedPoint.Occurs _ :=
    .visit ⟨_, rfl, .here⟩ (.enter ⟨_, rfl, .here⟩ (.visit ⟨_, rfl, .here⟩ (.refl _)))
  exact .flow given (.assigned rfl rfl id (.site ⟨_, rfl, .here⟩)) (.site _)

theorem siteLocation?_testedPoint :
    siteLocation? {} testedPoint ⟨0, ⟨5⟩⟩ = some .scalarReplaced := by
  cbv

theorem replaced_iff_uses_testedPoint :
    testedPoint.NoGlobal ∧ siteLocation? {} testedPoint ⟨0, ⟨5⟩⟩ = some .scalarReplaced ∧
      ∀ place base use, testedPoint.Occurs place → testedPoint.Uses place base use →
        testedPoint.MayYield base ⟨0, ⟨5⟩⟩ → testedPoint.Spares base ⟨0, ⟨5⟩⟩ use := by
  have replaced := replaced_iff_uses {} noGlobal_testedPoint ⟨0, ⟨5⟩⟩
  exact ⟨noGlobal_testedPoint, siteLocation?_testedPoint,
    (replaced.1 siteLocation?_testedPoint).2.2.2.2⟩

/-- What is replaced may be the condition of a branch. -/
theorem tests_replaced :
    testedPoint.NoGlobal ∧ siteLocation? {} testedPoint ⟨0, ⟨5⟩⟩ = some .scalarReplaced ∧
      testedPoint.Occurs ⟨509, 1, ⟨1, 1, []⟩, ⟨7⟩⟩ ∧
      testedPoint.dataAt? ⟨509, 1, ⟨1, 1, []⟩, ⟨7⟩⟩ = some (.ifStmt ⟨4⟩ ⟨8⟩ none) ∧
      testedPoint.Uses ⟨509, 1, ⟨1, 1, []⟩, ⟨7⟩⟩ ⟨508, 1, ⟨1, 1, []⟩, ⟨4⟩⟩ .tested ∧
      testedPoint.MayYield ⟨508, 1, ⟨1, 1, []⟩, ⟨4⟩⟩ ⟨0, ⟨5⟩⟩ := by
  have occurs : testedPoint.Occurs ⟨509, 1, ⟨1, 1, []⟩, ⟨7⟩⟩ :=
    .visit ⟨_, rfl, .here⟩ (.enter ⟨_, rfl, .here⟩
      (.visit ⟨_, rfl, .later (.later .here)⟩ (.refl _)))
  exact ⟨noGlobal_testedPoint, siteLocation?_testedPoint, occurs, rfl,
    ⟨_, ⟨4⟩, _, rfl, .here, rfl⟩, _, .named rfl id, denotes_testedPoint⟩

end Placement

end EscapePlan
