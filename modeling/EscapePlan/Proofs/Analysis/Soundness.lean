import EscapePlan.Proofs.Analysis.Completion

/-!
# Soundness of the analysis

Whatever may be denoted by something that is exposed is found to escape.
-/

namespace EscapePlan

/-- Something that is exposed may denote the objects of a site. -/
def Law.LetsOut (law : Law) (site : Site) : Prop :=
  ∃ source, law.exposes source ∧ law.Denotes source site

namespace Walk.Accounts

variable {tree : Tree} {top : Place} {walk : Walk} (accounts : Accounts tree top walk)
  (config : Config)
include accounts

/-- What something that is exposed may denote is found to escape; names are global where the
order of evaluation makes them so. -/
theorem letsEscape {site : Site} (letsOut : (Law.ofPlace tree top).LetsOut site) :
    (Analysis.ofWalk config walk.settle).LetsEscape config.unknownIsBottom site := by
  rcases letsOut with ⟨source, ⟨place, below, exposes⟩, denotes⟩
  rcases (accounts.covers place below).exposes source exposes with ⟨sink, noted, represents⟩
  rcases accounts.exists_mem_aliases represents denotes with ⟨node, representsSite, listed⟩
  apply Analysis.letsEscape_ofWalk accounts.sound representsSite
  exact accounts.sound.escapes_settle noted listed (accounts.sound.known_of_represents representsSite)

omit config in
/-- Nothing else meets a sink. -/
theorem letsOut_of_sunk {id : NodeId} {site : Site} (represents : walk.Represents id (.site site))
    {sink : Sink} (noted : sink ∈ walk.sinks)
    (listed : id ∈ walk.resolveAliases.aliases sink.value) :
    (Law.ofPlace tree top).LetsOut site := by
  rcases accounts.exists_source (accounts.lawful.sinks sink noted) represents listed with
    ⟨source, exposes, -, denotes⟩
  exact ⟨source, exposes, denotes⟩

/-- What is made in a scope in which the tree is cut off is found to escape. -/
theorem letsEscape_of_cut {place lower : Place} {made : Progress} (below : tree.Below top place)
    (makes : tree.Performs place .allocate made) (belowLower : tree.Below top lower)
    (same : lower.scope = place.scope) (cut : lower.levels = 0)
    (hidden : tree.data? lower.index ≠ none) :
    (Analysis.ofWalk config walk.settle).LetsEscape config.unknownIsBottom
      ⟨made.sites, place.index⟩ := by
  rcases (accounts.covers place below).sites made makes with ⟨id, numbered, represents⟩
  have truncated := (accounts.covers lower belowLower).cut cut hidden
  rw [same] at truncated
  apply Analysis.letsEscape_ofWalk accounts.sound represents
  exact accounts.sound.escapes_truncated (Array.mem_of_getElem? numbered) truncated

end Walk.Accounts

/-- What something that is exposed may denote is found to escape. -/
theorem Analysis.letsEscape_of_exposed (config : Config) (tree : Tree) {source : Source}
    {site : Site} (exposed : tree.Exposed Progress.IsGlobal source)
    (mayDenote : tree.MayDenote Progress.IsGlobal source site) :
    (ofTree config tree).LetsEscape config.unknownIsBottom site := by
  apply (Walk.ofTree_accounts config tree depthLimit).letsEscape config
  exact ⟨source, exposed, Law.denotes_iff_mayDenote.2 mayDenote⟩

/-! ## Trees without declarations of globals -/

namespace Tree

/-- No node declares a name to be global. -/
def NoGlobal (tree : Tree) : Prop :=
  ∀ index names, tree.data? index ≠ some (.global names)

variable {tree : Tree} {levels : Nat} {place : Place} {source : Source} {site : Site}

theorem noGlobal_of_nodes (nodes : ∀ node ∈ tree.nodes, ∀ names, node.data ≠ .global names) :
    tree.NoGlobal := by
  intro index names dataEq
  rcases Option.map_eq_some_iff.1 dataEq with ⟨node, found, same⟩
  exact nodes node (Array.mem_of_getElem? found) names same

theorem declare_notMem_plan {data : NodeData} (noGlobal : ∀ names, data ≠ .global names)
    (names : List StrId) : .declare names ∉ data.plan tree := by
  cases data with
  | assignment target value =>
      rw [NodeData.plan, List.mem_cons, not_or]
      refine ⟨Step.noConfusion, ?_⟩
      unfold targetPlan
      split <;> simp
  | global names => exact absurd rfl (noGlobal names)
  | _ => simp [NodeData.plan]

/-- Without declarations no step makes a name global. -/
theorem globals_advance {evaluate : NodeIndex → Progress → Progress}
    (visits : ∀ index progress, progress.globals = [] → (evaluate index progress).globals = [])
    {step : Step} (noDeclare : ∀ names, step ≠ .declare names) {progress : Progress}
    (empty : progress.globals = []) : (progress.advance evaluate step).globals = [] := by
  cases step with
  | visit child => exact visits child progress empty
  | allocate => exact empty
  | enter body => exact empty
  | declare names => exact absurd rfl (noDeclare names)
  | overwrite names => rw [Progress.advance, empty, List.filter_nil]

theorem globals_foldl {evaluate : NodeIndex → Progress → Progress}
    (visits : ∀ index progress, progress.globals = [] → (evaluate index progress).globals = [])
    {plan : List Step} (noDeclare : ∀ names, .declare names ∉ plan) {progress : Progress}
    (empty : progress.globals = []) :
    (plan.foldl (Progress.advance evaluate) progress).globals = [] := by
  induction plan generalizing progress with
  | nil => exact empty
  | cons step rest inductionHypothesis =>
      apply inductionHypothesis fun names member => noDeclare names (List.mem_cons_of_mem _ member)
      apply globals_advance visits _ empty
      rintro names rfl
      exact noDeclare names List.mem_cons_self

theorem globals_evaluate (noGlobal : tree.NoGlobal) (index : NodeIndex) {progress : Progress}
    (empty : progress.globals = []) : (tree.evaluate levels index progress).globals = [] := by
  induction levels generalizing index progress with
  | zero => exact empty
  | succ levels inductionHypothesis =>
      rw [evaluate]
      cases dataEq : tree.data? index with
      | none => exact empty
      | some data =>
          apply globals_foldl (fun child _ => inductionHypothesis child) _ empty
          apply declare_notMem_plan
          rintro names rfl
          exact noGlobal index names dataEq

theorem Takes.globals (noGlobal : tree.NoGlobal) {plan : List Step} {start progress : Progress}
    {step : Step} (takes : tree.Takes levels plan start step progress)
    (noDeclare : ∀ names, .declare names ∉ plan) (empty : start.globals = []) :
    progress.globals = [] := by
  induction takes with
  | here => exact empty
  | later _ inductionHypothesis =>
      apply inductionHypothesis fun names member => noDeclare names (List.mem_cons_of_mem _ member)
      apply globals_advance (fun index _ => globals_evaluate noGlobal index) _ empty
      rintro names rfl
      exact noDeclare names List.mem_cons_self

theorem Performs.globals (noGlobal : tree.NoGlobal) {step : Step} {progress : Progress}
    (performs : tree.Performs place step progress) (empty : place.progress.globals = []) :
    progress.globals = [] := by
  rcases performs with ⟨data, dataEq, takes⟩
  apply takes.globals noGlobal _ empty
  apply declare_notMem_plan
  rintro names rfl
  rw [dataAt?] at dataEq
  split at dataEq
  next => contradiction
  next => exact noGlobal place.index names dataEq

theorem Below.globals (noGlobal : tree.NoGlobal) {lower : Place} (below : tree.Below place lower)
    (empty : place.progress.globals = []) : lower.progress.globals = [] := by
  induction below with
  | refl => exact empty
  | visit performs _ inductionHypothesis =>
      exact inductionHypothesis (performs.globals noGlobal empty)
  | enter _ _ inductionHypothesis => exact inductionHypothesis rfl

theorem not_isGlobal {name : StrId} {progress : Progress} (empty : progress.globals = []) :
    ¬ progress.IsGlobal name := by
  rw [Progress.IsGlobal, empty]
  exact List.not_mem_nil

/-! Without declarations nothing is left out because it is global. -/

theorem Yields.of_noGlobal (noGlobal : tree.NoGlobal) (empty : place.progress.globals = [])
    (yields : tree.Yields (fun _ _ => False) place source) :
    tree.Yields Progress.IsGlobal place source := by
  cases yields with
  | site performs => exact .site performs
  | named dataEq => exact .named dataEq (not_isGlobal empty)
  | assigned dataEq targetEq =>
      exact .assigned dataEq targetEq (not_isGlobal (globals_evaluate noGlobal _ empty))

theorem Flows.of_noGlobal (noGlobal : tree.NoGlobal) (empty : place.progress.globals = [])
    {key : VarKey} (flows : tree.Flows (fun _ _ => False) place key source) :
    tree.Flows Progress.IsGlobal place key source := by
  cases flows with
  | assigned dataEq targetEq _ yields =>
      exact .assigned dataEq targetEq (not_isGlobal (globals_evaluate noGlobal _ empty))
        (yields.of_noGlobal noGlobal empty)
  | captured dataEq member _ performs =>
      exact .captured dataEq member (not_isGlobal empty) performs

theorem Exposes.of_noGlobal (noGlobal : tree.NoGlobal) (empty : place.progress.globals = [])
    (exposes : tree.Exposes (fun _ _ => False) place source) :
    tree.Exposes Progress.IsGlobal place source := by
  cases exposes with
  | operand dataEq exposed performs yields =>
      exact .operand dataEq exposed performs
        (yields.of_noGlobal noGlobal (performs.globals noGlobal empty))
  | stored dataEq noVariable yields =>
      exact .stored dataEq (fun name targetEq => (noVariable name targetEq).elim)
        (yields.of_noGlobal noGlobal empty)
  | captured dataEq member => exact .captured dataEq member (not_isGlobal empty)

theorem Occurs.globals (noGlobal : tree.NoGlobal) (occurs : tree.Occurs place) :
    place.progress.globals = [] :=
  Below.globals noGlobal occurs rfl

theorem MayDenote.of_noGlobal (noGlobal : tree.NoGlobal)
    (mayDenote : tree.MayDenote (fun _ _ => False) source site) :
    tree.MayDenote Progress.IsGlobal source site := by
  induction mayDenote with
  | site site => exact .site site
  | flow occurs flows _ inductionHypothesis =>
      exact .flow occurs (flows.of_noGlobal noGlobal (occurs.globals noGlobal)) inductionHypothesis

end Tree

/-- In a tree that declares no globals, whatever may be denoted by something in a position
through which objects escape is found to escape.  The order of assignments does not matter. -/
theorem Analysis.letsEscape_of_noGlobal (config : Config) {tree : Tree} (noGlobal : tree.NoGlobal)
    {site : Site} (mayEscape : tree.MayEscape (fun _ _ => False) site) :
    (ofTree config tree).LetsEscape config.unknownIsBottom site := by
  rcases mayEscape with ⟨source, ⟨place, occurs, exposes⟩, mayDenote⟩
  apply letsEscape_of_exposed config tree _ (mayDenote.of_noGlobal noGlobal)
  exact ⟨place, occurs, exposes.of_noGlobal noGlobal (occurs.globals noGlobal)⟩

/-- A variable takes over an object in one round of a loop that another one was given in the
round before. -/
def loopCarried : Tree where
  root := ⟨0⟩
  strings := .empty
  nodes := #[⟨.root [⟨1⟩, ⟨9⟩], none⟩, ⟨.whileStmt ⟨2⟩ ⟨3⟩, none⟩, ⟨.var ⟨2⟩, none⟩,
    ⟨.block [⟨4⟩, ⟨7⟩], none⟩, ⟨.assignment ⟨5⟩ ⟨6⟩, none⟩, ⟨.var ⟨0⟩, none⟩, ⟨.var ⟨1⟩, none⟩,
    ⟨.assignment ⟨6⟩ ⟨8⟩, none⟩, ⟨.objectInstantiation ⟨3⟩ [], none⟩, ⟨.returnStmt (some ⟨5⟩), none⟩]

theorem Analysis.letsEscape_of_noGlobal_loopCarried :
    loopCarried.NoGlobal ∧ loopCarried.MayEscape (fun _ _ => False) ⟨0, ⟨8⟩⟩ ∧
      (ofTree {} loopCarried).LetsEscape true ⟨0, ⟨8⟩⟩ := by
  have noGlobal : loopCarried.NoGlobal := by
    apply Tree.noGlobal_of_nodes
    simp [loopCarried]
  have copied : loopCarried.Occurs _ :=
    .visit ⟨_, rfl, .here⟩ (.visit ⟨_, rfl, .later .here⟩ (.visit ⟨_, rfl, .here⟩ (.refl _)))
  have given : loopCarried.Occurs _ :=
    .visit ⟨_, rfl, .here⟩ (.visit ⟨_, rfl, .later .here⟩ (.visit ⟨_, rfl, .later .here⟩ (.refl _)))
  have mayEscape : loopCarried.MayEscape (fun _ _ => False) ⟨0, ⟨8⟩⟩ := by
    refine ⟨.named ⟨0, ⟨0⟩⟩, ⟨_, .visit ⟨_, rfl, .later .here⟩ (.refl _), ?_⟩, ?_⟩
    · exact .operand rfl rfl ⟨_, rfl, .here⟩ (.named rfl id)
    · apply Tree.MayDenote.flow copied (.assigned rfl rfl id (.named rfl id))
      exact .flow given (.assigned rfl rfl id (.site ⟨_, rfl, .here⟩)) (.site _)
  exact ⟨noGlobal, mayEscape, letsEscape_of_noGlobal {} noGlobal mayEscape⟩

end EscapePlan
