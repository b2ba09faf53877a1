import EscapePlan.Placement.Report
import EscapePlan.Proofs.Placement.Overflow
import Mathlib

/-!
# Sessions

An analyzer and a placement are used for one program after the other.  Graph, records, notes and
figures of an earlier analysis are discarded where the next one starts, and plans, summaries and
decisions of an earlier placement where the next one is made.  So whatever runs there have been,
all that is left is what a new session has that was given the latest configuration and the latest
tree since then.

A session ends with a run after which nothing can be placed.
-/

namespace EscapePlan

/-! ## What runs ask for -/

namespace Run

/-- The configuration that was given last. -/
def latestConfig (runs : List Run) : Config :=
  (runs.filterMap (·.config)).getLast?.getD {}

/-- The runs from the one on that has renewed the analyzer last. -/
def sinceRenewal : List Run → List Run
  | [] => []
  | run :: runs => if runs.any (·.config.isSome) then sinceRenewal runs else run :: runs

/-- The tree that was analyzed last since the analyzer was renewed. -/
def latestTree? (runs : List Run) : Option Tree :=
  ((sinceRenewal runs).filterMap (·.tree)).getLast?

theorem filterMap_concat {α : Type} (part : Run → Option α) (runs : List Run) (last : Run) :
    ((runs ++ [last]).filterMap part).getLast? = (part last).or (runs.filterMap part).getLast? := by
  rw [List.filterMap_append, List.getLast?_append]
  cases given : part last with
  | none => simp [given]
  | some value => simp [given]

theorem latestConfig_concat (runs : List Run) (last : Run) :
    latestConfig (runs ++ [last]) = last.config.getD (latestConfig runs) := by
  rw [latestConfig, filterMap_concat]
  cases last.config with
  | none => rfl
  | some config => rfl

theorem sinceRenewal_concat (runs : List Run) (last : Run) :
    sinceRenewal (runs ++ [last]) =
      if last.config.isSome then [last] else sinceRenewal runs ++ [last] := by
  induction runs with
  | nil => cases last.config.isSome <;> rfl
  | cons run runs inductionHypothesis =>
      rw [List.cons_append, sinceRenewal, sinceRenewal, inductionHypothesis, List.any_append]
      cases renewed : last.config.isSome with
      | true => simp [renewed]
      | false =>
          by_cases later : runs.any (·.config.isSome) = true <;> simp [renewed, later]

theorem latestTree?_concat (runs : List Run) (last : Run) :
    latestTree? (runs ++ [last]) =
      if last.config.isSome then last.tree else last.tree.or (latestTree? runs) := by
  rw [latestTree?, sinceRenewal_concat]
  split
  next => cases given : last.tree <;> simp [given]
  next => exact filterMap_concat _ _ _

end Run

/-! ## Analyzers -/

namespace Analyzer

/-- Nothing of an earlier walk is left where a walk starts. -/
theorem start_eq (walk : Walk) : walk.dropResults.dropNotes.openBody = .initial := rfl

theorem config_new (config : Config) : (new config).config = config := rfl

/-- An analysis reads nothing of an analyzer but its configuration. -/
theorem analyze_eq (analyzer : Analyzer) (tree : Tree) :
    analyzer.analyze tree = (new analyzer.config).analyze tree := by
  rw [analyze, analyze, start_eq, start_eq, config_new]

theorem config_analyze (analyzer : Analyzer) (tree : Tree) :
    (analyzer.analyze tree).config = analyzer.config := by
  rw [analyze]

theorem analysis_analyze (analyzer : Analyzer) (tree : Tree) :
    (analyzer.analyze tree).analysis = .ofTree analyzer.config tree := by
  rw [analyze, start_eq, analysis, Analysis.ofTree, Walk.ofTree]

/-- A new analyzer that has analyzed a tree, if there is one. -/
def fresh (config : Config) (tree : Option Tree) : Analyzer :=
  tree.elim (new config) (new config).analyze

theorem config_fresh (config : Config) (tree : Option Tree) : (fresh config tree).config = config := by
  cases tree with
  | none => rfl
  | some tree =>
      rw [fresh, Option.elim_some, config_analyze, config_new]

theorem analysis_fresh (config : Config) (tree : Option Tree) :
    (fresh config tree).analysis = tree.elim .empty (.ofTree config) := by
  cases tree with
  | none => rfl
  | some tree =>
      rw [fresh, Option.elim_some, analysis_analyze, config_new, Option.elim_some]

end Analyzer

/-! ## Placements -/

namespace Placement

theorem foldl_summarize (records : List EscapeRecord) (placement : Placement) :
    records.foldl summarize placement = { placement with
      allocations := placement.allocations ++
        records.filterMap (AllocationSummary.of? placement.stack placement.scalar) } := by
  induction records generalizing placement with
  | nil => simp
  | cons record records inductionHypothesis =>
      rw [List.foldl_cons, inductionHypothesis, List.filterMap_cons, summarize]
      cases AllocationSummary.of? placement.stack placement.scalar record with
      | none => rfl
      | some summary => simp

/-- Nothing of an earlier placement is left in the one that takes its place. -/
theorem replace?_eq (placement : Placement) (config : Config) (analysis : Analysis) :
    placement.replace? config analysis = ofAnalysis? config analysis := by
  rw [replace?, ofAnalysis?]
  refine congrArg (Option.map · _) (funext fun stack => ?_)
  dsimp only
  rw [foldl_summarize, List.nil_append]
  rfl

end Placement

/-! ## Sessions -/

namespace Run

/-- What an analyzer is left with that was given the latest configuration and the latest tree. -/
def latestAnalysis (runs : List Run) : Analysis :=
  (latestTree? runs).elim .empty (.ofTree (latestConfig runs))

/-- Nothing can be placed after the last of some runs. -/
def Overflows (runs : List Run) : Prop :=
  StackLayout.Overflows (latestConfig runs) (latestAnalysis runs).records.values

end Run

namespace Session

open Run

variable {session : Session} {config : Config} {tree : Option Tree}

/-- A new session that was given a configuration and perhaps a tree. -/
def fresh? (config : Config) (tree : Option Tree) : Option Session :=
  (Placement.ofAnalysis? config (tree.elim .empty (.ofTree config))).map fun placement =>
    ⟨.fresh config tree, placement⟩

theorem toAnalyzer_of_fresh? (placed : fresh? config tree = some session) :
    session.toAnalyzer = .fresh config tree := by
  obtain ⟨placement, -, rfl⟩ := Option.map_eq_some_iff.1 placed
  rfl

theorem place?_eq (fresh : session.toAnalyzer = .fresh config tree) :
    session.place? = fresh? config tree := by
  rw [place?, fresh?, Placement.replace?_eq, fresh, Analyzer.config_fresh, Analyzer.analysis_fresh]

/-- A run has the analyzer analyze what it asks for, and nothing else matters. -/
theorem step?_eq (fresh : session.toAnalyzer = .fresh config tree) (run : Run) :
    session.step? run = fresh? (run.config.getD config)
      (if run.config.isSome then run.tree else run.tree.or tree) := by
  have analyzed (other : Tree) :
      session.toAnalyzer.analyze other = .fresh config (some other) := by
    rw [Analyzer.analyze_eq, fresh, Analyzer.config_fresh]
    rfl
  obtain ⟨given, other⟩ := run
  refine place?_eq ?_
  cases given with
  | some given =>
      cases other with
      | none => rfl
      | some other => rfl
  | none =>
      cases other with
      | none => exact fresh
      | some other => exact analyzed other

theorem step?_initial (config : Config) (tree : Option Tree) :
    initial.step? ⟨some config, tree⟩ = fresh? config tree :=
  @step?_eq initial {} none rfl ⟨some config, tree⟩

/-- After every run the analyzer is as a new one is. -/
theorem toAnalyzer_foldlM_step? {runs : List Run} (ran : runs.foldlM step? initial = some session) :
    session.toAnalyzer = .fresh (latestConfig runs) (latestTree? runs) := by
  induction runs using List.reverseRecOn generalizing session with
  | nil =>
      cases ran
      rfl
  | append_singleton runs last inductionHypothesis =>
      rw [List.foldlM_append] at ran
      obtain ⟨before, ranBefore, ran⟩ := Option.bind_eq_some_iff.1 ran
      rw [List.foldlM_cons, step?_eq (inductionHypothesis ranBefore)] at ran
      obtain ⟨after, stepped, ⟨⟩⟩ := Option.bind_eq_some_iff.1 ran
      rw [latestConfig_concat, latestTree?_concat, toAnalyzer_of_fresh? stepped]

/-- Nothing of the runs before the last one matters but that they have come to an end. -/
theorem foldlM_step?_concat (runs : List Run) (last : Run) :
    (runs ++ [last]).foldlM step? initial = (runs.foldlM step? initial).bind fun _ =>
      fresh? (latestConfig (runs ++ [last])) (latestTree? (runs ++ [last])) := by
  rw [List.foldlM_append]
  cases ran : runs.foldlM step? initial with
  | none => rfl
  | some before =>
      rw [latestConfig_concat, latestTree?_concat, ← step?_eq (toAnalyzer_foldlM_step? ran)]
      simp

theorem fresh?_eq_none_iff (runs : List Run) :
    fresh? (latestConfig runs) (latestTree? runs) = none ↔ Overflows runs := by
  rw [fresh?, Option.map_eq_none_iff, Placement.ofAnalysis?_eq_none_iff, Overflows, latestAnalysis]

/-- A session ends exactly if nothing can be placed after some run. -/
theorem foldlM_step?_eq_none_iff (runs : List Run) :
    runs.foldlM step? initial = none ↔ ∃ earlier, earlier <+: runs ∧ Overflows earlier := by
  induction runs using List.reverseRecOn with
  | nil =>
      refine iff_of_false (Option.some_ne_none _) ?_
      rintro ⟨earlier, begins, overflows⟩
      cases List.prefix_nil.1 begins
      exact absurd overflows.1 (by decide)
  | append_singleton runs last inductionHypothesis =>
      simp only [foldlM_step?_concat, Option.bind_eq_none_iff, fresh?_eq_none_iff,
        List.prefix_concat_iff, or_and_right, exists_or, exists_eq_left, ← inductionHypothesis]
      cases runs.foldlM step? initial with
      | none => simp
      | some before => simp

/-- A session is as a new one is that was given a configuration and perhaps a tree. -/
structure AsNew (config : Config) (tree : Option Tree) (session : Session) : Prop where
  eq_step : initial.step? ⟨some config, tree⟩ = some session
  analysis_eq : session.analysis = tree.elim .empty (.ofTree config)
  placement_eq :
    Placement.ofAnalysis? config (tree.elim .empty (.ofTree config)) = some session.placement
  report_eq : ∀ micros, (initial.step? ⟨some config, tree⟩).map (·.placement.report micros) =
    some (session.placement.report micros)

theorem asNew_of_fresh? (placed : fresh? config tree = some session) : AsNew config tree session where
  eq_step := (step?_initial config tree).trans placed
  analysis_eq := by
    rw [toAnalyzer_of_fresh? placed]
    exact Analyzer.analysis_fresh config tree
  placement_eq := by
    obtain ⟨placement, found, rfl⟩ := Option.map_eq_some_iff.1 placed
    exact found
  report_eq := fun micros => by rw [step?_initial, placed, Option.map_some]

/-- After every run a session is as a new one is that was given the latest configuration, and the
tree that was analyzed last since then; and it only ends with a run after which nothing can be
placed. -/
theorem asNew_foldl_step (runs : List Run) (last : Run) :
    ((runs ++ [last]).foldlM step? initial = (runs.foldlM step? initial).bind fun _ =>
      initial.step? ⟨some (latestConfig (runs ++ [last])), latestTree? (runs ++ [last])⟩) ∧
    ((runs ++ [last]).foldlM step? initial = none ↔
      ∃ earlier, earlier <+: runs ++ [last] ∧ Overflows earlier) ∧
    ∀ session, (runs ++ [last]).foldlM step? initial = some session →
      AsNew (latestConfig (runs ++ [last])) (latestTree? (runs ++ [last])) session := by
  refine ⟨?_, foldlM_step?_eq_none_iff _, fun session ran => ?_⟩
  · rw [foldlM_step?_concat, step?_initial]
  · rw [foldlM_step?_concat] at ran
    obtain ⟨before, -, placed⟩ := Option.bind_eq_some_iff.1 ran
    exact asNew_of_fresh? placed

/-- An object is made. -/
def oneObject : Tree where
  root := ⟨1⟩
  strings := .ofList ["Point"]
  nodes := #[⟨.objectInstantiation ⟨0⟩ [], none⟩, ⟨.root [⟨0⟩], none⟩]

/-- A tree is analyzed again by a new analyzer after another one has found no room for its
object. -/
def renewed : List Run :=
  [⟨some { maxFrameSize := 32 }, some oneObject⟩, ⟨some {}, some oneObject⟩]

/-- A run that only places what was analyzed before. -/
def again : Run :=
  ⟨none, none⟩

theorem asNew_foldl_step_renewed :
    ∃ session, (renewed ++ [again]).foldlM step? initial = some session ∧
      AsNew {} (some oneObject) session := by
  have known : ((renewed ++ [again]).foldlM step? initial).isSome = true := by cbv
  obtain ⟨session, ran⟩ := Option.isSome_iff_exists.1 known
  have asNew := (asNew_foldl_step renewed again).2.2 session ran
  have config : latestConfig (renewed ++ [again]) = {} := rfl
  have tree : latestTree? (renewed ++ [again]) = some oneObject := rfl
  rw [config, tree] at asNew
  exact ⟨session, ran, asNew⟩

end Session

end EscapePlan
