import Mathlib
import EscapePlan.Proofs.Analysis.Numbering
import EscapePlan.Proofs.Isolation.Enclosure
import EscapePlan.Proofs.Isolation.States

/-!
# Functions are analysed in isolation

What the analysis finds out about the allocations of a function that is declared at the top of a
tree depends on the declaration only: whatever stands before and after it, the records are the same
but for the numbers of their nodes.
-/

namespace EscapePlan

/-! ## Statements at the top -/

namespace Tree

/-- The statements at the top of a tree. -/
def statements (tree : Tree) : List NodeIndex :=
  match tree.data? tree.root with
  | some (.root statements) | some (.block statements) => statements
  | _ => []

/-- How far the evaluation of a tree has come before the statement at some place. -/
def progressBefore (tree : Tree) (place : Nat) : Progress :=
  (tree.statements.take place).foldl
    (fun progress statement => tree.evaluate (depthLimit - 1) statement progress) ⟨0, 0, []⟩

/-- How many allocations are evaluated before the statement at some place. -/
def sitesBefore (tree : Tree) (place : Nat) : Nat :=
  (tree.progressBefore place).sites

/-- Of a list with an item for each allocation, those for the allocations of the statement at some
place. -/
def slice {α : Type} (tree : Tree) (place : Nat) (items : List α) : List α :=
  (items.take (tree.sitesBefore (place + 1))).drop (tree.sitesBefore place)

variable {tree : Tree} {place : Nat} {statement : NodeIndex}

theorem progressBefore_succ (stands : tree.statements[place]? = some statement) :
    tree.progressBefore (place + 1) =
      tree.evaluate (depthLimit - 1) statement (tree.progressBefore place) := by
  rw [progressBefore, List.take_add_one, stands, List.foldl_append]
  rfl

theorem map_slice {α β : Type} (change : α → β) (items : List α) :
    (tree.slice place items).map change = tree.slice place (items.map change) := by
  rw [slice, slice, List.map_drop, List.map_take]

theorem mem_of_mem_slice {α : Type} {items : List α} {item : α}
    (member : item ∈ tree.slice place items) : item ∈ items :=
  List.mem_of_mem_take (List.mem_of_mem_drop member)

/-- Where the statement at some place is evaluated. -/
def atTop (tree : Tree) (place : Nat) (statement : NodeIndex) : Place :=
  tree.start.child (tree.progressBefore place) statement

theorem progressAfter_atTop (stands : tree.statements[place]? = some statement) :
    tree.progressAfter (tree.atTop place statement) = tree.progressBefore (place + 1) :=
  (progressBefore_succ stands).symm

theorem exists_plan (stands : tree.statements[place]? = some statement) :
    ∃ data, tree.data? tree.root = some data ∧ data.plan tree = tree.statements.map .visit := by
  rw [statements] at stands ⊢
  cases found : tree.data? tree.root with
  | none =>
      rw [found] at stands
      nomatch stands
  | some data =>
      rw [found] at stands
      cases data with
      | root statements | block statements => exact ⟨_, rfl, rfl⟩
      | _ => nomatch stands

/-- The evaluation of a tree visits the statements at the top. -/
theorem performsAt_statement (stands : tree.statements[place]? = some statement) :
    tree.PerformsAt tree.start place (.visit statement) (tree.progressBefore place) := by
  obtain ⟨data, found, planEq⟩ := exists_plan stands
  refine ⟨data, dataAt?_eq_some_iff.2 ⟨(by decide : depthLimit ≠ 0), found⟩, ?_, ?_⟩
  · rw [planEq, List.getElem?_map, stands]
    rfl
  · rw [planEq, ← List.map_take, List.foldl_map]
    rfl

end Tree

namespace Walk

open Walker (enterBody leaveBody walkBody)

variable {config : Config} {outset : Outset} {frame : Frame} {stage : Stage}

/-- A walk goes on over some statements at the top of a tree. -/
def goOver (config : Config) (tree : Tree) (statements : List NodeIndex) (walk : Walk) : Walk :=
  statements.foldl (fun walk statement =>
    (Walker.visit config tree (depthLimit - 1) statement walk).2) walk

theorem run_statements (visit : Walker.Visit) (statements : List NodeIndex) (walk : Walk) :
    ((do
      for statement in statements do
        let _ ← visit statement
      return none : Walker (Option NodeId)) walk).2 =
      statements.foldl (fun walk statement => (visit statement walk).2) walk := by
  induction statements generalizing walk with
  | nil => rfl
  | cons statement rest inductionHypothesis =>
      rw [List.foldl_cons, ← inductionHypothesis, List.forIn_cons]
      rfl

/-- A walk over a tree goes over its statements. -/
theorem ofTree_eq_goOver {tree : Tree} {place : Nat} {statement : NodeIndex}
    (stands : tree.statements[place]? = some statement) :
    ofTree config tree depthLimit = goOver config tree tree.statements initial := by
  have reduces {statements : List NodeIndex}
      (visited : Walker.visit config tree depthLimit tree.root = (do
        for statement in statements do
          let _ ← Walker.visit config tree (depthLimit - 1) statement
        return none)) :
      ofTree config tree depthLimit = goOver config tree statements initial := by
    rw [ofTree_eq, visited]
    exact run_statements _ statements initial
  rw [Tree.statements] at stands ⊢
  cases found : tree.get? tree.root with
  | none =>
      rw [Tree.data?, found] at stands
      simp at stands
  | some node =>
      obtain ⟨data, position⟩ := node
      rw [Tree.data?, found] at stands ⊢
      cases data with
      | root statements =>
          apply reduces
          rw [show depthLimit = 511 + 1 from rfl, Walker.visit, found]
          rfl
      | block statements =>
          apply reduces
          rw [show depthLimit = 511 + 1 from rfl, Walker.visit, found]
          rfl
      | _ => simp at stands

theorem goOver_append (tree : Tree) (statements others : List NodeIndex) (walk : Walk) :
    goOver config tree (statements ++ others) walk =
      goOver config tree others (goOver config tree statements walk) :=
  List.foldl_append

/-- A walk goes in step with itself over statements. -/
theorem InStep.exists_goOver {walk : Walk} (inStep : InStep config outset frame stage walk walk)
    (tree : Tree) (statements : List NodeIndex) :
    ∃ later, InStep config outset frame later (goOver config tree statements walk)
      (goOver config tree statements walk) := by
  induction statements generalizing stage walk with
  | nil => exact ⟨stage, inStep⟩
  | cons statement rest inductionHypothesis =>
      have visits := Walker.visitsAlike_visit tree.alike_refl config outset (depthLimit - 1)
      obtain ⟨later, -, inStepLater, -⟩ := visits frame stage statement statement rfl _ _ inStep
      exact inductionHypothesis inStepLater

/-- A law that allows everything. -/
def anything : Law :=
  ⟨fun _ _ => True, fun _ => True, fun _ _ => True⟩

theorem at_goOver (config : Config) (tree : Tree) (statements : List NodeIndex)
    {progress : Progress} {walk : Walk} (at_ : At anything 0 [] progress walk) :
    At anything 0 [] (statements.foldl (fun progress statement =>
      tree.evaluate (depthLimit - 1) statement progress) progress)
      (goOver config tree statements walk) := by
  induction statements generalizing progress walk with
  | nil => exact at_
  | cons statement rest inductionHypothesis =>
      have governs : anything.Governs tree ⟨depthLimit - 1, 0, progress, statement⟩ :=
        fun _ _ => ⟨fun _ _ _ => trivial, fun _ _ => trivial, fun _ _ _ _ _ => trivial⟩
      obtain ⟨-, atLater, -⟩ := Walker.visits_visit config tree (depthLimit - 1) 0 [] progress
        statement governs walk at_ trivial
      exact inductionHypothesis atLater

theorem InStep.ready {walk : Walk} (inStep : InStep config outset frame stage walk walk)
    (sound : walk.Sound) : walk.Ready where
  edges_known := inStep.known_one
  no_phis := inStep.phis_one
  records_known id beyond := by
    cases found : walk.records.find? id with
    | none => rfl
    | some record =>
        have kind := sound.kind?_of_known (Table.mem_keys_iff.2 ⟨record, found⟩)
        exact absurd (Walker.kind?_lt kind) (Nat.not_lt_of_le beyond)

/-- The walk at the end of a function body. -/
def overBody (config : Config) (tree : Tree) (params : List StrId) (body : NodeIndex)
    (position : Option Position) (walk : Walk) : Walk :=
  (walkBody (Walker.visit config tree (depthLimit - 2)) params [] body position
    (enterBody walk)).2

theorem goOver_function {tree : Tree} {function : NodeIndex} {name : StrId} {params : List StrId}
    {body : NodeIndex} {position : Option Position}
    (found : tree.get? function = some ⟨.functionDecl name params body, position⟩) (walk : Walk) :
    goOver config tree [function] walk =
      leaveBody walk (overBody config tree params body position walk) := by
  show (Walker.visit config tree (510 + 1) function walk).2 = _
  rw [Walker.visit, found]
  rfl

/-- A walk over a tree comes to a statement, goes over it as a body, and on. -/
structure Passes (config : Config) (tree : Tree) (place : Nat) (start inner : Walk) : Prop where
  before : ∃ early, InStep config (.diagonal initial fun _ => False) ⟨0, 0, [], []⟩ early
    start start
  passed : ∃ early, InStep config (.diagonal initial fun _ => False) ⟨0, 0, [], []⟩ early
    (leaveBody start inner) (leaveBody start inner)
  at_start : At anything 0 [] (tree.progressBefore place) start
  at_passed : At anything 0 [] (tree.progressBefore (place + 1)) (leaveBody start inner)
  goes_on : ofTree config tree depthLimit =
    goOver config tree (tree.statements.drop (place + 1)) (leaveBody start inner)

/-- A walk passes every function that is declared at the top. -/
theorem passes (config : Config) {tree : Tree} {place : Nat} {function : NodeIndex}
    (stands : tree.statements[place]? = some function) {name : StrId} {params : List StrId}
    {body : NodeIndex} {position : Option Position}
    (found : tree.get? function = some ⟨.functionDecl name params body, position⟩) :
    ∃ start, Passes config tree place start (overBody config tree params body position start) := by
  let start := goOver config tree (tree.statements.take place) initial
  have passed : goOver config tree (tree.statements.take (place + 1)) initial =
      leaveBody start (overBody config tree params body position start) := by
    rw [List.take_add_one, stands, goOver_append]
    exact goOver_function found start
  refine ⟨start, inStep_initial.exists_goOver tree _, ?_, ?_, ?_, ?_⟩
  · rw [← passed]
    exact inStep_initial.exists_goOver tree _
  · exact at_goOver config tree _ (initial_at anything)
  · rw [← passed]
    exact at_goOver config tree _ (initial_at anything)
  · rw [← passed, ← goOver_append, List.take_append_drop]
    exact ofTree_eq_goOver stands

namespace Passes

variable {tree : Tree} {place : Nat} {start inner : Walk}
  (passes : Passes config tree place start inner)
include passes

theorem ready_enterBody : (enterBody start).Ready := by
  obtain ⟨early, inStep⟩ := passes.before
  have ready := inStep.ready passes.at_start.sound
  exact ⟨ready.edges_known, ready.no_phis, ready.records_known⟩

/-- Once a walk has passed a body, it goes on without the values of the body. -/
theorem inStep_passed
    (saved : inner.graph.scopes.saved = start.graph.scopes.current :: start.graph.scopes.saved)
    (grows : start.graph.values.size ≤ inner.graph.values.size) :
    ∃ frame, InStep config (.diagonal (leaveBody start inner) (· < start.graph.values.size)) frame
      .initial (leaveBody start inner) (leaveBody start inner) := by
  obtain ⟨_, before⟩ := passes.before
  obtain ⟨_, passed⟩ := passes.passed
  have ready := passed.ready passes.at_passed.sound
  refine ⟨_, Outset.inStep (.diagonal (leaveBody start inner) (· < start.graph.values.size)) ready
    ready ?_ ?_⟩
  · rintro source target _ _ ⟨rfl, -⟩ ⟨rfl, -⟩ kind
    rfl
  · intro name
    show PairedResults _ _ ((leaveBody start inner).graph.scopes.find? name)
      ((leaveBody start inner).graph.scopes.find? name)
    rw [Walker.scopes_leaveBody saved]
    have bound := before.bindings name
    cases found : start.graph.scopes.find? name with
    | none => exact .none
    | some id =>
        rw [found] at bound
        cases bound with
        | some paired =>
            have below := (before.lt paired).1
            have known : id < (leaveBody start inner).graph.values.size :=
              Nat.lt_of_lt_of_le below grows
            rcases ValueGraph.exists_node?_of_lt known with ⟨node, foundNode⟩
            exact .some ⟨node.bare, .shared ⟨rfl, known, below⟩ foundNode foundNode rfl rfl⟩

/-- The body is enclosed by the rest of the walk. -/
theorem encloses {stage : Stage}
    (saved : inner.graph.scopes.saved = start.graph.scopes.current :: start.graph.scopes.saved)
    (size : inner.graph.values.size = start.graph.values.size + stage.nodes.length)
    (scopeCount : inner.scopeCount = start.scopeCount + 1 + stage.scopes) (twin : Walk) :
    Encloses (.apart (enterBody start) twin) stage start inner (ofTree config tree depthLimit) := by
  have grows : start.graph.values.size ≤ inner.graph.values.size := size ▸ Nat.le_add_right _ _
  obtain ⟨early, before⟩ := passes.before
  obtain ⟨_, passed⟩ := passes.inStep_passed saved grows
  obtain ⟨late, after⟩ := passed.exists_goOver tree (tree.statements.drop (place + 1))
  rw [← passes.goes_on] at after
  refine before.encloses after (before.avoids_before twin stage)
    (avoids_after size scopeCount ?_ twin late)
  rw [passes.at_start.scope_eq]
  exact Nat.zero_le _

end Passes

/-- The allocations that a walk makes in the statement at some place, each with its scope. -/
def sitesIn (config : Config) (tree : Tree) (place : Nat) : List (NodeId × Nat) :=
  tree.slice place (ofTree config tree depthLimit).sites.toList

theorem Passes.sitesIn_eq {tree : Tree} {place : Nat} {start inner : Walk}
    (passes : Passes config tree place start inner) {more last : List (NodeId × Nat)}
    (made : inner.sites.toList = start.sites.toList ++ more)
    (final : (ofTree config tree depthLimit).sites.toList = inner.sites.toList ++ last) :
    sitesIn config tree place = more := by
  have before : start.sites.toList.length = tree.sitesBefore place := passes.at_start.sites_eq
  have after : inner.sites.toList.length = tree.sitesBefore (place + 1) :=
    passes.at_passed.sites_eq
  rw [sitesIn, Tree.slice, final, ← after, List.take_left, made, ← before, List.drop_left]

/-- Functions that are alike and declared at the top of two trees are isolated, and they make
allocations that correspond. -/
theorem exists_isolated (config : Config) {one two : Tree} {same : NodeIndex → NodeIndex → Prop}
    (alike : Tree.Alike same one two) {place other : Nat} {function twin : NodeIndex}
    (stands : one.statements[place]? = some function)
    (standsTwin : two.statements[other]? = some twin) (paired : same function twin) {name : StrId}
    {params : List StrId} {body : NodeIndex}
    (declares : one.data? function = some (.functionDecl name params body)) :
    ∃ outset stage,
      Isolated config outset stage (ofTree config one depthLimit) (ofTree config two depthLimit) ∧
        List.Forall₂ (PairedSites outset stage) (sitesIn config one place)
          (sitesIn config two other) := by
  obtain ⟨⟨_, position⟩, found, rfl⟩ := Option.map_eq_some_iff.1 declares
  obtain ⟨bodyTwin, foundTwin, bodies⟩ := alike.exists_functionDecl paired found
  obtain ⟨start, passesOne⟩ := passes config stands found
  obtain ⟨startTwin, passesTwo⟩ := passes config standsTwin foundTwin
  have began := @Outset.inStep config (.apart (enterBody start) (enterBody startTwin))
    passesOne.ready_enterBody passesTwo.ready_enterBody (fun shared => shared.elim) fun _ => .none
  have visits := Walker.visitsAlike_visit alike config
    (.apart (enterBody start) (enterBody startTwin)) (depthLimit - 2)
  obtain ⟨stage, -, inStep, -⟩ :=
    Walker.lockstep_walkBody visits params .nil bodies position _ _ began
  have enclosesOne := passesOne.encloses inStep.saved_one inStep.size_one inStep.scopeCount_one
    (enterBody startTwin)
  have enclosesTwo := passesTwo.encloses inStep.saved_two inStep.size_two inStep.scopeCount_two
    (enterBody start)
  obtain ⟨more, others, made, madeTwin, sites⟩ := inStep.noted.sites.exists_added
  obtain ⟨last, final, -⟩ := enclosesOne.sites.after
  obtain ⟨rest, finalTwin, -⟩ := enclosesTwo.sites.after
  refine ⟨_, stage, inStep.isolated enclosesOne enclosesTwo
    (ofTree_accounts config one depthLimit).sound (ofTree_accounts config two depthLimit).sound
    (ofTree_orderly config one depthLimit) (ofTree_orderly config two depthLimit), ?_⟩
  rw [passesOne.sitesIn_eq made final, passesTwo.sitesIn_eq madeTwin finalTwin]
  exact sites

end Walk

/-- Values of two tables are alike if they are filed under keys that correspond. -/
theorem Table.map_values_eq {α β : Type} {table twin : Table α} {figure : α → β}
    {corresponds : Nat → Nat → Prop} {entries others : List (Nat × α)}
    (listed : ∀ entry ∈ entries, entry ∈ table.entries)
    (listedTwin : ∀ entry ∈ others, entry ∈ twin.entries)
    (keys : List.Forall₂ corresponds (entries.map (·.1)) (others.map (·.1)))
    (each : ∀ key other, corresponds key other →
      Option.Rel (fun value another => figure value = figure another) (table.find? key)
        (twin.find? other)) :
    entries.map (fun entry => figure entry.2) = others.map fun entry => figure entry.2 := by
  rw [List.forall₂_map_left_iff, List.forall₂_map_right_iff] at keys
  induction keys with
  | nil => rfl
  | cons corresponding _ inductionHypothesis =>
      obtain ⟨first, rest⟩ := List.forall_mem_cons.1 listed
      obtain ⟨firstTwin, restTwin⟩ := List.forall_mem_cons.1 listedTwin
      have same := each _ _ corresponding
      rw [find?_eq_some_iff.2 first, find?_eq_some_iff.2 firstTwin, Option.rel_some_some] at same
      rw [List.map_cons, List.map_cons, same, inductionHypothesis rest restTwin]

/-! ## Records -/

namespace Analysis

/-- The records of the allocations that are evaluated in the statement at some place, in the order
of evaluation. -/
def recordsIn (config : Config) (tree : Tree) (place : Nat) : List EscapeRecord :=
  tree.slice place (ofTree config tree).records.values

section

variable {config : Config} {tree : Tree}

/-- There is a record of every allocation that is evaluated. -/
theorem exists_recordOf? (config : Config) {lower : Place} {made : Progress}
    (occurs : tree.Occurs lower) (performs : tree.Performs lower .allocate made) :
    ∃ record, (ofTree config tree).recordOf? ⟨made.sites, lower.index⟩ = some record := by
  have accounts := Walk.ofTree_accounts config tree depthLimit
  obtain ⟨id, -, represents⟩ := (accounts.covers lower occurs).sites made performs
  obtain ⟨_, record, -, foundRecord, rfl, -⟩ :=
    exists_judged accounts.sound config (accounts.sound.known_of_represents represents)
  exact ⟨record, (recordOf?_iff accounts.sound).2 ⟨represents, foundRecord⟩⟩

/-- The records of a statement are those of the allocations in it. -/
theorem mem_recordsIn_iff {place : Nat} {statement : NodeIndex}
    (stands : tree.statements[place]? = some statement) {record : EscapeRecord} :
    record ∈ recordsIn config tree place ↔
      ∃ lower made, tree.Below (tree.atTop place statement) lower ∧
        tree.Performs lower .allocate made ∧
          (ofTree config tree).recordOf? ⟨made.sites, lower.index⟩ = some record := by
  rw [recordsIn, Tree.slice, List.mem_iff_getElem?]
  simp only [List.getElem?_drop, List.getElem?_take, Option.ite_none_right_eq_some]
  constructor
  · rintro ⟨offset, within, found⟩
    obtain ⟨lower, made, below, performs, number⟩ :=
      @Tree.exists_allocates tree (tree.atTop place statement) (tree.sitesBefore place + offset)
        (Nat.le_add_right _ _) (by rwa [Tree.progressAfter_atTop stands])
    have occurs : tree.Occurs lower :=
      .visit (Tree.performsAt_statement stands).performs below
    obtain ⟨other, foundOther⟩ := exists_recordOf? config occurs performs
    have listed := (Option.filter_eq_some_iff.1 foundOther).1
    rw [number, found] at listed
    cases listed
    exact ⟨lower, made, below, performs, foundOther⟩
  · rintro ⟨lower, made, below, performs, found⟩
    obtain ⟨_, leads⟩ := Tree.below_iff_leads.1 below
    obtain ⟨position, performsAt⟩ := Tree.performs_iff.1 performs
    have begun : tree.sitesBefore place ≤ made.sites :=
      Nat.le_trans (leads.read_le .sites).1 (performsAt.read_start_le .sites)
    have done : made.sites < tree.sitesBefore (place + 1) := by
      have after := Nat.le_trans (performsAt.read_le_after .sites) (leads.read_le .sites).2
      rw [Tree.progressAfter_atTop stands] at after
      exact after
    have listed := (Option.filter_eq_some_iff.1 found).1
    refine ⟨made.sites - tree.sitesBefore place, ?_, ?_⟩
    · rwa [Nat.add_sub_cancel' begun]
    · rwa [Nat.add_sub_cancel' begun]

end

/-- The records are kept in the order of evaluation. -/
theorem keys_ofTree (config : Config) (tree : Tree) :
    (ofTree config tree).records.keys =
      (Walk.ofTree config tree depthLimit).sites.toList.map (·.1) := by
  have sound := (Walk.ofTree_accounts config tree depthLimit).sound
  rw [ofTree, keys_ofWalk, sound.settles.keys_eq]
  exact sound.keys_eq

/-- **Functions are analysed in isolation.**  The records of the allocations in a function that is
declared at the top of two trees are the same, but for the numbers of their nodes. -/
theorem recordsIn_eq_of_alike (config : Config) {one two : Tree}
    {same : NodeIndex → NodeIndex → Prop} (alike : Tree.Alike same one two) {place other : Nat}
    {function twin : NodeIndex} (stands : one.statements[place]? = some function)
    (standsTwin : two.statements[other]? = some twin) (paired : same function twin) {name : StrId}
    {params : List StrId} {body : NodeIndex}
    (declares : one.data? function = some (.functionDecl name params body)) :
    (recordsIn config one place).map (·.unnumbered) =
      (recordsIn config two other).map (·.unnumbered) := by
  obtain ⟨outset, stage, isolated, sites⟩ :=
    Walk.exists_isolated config alike stands standsTwin paired declares
  have recordsEq (tree : Tree) (place : Nat) : (recordsIn config tree place).map (·.unnumbered) =
      (tree.slice place (ofTree config tree).records.entries).map (·.2.unnumbered) := by
    rw [recordsIn, Table.values, ← Tree.map_slice, List.map_map]
    rfl
  have keysEq (tree : Tree) (place : Nat) :
      (tree.slice place (ofTree config tree).records.entries).map (·.1) =
        (Walk.sitesIn config tree place).map (·.1) := by
    rw [Tree.map_slice, Walk.sitesIn, Tree.map_slice, ← keys_ofTree]
    rfl
  rw [recordsEq, recordsEq]
  refine @Table.map_values_eq _ _ (ofTree config one).records (ofTree config two).records _
    (Walk.Paired outset stage) _ _ (fun _ => Tree.mem_of_mem_slice)
    (fun _ => Tree.mem_of_mem_slice) ?_ fun _ _ values => isolated.find?_ofWalk values
  rw [keysEq, keysEq, List.forall₂_map_left_iff, List.forall₂_map_right_iff]
  exact sites.imp fun _ _ site => site.node

/-- A function makes an object, keeps its argument in it and returns a closure that captures it. -/
def loneBuilder : Tree where
  root := ⟨0⟩
  strings := .ofList ["point", "Point", "build", "given", "x"]
  nodes := #[⟨.root [⟨1⟩], none⟩,
    ⟨.functionDecl ⟨2⟩ [⟨3⟩] ⟨2⟩, none⟩, ⟨.block [⟨3⟩, ⟨6⟩, ⟨9⟩], none⟩,
    ⟨.assignment ⟨4⟩ ⟨5⟩, none⟩, ⟨.var ⟨0⟩, none⟩, ⟨.objectInstantiation ⟨1⟩ [⟨99⟩], none⟩,
    ⟨.assignment ⟨7⟩ ⟨8⟩, none⟩, ⟨.propertyAccess ⟨4⟩ ⟨4⟩, none⟩, ⟨.var ⟨3⟩, none⟩,
    ⟨.returnStmt (some ⟨10⟩), none⟩, ⟨.closure [] [⟨0⟩] ⟨11⟩, none⟩, ⟨.arrayInit [], none⟩]

/-- The same function, with an outer variable of the same name as its own, a loop before it and
another function after it. -/
def crowdedBuilder : Tree where
  root := ⟨0⟩
  strings := .ofList ["point", "Point", "build", "given", "x"]
  nodes := #[⟨.root [⟨1⟩, ⟨4⟩, ⟨7⟩, ⟨18⟩], none⟩,
    ⟨.assignment ⟨2⟩ ⟨3⟩, none⟩, ⟨.var ⟨0⟩, none⟩, ⟨.objectInstantiation ⟨1⟩ [], none⟩,
    ⟨.whileStmt ⟨2⟩ ⟨5⟩, none⟩, ⟨.block [⟨1⟩, ⟨6⟩], none⟩, ⟨.returnStmt (some ⟨2⟩), none⟩,
    ⟨.functionDecl ⟨2⟩ [⟨3⟩] ⟨8⟩, none⟩, ⟨.block [⟨9⟩, ⟨12⟩, ⟨15⟩], none⟩,
    ⟨.assignment ⟨10⟩ ⟨11⟩, none⟩, ⟨.var ⟨0⟩, none⟩, ⟨.objectInstantiation ⟨1⟩ [⟨105⟩], none⟩,
    ⟨.assignment ⟨13⟩ ⟨14⟩, none⟩, ⟨.propertyAccess ⟨10⟩ ⟨4⟩, none⟩, ⟨.var ⟨3⟩, none⟩,
    ⟨.returnStmt (some ⟨16⟩), none⟩, ⟨.closure [] [⟨0⟩] ⟨17⟩, none⟩, ⟨.arrayInit [], none⟩,
    ⟨.functionDecl ⟨3⟩ [⟨0⟩] ⟨6⟩, none⟩]

/-- Nodes of the function have the same data six places on. -/
def Shifted (first second : NodeIndex) : Prop :=
  first ∈ [⟨1⟩, ⟨2⟩, ⟨3⟩, ⟨4⟩, ⟨5⟩, ⟨6⟩, ⟨7⟩, ⟨8⟩, ⟨9⟩, ⟨10⟩, ⟨11⟩, (⟨99⟩ : NodeIndex)] ∧
    second = ⟨first.val + 6⟩

instance (first second : NodeIndex) : Decidable (Shifted first second) :=
  inferInstanceAs (Decidable (_ ∧ _))

theorem alike_builders : Tree.Alike Shifted loneBuilder crowdedBuilder where
  strings_eq := rfl
  nodes := by
    rintro first _ ⟨listed, rfl⟩
    simp only [List.mem_cons, List.not_mem_nil, or_false] at listed
    rcases listed with rfl | rfl | rfl | rfl | rfl | rfl | rfl | rfl | rfl | rfl | rfl | rfl
    · exact .some ⟨.functionDecl _ _ (by decide), rfl⟩
    · exact .some ⟨.block (by decide), rfl⟩
    · exact .some ⟨.assignment (by decide) (by decide), rfl⟩
    · exact .some ⟨.var _, rfl⟩
    · exact .some ⟨.objectInstantiation _ (by decide), rfl⟩
    · exact .some ⟨.assignment (by decide) (by decide), rfl⟩
    · exact .some ⟨.propertyAccess _ (by decide), rfl⟩
    · exact .some ⟨.var _, rfl⟩
    · exact .some ⟨.returnStmt (.some (by decide)), rfl⟩
    · exact .some ⟨.closure _ _ (by decide), rfl⟩
    · exact .some ⟨.arrayInit .nil, rfl⟩
    · exact .none

/-- The function makes three allocations, and what is found out about them is the same in both
trees. -/
theorem recordsIn_eq_of_alike_builders :
    ((recordsIn {} loneBuilder 0).map fun record => (record.className, record.state)) =
        [(some "Point", .globalEscape), (none, .globalEscape), (none, .noEscape)] ∧
      (recordsIn {} loneBuilder 0).map (·.unnumbered) =
        (recordsIn {} crowdedBuilder 2).map (·.unnumbered) := by
  have found : ((recordsIn {} loneBuilder 0).map fun record => (record.className, record.state)) =
      [(some "Point", .globalEscape), (none, .globalEscape), (none, .noEscape)] := by cbv
  exact ⟨found, recordsIn_eq_of_alike {} alike_builders rfl rfl (by decide) rfl⟩

end Analysis

end EscapePlan
