import Mathlib
import EscapePlan.Proofs.Analysis.Replacement
import EscapePlan.Proofs.Analysis.Soundness
import EscapePlan.Proofs.Placement.Overflow

/-!
# What is replaced by local variables

In a tree that declares no globals, an allocation site is replaced by local variables exactly if
its objects do not escape, some field of them may be accessed by name, and whatever may access them
accesses a named field and may denote objects of no other site.  The fields that may be accessed
all have local variables.
-/

namespace EscapePlan

namespace Tree

variable {tree : Tree} {place : Place}

/-! ## What an expression yields -/

/-- A node allocates once at most. -/
theorem Performs.allocate_unique {first second : Progress}
    (one : tree.Performs place .allocate first) (two : tree.Performs place .allocate second) :
    first = second := by
  rcases one with ⟨data, dataEq, one⟩
  rcases two with ⟨_, otherEq, two⟩
  cases dataEq.symm.trans otherEq
  cases data with
  | objectInstantiation className operands => exact one.of_visits.trans two.of_visits.symm
  | arrayInit operands => exact one.of_visits.trans two.of_visits.symm
  | closure params captures body =>
      exact (one.of_closure.2 rfl).trans (two.of_closure.2 rfl).symm
  | assignment target value => exact absurd one.mem NodeData.allocate_notMem_assignment
  | var name => nomatch one
  | _ => exact absurd one.mem (NodeData.allocate_notMem_plan rfl tree)

/-- The value of an expression comes from one source at most. -/
theorem Yields.unique {isGlobal : StrId → Progress → Prop} {first second : Source}
    (one : tree.Yields isGlobal place first) (two : tree.Yields isGlobal place second) :
    first = second := by
  cases one with
  | site performs =>
      cases two with
      | site other => rw [performs.allocate_unique other]
      | named dataEq =>
          rcases performs with ⟨_, foundEq, takes⟩
          cases dataEq.symm.trans foundEq
          nomatch takes
      | assigned dataEq =>
          rcases performs with ⟨_, foundEq, takes⟩
          cases dataEq.symm.trans foundEq
          exact absurd takes.mem NodeData.allocate_notMem_assignment
  | named dataEq =>
      cases two with
      | site performs =>
          rcases performs with ⟨_, foundEq, takes⟩
          cases dataEq.symm.trans foundEq
          nomatch takes
      | named otherEq =>
          cases dataEq.symm.trans otherEq
          rfl
      | assigned otherEq => cases dataEq.symm.trans otherEq
  | assigned dataEq targetEq =>
      cases two with
      | site performs =>
          rcases performs with ⟨_, foundEq, takes⟩
          cases dataEq.symm.trans foundEq
          exact absurd takes.mem NodeData.allocate_notMem_assignment
      | named otherEq => cases dataEq.symm.trans otherEq
      | assigned otherEq otherTarget =>
          cases dataEq.symm.trans otherEq
          cases targetEq.symm.trans otherTarget
          rfl

/-! ## Without declarations of globals -/

/-- An expression may denote an object of a site, if no name is global. -/
def MayYield (tree : Tree) (place : Place) (site : Site) : Prop :=
  ∃ source, tree.Yields (fun _ _ => False) place source ∧
    tree.MayDenote (fun _ _ => False) source site

theorem Yields.without_globals {isGlobal : StrId → Progress → Prop} {source : Source}
    (yields : tree.Yields isGlobal place source) : tree.Yields (fun _ _ => False) place source := by
  cases yields with
  | site performs => exact .site performs
  | named dataEq => exact .named dataEq id
  | assigned dataEq targetEq => exact .assigned dataEq targetEq id

theorem Flows.without_globals {isGlobal : StrId → Progress → Prop} {key : VarKey} {source : Source}
    (flows : tree.Flows isGlobal place key source) :
    tree.Flows (fun _ _ => False) place key source := by
  cases flows with
  | assigned dataEq targetEq _ yields => exact .assigned dataEq targetEq id yields.without_globals
  | captured dataEq member _ performs => exact .captured dataEq member id performs

/-- Where no name is declared to be global it does not matter which names are said to be. -/
theorem NoGlobal.denotes_iff (noGlobal : tree.NoGlobal) {source : Source} {site : Site} :
    (Law.ofPlace tree tree.start).Denotes source site ↔
      tree.MayDenote (fun _ _ => False) source site := by
  rw [Law.denotes_iff_mayDenote]
  constructor
  · intro mayDenote
    induction mayDenote with
    | site site => exact .site site
    | flow occurs flows _ inductionHypothesis =>
        exact .flow occurs flows.without_globals inductionHypothesis
  · exact fun mayDenote => mayDenote.of_noGlobal noGlobal

theorem Accesses.globals (noGlobal : tree.NoGlobal) {base : Place} {field : Option String}
    (accesses : tree.Accesses place base field) (empty : place.progress.globals = []) :
    base.progress.globals = [] := by
  cases accesses with
  | load => exact empty
  | store => exact globals_evaluate noGlobal _ empty
  | iterate => exact empty

/-- What may access the objects of a site. -/
theorem NoGlobal.accesses_iff (noGlobal : tree.NoGlobal) {field : Option String} {source : Source} :
    (Law.ofPlace tree tree.start).accesses field source ↔
      ∃ place base, tree.Occurs place ∧ tree.Accesses place base field ∧
        tree.Yields (fun _ _ => False) base source := by
  constructor
  · rintro ⟨place, base, occurs, accesses, yields⟩
    exact ⟨place, base, occurs, accesses, yields.without_globals⟩
  · rintro ⟨place, base, occurs, accesses, yields⟩
    exact ⟨place, base, occurs, accesses,
      yields.of_noGlobal noGlobal (accesses.globals noGlobal (occurs.globals noGlobal))⟩

theorem NoGlobal.touches_iff (noGlobal : tree.NoGlobal) {field : Option String} {site : Site} :
    (Law.ofPlace tree tree.start).Touches field site ↔
      ∃ place base, tree.Occurs place ∧ tree.Accesses place base field ∧
        tree.MayYield base site := by
  constructor
  · rintro ⟨source, accesses, denotes⟩
    rcases noGlobal.accesses_iff.1 accesses with ⟨place, base, occurs, accesses, yields⟩
    exact ⟨place, base, occurs, accesses, source, yields, noGlobal.denotes_iff.1 denotes⟩
  · rintro ⟨place, base, occurs, accesses, source, yields, mayDenote⟩
    exact ⟨source, noGlobal.accesses_iff.2 ⟨place, base, occurs, accesses, yields⟩,
      noGlobal.denotes_iff.2 mayDenote⟩

theorem NoGlobal.exclusive_iff (noGlobal : tree.NoGlobal) {site : Site} :
    (Law.ofPlace tree tree.start).Exclusive site ↔
      ∀ place base field source, tree.Occurs place → tree.Accesses place base field →
        tree.Yields (fun _ _ => False) base source →
        tree.MayDenote (fun _ _ => False) source site →
        field ≠ none ∧ ∀ other, tree.MayDenote (fun _ _ => False) source other → other = site := by
  constructor
  · intro exclusive place base field source occurs accesses yields mayDenote
    rcases exclusive field source (noGlobal.accesses_iff.2 ⟨place, base, occurs, accesses, yields⟩)
      (noGlobal.denotes_iff.2 mayDenote) with ⟨named, alone⟩
    exact ⟨named, fun other denotes => alone other (noGlobal.denotes_iff.2 denotes)⟩
  · intro exclusive field source accesses denotes
    rcases noGlobal.accesses_iff.1 accesses with ⟨place, base, occurs, accesses, yields⟩
    rcases exclusive place base field source occurs accesses yields
      (noGlobal.denotes_iff.1 denotes) with ⟨named, alone⟩
    exact ⟨named, fun other denotes => alone other (noGlobal.denotes_iff.1 denotes)⟩

end Tree

namespace Placement

/-- Where the objects of a site live. -/
def siteLocation? (config : Config) (tree : Tree) (site : Site) : Option Location :=
  ((Analysis.ofTree config tree).recordOf? site).bind fun record =>
    (ofTree? config tree).bind (·.location? record.node)

/-- The local variable that stands for a field of the objects of a site. -/
def siteSlot? (config : Config) (tree : Tree) (site : Site) (field : String) : Option LocalSlot :=
  ((Analysis.ofTree config tree).recordOf? site).bind fun record =>
    (ofTree? config tree).bind (·.scalar.slotOf? record.node field)

variable {config : Config} {tree : Tree} {site : Site} {record : EscapeRecord}

theorem walk_accounts (config : Config) (tree : Tree) :
    Walk.Accounts tree tree.start (Walk.ofTree config tree depthLimit) :=
  Walk.ofTree_accounts config tree depthLimit

theorem mem_values (found : (Analysis.ofTree config tree).recordOf? site = some record) :
    record ∈ (Analysis.ofTree config tree).records.values := by
  rw [Analysis.recordOf?, Option.filter_eq_some_iff] at found
  exact List.mem_of_getElem? found.1

/-- A record that is found at a node is that of the node. -/
theorem node_of_find? {id : NodeId}
    (found : (Analysis.ofTree config tree).records.find? id = some record) : record.node = id := by
  have sound := (walk_accounts config tree).sound
  have known : id ∈ (Walk.ofTree config tree depthLimit).records.keys := by
    have keysEq := (@Analysis.keys_ofWalk config _).trans sound.settles.keys_eq
    exact keysEq ▸ Table.mem_keys_iff.2 ⟨record, found⟩
  rcases Analysis.exists_judged sound config known with ⟨_, other, -, foundOther, nodeEq, -⟩
  cases found.symm.trans foundOther
  exact nodeEq

/-- Every record is that of its node. -/
theorem nodes_records (config : Config) (tree : Tree) :
    (Analysis.ofTree config tree).records.values.map (·.node) =
      (Analysis.ofTree config tree).records.keys := by
  rw [Table.values, Table.keys, List.map_map]
  apply List.map_congr_left
  rintro ⟨id, judged⟩ member
  exact node_of_find? (Table.find?_eq_some_iff.2 member)

theorem distinct_records (config : Config) (tree : Tree) :
    ((Analysis.ofTree config tree).records.values.map (·.node)).Nodup := by
  rw [nodes_records]
  exact List.Pairwise.imp Nat.ne_of_lt
    (List.pairwise_map.2 (Analysis.ofTree config tree).records.ascending)

theorem scalar_of_ofTree? {placement : Placement} (placed : ofTree? config tree = some placement) :
    placement.scalar = ScalarPlans.plan (Analysis.ofTree config tree).records.values := by
  obtain ⟨stack, -, rfl⟩ := exists_onStack placed
  exact scalar_onStack _ _

/-- Where the objects of a record live was decided when its turn came. -/
theorem exists_location {placement : Placement} (placed : ofTree? config tree = some placement)
    (listed : record ∈ (Analysis.ofTree config tree).records.values) :
    ∃ layout : StackLayout, placement.location? record.node =
      some (StackLayout.turn config layout record).location := by
  obtain ⟨stack, stackPlaced, rfl⟩ := exists_onStack placed
  obtain ⟨layout, found⟩ :=
    StackLayout.exists_decision?_of_mem (distinct_records config tree) listed stackPlaced
  refine ⟨layout, ?_⟩
  rw [location?, stack_onStack, found, Option.map_some]

theorem exists_of_siteLocation? {location : Location}
    (placed : siteLocation? config tree site = some location) :
    ∃ record placement, (Analysis.ofTree config tree).recordOf? site = some record ∧
      ofTree? config tree = some placement ∧
      placement.location? record.node = some location := by
  obtain ⟨record, found, placed⟩ := Option.bind_eq_some_iff.1 placed
  obtain ⟨placement, placed, located⟩ := Option.bind_eq_some_iff.1 placed
  exact ⟨record, placement, found, placed, located⟩

/-- Whatever is not on the heap does not escape. -/
theorem noEscape_of_siteLocation? (found : (Analysis.ofTree config tree).recordOf? site = some record)
    {location : Location} (placed : siteLocation? config tree site = some location)
    (elsewhere : location ≠ .heap) : record.state = .noEscape := by
  obtain ⟨same, placement, foundSame, placed, located⟩ := exists_of_siteLocation? placed
  cases foundSame.symm.trans found
  obtain ⟨layout, decided⟩ := exists_location placed (mem_values found)
  cases located.symm.trans decided
  exact StackLayout.noEscape_of_location_turn elsewhere

/-- What does not escape stands in no position through which objects escape. -/
theorem not_mayEscape_of_noEscape (noGlobal : tree.NoGlobal)
    (found : (Analysis.ofTree config tree).recordOf? site = some record)
    (noEscape : record.state = .noEscape) : ¬ tree.MayEscape (fun _ _ => False) site := by
  rintro ⟨source, ⟨place, occurs, exposes⟩, mayDenote⟩
  have exposed : tree.Exposed Progress.IsGlobal source :=
    ⟨place, occurs, exposes.of_noGlobal noGlobal (occurs.globals noGlobal)⟩
  exact Analysis.not_letsEscape_of_noEscape found noEscape
    (Analysis.letsEscape_of_exposed config tree exposed (mayDenote.of_noGlobal noGlobal))

/-- What can be replaced is replaced, and nothing else is, if there is a placement at all. -/
theorem siteLocation?_eq_scalarReplaced_iff
    (found : (Analysis.ofTree config tree).recordOf? site = some record) :
    siteLocation? config tree site = some .scalarReplaced ↔
      record.isScalarReplaceable = true ∧ ¬ Overflows config tree := by
  rw [siteLocation?, found, Option.bind_some, ← exists_ofTree?_iff]
  cases placed : ofTree? config tree with
  | none => simp
  | some placement =>
      obtain ⟨layout, decided⟩ := exists_location placed (mem_values found)
      rw [Option.bind_some, decided, Option.some_inj,
        StackLayout.location_turn_eq_scalarReplaced_iff]
      exact (and_iff_left ⟨placement, rfl⟩).symm

/-- In a tree that declares no globals, an object that does not escape is replaced exactly if some
field of it may be accessed by name, and whatever may access it accesses a named field of nothing
else. -/
theorem isScalarReplaceable_iff_of_noGlobal (noGlobal : tree.NoGlobal)
    (found : (Analysis.ofTree config tree).recordOf? site = some record)
    (noEscape : record.state = .noEscape) :
    record.isScalarReplaceable = true ↔
      config.enableScalarReplacement = true ∧
        (∃ place base field, tree.Occurs place ∧ tree.Accesses place base (some field) ∧
          tree.MayYield base site) ∧
        ∀ place base field source, tree.Occurs place → tree.Accesses place base field →
          tree.Yields (fun _ _ => False) base source →
          tree.MayDenote (fun _ _ => False) source site →
          field ≠ none ∧ ∀ other, tree.MayDenote (fun _ _ => False) source other → other = site := by
  have accounts := walk_accounts config tree
  rw [Analysis.isScalarReplaceable_iff accounts found noEscape, noGlobal.exclusive_iff]
  refine and_congr_right fun _ => and_congr_left fun _ => ?_
  simp only [noGlobal.touches_iff]
  constructor
  · rintro ⟨field, place, base, touches⟩
    exact ⟨place, base, field, touches⟩
  · rintro ⟨place, base, field, touches⟩
    exact ⟨field, place, base, touches⟩

/-- A site that is replaced by local variables has one for every field that may be accessed, and
its objects are used in no other way: whatever may access them accesses a named field of nothing
else, and they stand in no position through which objects escape. -/
theorem covers_accesses_of_replaced (config : Config) {tree : Tree} (noGlobal : tree.NoGlobal)
    {site : Site} (replaced : siteLocation? config tree site = some .scalarReplaced) :
    (∀ place base field, tree.Occurs place → tree.Accesses place base (some field) →
      tree.MayYield base site →
        (∃ slot, siteSlot? config tree site field = some slot) ∧
          ∀ other, tree.MayYield base other → other = site) ∧
      (∀ place base, tree.Occurs place → tree.Accesses place base none →
        ¬ tree.MayYield base site) ∧
      ¬ tree.MayEscape (fun _ _ => False) site := by
  obtain ⟨record, placement, found, placed, -⟩ := exists_of_siteLocation? replaced
  have accounts := walk_accounts config tree
  have replaceable := ((siteLocation?_eq_scalarReplaced_iff found).1 replaced).1
  have noEscape := noEscape_of_siteLocation? found replaced nofun
  rcases (isScalarReplaceable_iff_of_noGlobal noGlobal found noEscape).1 replaceable with
    ⟨-, -, exclusive⟩
  refine ⟨fun place base field occurs accesses mayYield => ⟨?_, ?_⟩, ?_,
    not_mayEscape_of_noEscape noGlobal found noEscape⟩
  · have uses := (Analysis.uses_iff accounts found).2
      (noGlobal.touches_iff.2 ⟨place, base, occurs, accesses, mayYield⟩)
    obtain ⟨slot, mapped⟩ := ScalarPlans.exists_slotOf?_plan (distinct_records config tree)
      (mem_values found) replaceable uses
    refine ⟨slot, ?_⟩
    rw [siteSlot?, found, Option.bind_some, placed, Option.bind_some, scalar_of_ofTree? placed]
    exact mapped
  · rintro other ⟨source, yields, mayDenote⟩
    rcases mayYield with ⟨same, yieldsSame, mayDenoteSite⟩
    cases yields.unique yieldsSame
    exact (exclusive place base _ source occurs accesses yields mayDenoteSite).2 other mayDenote
  · rintro place base occurs accesses ⟨source, yields, mayDenote⟩
    exact (exclusive place base none source occurs accesses yields mayDenote).1 rfl

/-- An object is copied, and a field of the copy is read. -/
def copiedPoint : Tree where
  root := ⟨0⟩
  strings := .ofList ["plot", "point", "Point", "copy", "x"]
  nodes := #[⟨.root [⟨1⟩], none⟩, ⟨.functionDecl ⟨0⟩ [] ⟨2⟩, none⟩, ⟨.block [⟨3⟩, ⟨6⟩, ⟨8⟩], none⟩,
    ⟨.assignment ⟨4⟩ ⟨5⟩, none⟩, ⟨.var ⟨1⟩, none⟩, ⟨.objectInstantiation ⟨2⟩ [], none⟩,
    ⟨.assignment ⟨7⟩ ⟨4⟩, none⟩, ⟨.var ⟨3⟩, none⟩, ⟨.propertyAccess ⟨7⟩ ⟨4⟩, none⟩]

theorem covers_accesses_of_replaced_copiedPoint :
    copiedPoint.NoGlobal ∧ siteLocation? {} copiedPoint ⟨0, ⟨5⟩⟩ = some .scalarReplaced ∧
      copiedPoint.Occurs ⟨509, 1, ⟨1, 1, []⟩, ⟨8⟩⟩ ∧
      copiedPoint.Accesses ⟨509, 1, ⟨1, 1, []⟩, ⟨8⟩⟩ ⟨508, 1, ⟨1, 1, []⟩, ⟨7⟩⟩ (some "x") ∧
      copiedPoint.MayYield ⟨508, 1, ⟨1, 1, []⟩, ⟨7⟩⟩ ⟨0, ⟨5⟩⟩ ∧
      ∃ slot, siteSlot? {} copiedPoint ⟨0, ⟨5⟩⟩ "x" = some slot := by
  have noGlobal : copiedPoint.NoGlobal := by
    apply Tree.noGlobal_of_nodes
    simp [copiedPoint]
  have replaced : siteLocation? {} copiedPoint ⟨0, ⟨5⟩⟩ = some .scalarReplaced := by cbv
  have given : copiedPoint.Occurs _ :=
    .visit ⟨_, rfl, .here⟩ (.enter ⟨_, rfl, .here⟩ (.visit ⟨_, rfl, .here⟩ (.refl _)))
  have copied : copiedPoint.Occurs _ :=
    .visit ⟨_, rfl, .here⟩ (.enter ⟨_, rfl, .here⟩ (.visit ⟨_, rfl, .later .here⟩ (.refl _)))
  have read : copiedPoint.Occurs ⟨509, 1, ⟨1, 1, []⟩, ⟨8⟩⟩ :=
    .visit ⟨_, rfl, .here⟩ (.enter ⟨_, rfl, .here⟩
      (.visit ⟨_, rfl, .later (.later .here)⟩ (.refl _)))
  have accesses : copiedPoint.Accesses ⟨509, 1, ⟨1, 1, []⟩, ⟨8⟩⟩ ⟨508, 1, ⟨1, 1, []⟩, ⟨7⟩⟩
      (some "x") := .load rfl rfl
  have mayYield : copiedPoint.MayYield ⟨508, 1, ⟨1, 1, []⟩, ⟨7⟩⟩ ⟨0, ⟨5⟩⟩ :=
    ⟨_, .named rfl id, .flow copied (.assigned rfl rfl id (.named rfl id))
      (.flow given (.assigned rfl rfl id (.site ⟨_, rfl, .here⟩)) (.site _))⟩
  have mapped :=
    ((covers_accesses_of_replaced {} noGlobal replaced).1 _ _ _ read accesses mayYield).1
  exact ⟨noGlobal, replaced, read, accesses, mayYield, mapped⟩

end Placement

end EscapePlan
