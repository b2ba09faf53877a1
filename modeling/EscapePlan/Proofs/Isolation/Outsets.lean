import EscapePlan.Proofs.Isolation.Visits

/-!
# Where walks begin to go in step

A walk goes in step with itself from any point on, and two walks go in step from any points on if
they share nothing that was there before.  From its first step on, a walk over a tree leads no
value to a parameter and gives every site the record of a new one.
-/

namespace EscapePlan

theorem optionRel_refl {α : Type} (value : Option α) : Option.Rel Eq value value := by
  cases value with
  | none => exact .none
  | some value => exact .some rfl

theorem NodeData.alike_refl (data : NodeData) : data.Alike Eq data := by
  cases data with
  | root => exact .root (List.forall₂_refl _)
  | block => exact .block (List.forall₂_refl _)
  | functionDecl => exact .functionDecl _ _ rfl
  | assignment => exact .assignment rfl rfl
  | objectInstantiation => exact .objectInstantiation _ (List.forall₂_refl _)
  | arrayInit => exact .arrayInit (List.forall₂_refl _)
  | returnStmt => exact .returnStmt (optionRel_refl _)
  | functionCall => exact .functionCall _ (List.forall₂_refl _)
  | methodCall => exact .methodCall _ rfl (List.forall₂_refl _)
  | propertyAccess => exact .propertyAccess _ rfl
  | arrayAccess => exact .arrayAccess rfl (optionRel_refl _)
  | closure => exact .closure _ _ rfl
  | var => exact .var _
  | ifStmt => exact .ifStmt rfl rfl (optionRel_refl _)
  | whileStmt => exact .whileStmt rfl rfl
  | forStmt => exact .forStmt (List.forall₂_refl _) (optionRel_refl _) (List.forall₂_refl _) rfl
  | foreachStmt => exact .foreachStmt _ _ rfl rfl
  | throwStmt => exact .throwStmt rfl
  | literal => exact .literal _
  | global => exact .global _
  | other => exact .other

theorem Tree.alike_refl (tree : Tree) : Tree.Alike Eq tree tree where
  strings_eq := rfl
  nodes index _ same := by
    subst same
    cases tree.get? index with
    | none => exact .none
    | some node => exact .some ⟨node.data.alike_refl, rfl⟩

namespace Walk

variable {config : Config} {outset : Outset} {stage : Stage}

/-- What a list has grown by corresponds to itself. -/
theorem Added.diagonal {α : Type} {corresponds : α → α → Prop} {start now : List α}
    (added : Added corresponds start start now now) :
    ∃ more, now = start ++ more ∧ ∀ item ∈ more, corresponds item item := by
  obtain ⟨more, others, rfl, same, all⟩ := added
  rw [List.append_cancel_left_eq] at same
  subst same
  exact ⟨more, rfl, List.forall₂_same.1 all⟩

/-- A walk goes in step with itself, sharing some of the values that there are. -/
def Outset.diagonal (walk : Walk) (keeps : NodeId → Prop) : Outset where
  one := walk
  two := walk
  shares first second := first = second ∧ first < walk.graph.values.size ∧ keeps first
  known := by
    rintro first _ ⟨rfl, known, -⟩
    exact ⟨known, known⟩
  unique := by
    rintro first _ other _ ⟨rfl, -⟩ ⟨rfl, -⟩
    rfl

/-- Two walks share nothing that was there before. -/
def Outset.apart (one two : Walk) : Outset where
  one := one
  two := two
  shares _ _ := False
  known shared := shared.elim
  unique shared := shared.elim

/-- Nothing has been noted that a walk cannot go on from. -/
structure Ready (walk : Walk) : Prop where
  edges_known : walk.graph.values.EdgesKnown
  no_phis : walk.graph.flow.phis = #[]
  records_known : ∀ id, walk.graph.values.size ≤ id → walk.records.find? id = none

theorem shares_of_paired {first second : NodeId} (paired : Paired outset .initial first second) :
    outset.shares first second := by
  obtain ⟨node, twins⟩ := paired
  cases twins with
  | shared shares => exact shares
  | made found => nomatch found

/-- Two walks are in step when they begin to be. -/
theorem Outset.inStep (outset : Outset) (readyOne : outset.one.Ready) (readyTwo : outset.two.Ready)
    (edge_iff : ∀ {source target other another}, outset.shares source other →
      outset.shares target another → ∀ kind,
        (⟨source, target, kind⟩ ∈ outset.one.graph.values.edges ↔
          ⟨other, another, kind⟩ ∈ outset.two.graph.values.edges))
    (bindings : ∀ name, PairedResults outset .initial (outset.one.graph.scopes.find? name)
      (outset.two.graph.scopes.find? name)) :
    InStep config outset ⟨outset.one.scope, outset.two.scope, outset.one.graph.scopes.saved,
      outset.two.graph.scopes.saved⟩ .initial outset.one outset.two where
  nodes_one := (List.append_nil _).symm
  nodes_two := (List.append_nil _).symm
  known_one := readyOne.edges_known
  known_two := readyTwo.edges_known
  edge_iff sources targets := edge_iff (shares_of_paired sources) (shares_of_paired targets)
  edges_one _ listed := .inl listed
  edges_two _ listed := .inl listed
  kept_one _ listed := listed
  kept_two _ listed := listed
  records_one _ _ := rfl
  records_two _ _ := rfl
  records _ := .inl ⟨readyOne.records_known _ (Nat.le_add_right _ _),
    readyTwo.records_known _ (Nat.le_add_right _ _)⟩
  bindings := bindings
  phis_one := readyOne.no_phis
  phis_two := readyTwo.no_phis
  saved_one := rfl
  saved_two := rfl
  scope_one := rfl
  scope_two := rfl
  scopes := .outer
  scopeCount_one := rfl
  scopeCount_two := rfl
  noted := ⟨.refl .., .refl .., .refl .., .refl .., .refl .., .refl ..⟩

theorem ready_initial : initial.Ready where
  edges_known := ValueGraph.edgesKnown_empty
  no_phis := rfl
  records_known _ _ := rfl

/-! ## Walks over trees -/

theorem inStep_initial : InStep config (.diagonal initial fun _ => False) ⟨0, 0, [], []⟩ .initial
    initial initial :=
  Outset.inStep (.diagonal initial fun _ => False) ready_initial ready_initial
    (fun shared => shared.2.2.elim) fun _ => .none

theorem inStep_ofTree (config : Config) (tree : Tree) (levels : Nat) :
    ∃ stage, InStep config (.diagonal initial fun _ => False) ⟨0, 0, [], []⟩ stage
      (ofTree config tree levels) (ofTree config tree levels) := by
  have visits := Walker.visitsAlike_visit tree.alike_refl config
    (.diagonal initial fun _ => False) levels
  obtain ⟨stage, -, inStep, -⟩ := visits ⟨0, 0, [], []⟩ .initial tree.root tree.root rfl _ _
    inStep_initial
  rw [ofTree_eq]
  exact ⟨stage, inStep⟩

/-- What a walk over a tree does not do: it leads no value to a parameter, makes no phi, and raises
no record. -/
structure Orderly (config : Config) (walk : Walk) : Prop where
  edges_known : walk.graph.values.EdgesKnown
  no_phis : walk.graph.flow.phis = #[]
  edge_target : ∀ edge ∈ walk.graph.values.edges,
    ∃ kind, walk.kind? edge.target = some kind ∧ kind ≠ .parameter
  sink_target : ∀ sink ∈ walk.sinks,
    ∃ kind, walk.kind? sink.target = some kind ∧ kind ≠ .parameter
  records : ∀ id record, walk.records.find? id = some record → IsSiteRecord config id record

theorem InStep.receives {frame : Frame} {walk other : Walk} {first second : NodeId}
    (inStep : InStep config outset frame stage walk other)
    (receivers : Receivers outset stage first second) :
    ∃ kind, walk.kind? first = some kind ∧ kind ≠ .parameter := by
  obtain ⟨node, twins, receives⟩ := receivers
  exact ⟨node.kind, (inStep.kind?_eq twins).1, receives⟩

/-- Two walks that were in step from the first step on were orderly. -/
theorem InStep.orderly {frame : Frame} {walk : Walk}
    (inStep : InStep config (.diagonal initial fun _ => False) frame stage walk walk) :
    walk.Orderly config where
  edges_known := inStep.known_one
  no_phis := inStep.phis_one
  edge_target edge listed := by
    rcases inStep.edges_one edge listed with never | ⟨other, paired⟩
    · exact absurd never (Array.not_mem_empty edge)
    · exact inStep.receives paired.target
  sink_target sink noted := by
    obtain ⟨more, sinksEq, all⟩ := inStep.noted.sinks.diagonal
    rw [← Array.mem_toList_iff, sinksEq] at noted
    exact inStep.receives (all sink noted).target
  records id record found := by
    have known := inStep.records id
    rw [show (Outset.diagonal initial fun _ => False).one.graph.values.size + id = id from
      Nat.zero_add id, found] at known
    rcases known with ⟨absent, -⟩ | ⟨objectType, className, position, count, same, -⟩
    · nomatch absent
    · exact ⟨objectType, className, position, count, Option.some.inj same⟩

theorem ofTree_orderly (config : Config) (tree : Tree) (levels : Nat) :
    (ofTree config tree levels).Orderly config := by
  obtain ⟨stage, inStep⟩ := inStep_ofTree config tree levels
  exact inStep.orderly

end Walk

end EscapePlan
