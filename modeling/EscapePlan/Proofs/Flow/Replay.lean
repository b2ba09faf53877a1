import EscapePlan.Flow.Renaming
import EscapePlan.Proofs.Flow.Path

/-!
# Replaying a path

When control follows a path, each block on it runs its phis and then its definitions.
What is current for a variable is what was produced for it last.
-/

namespace EscapePlan

/-- What a phi produces. -/
def Phi.definition (phi : Phi) : Definition :=
  ⟨phi.var, phi.node, phi.version⟩

namespace ControlFlow

/-- What the phis of a block produce, in order. -/
def phiDefinitions (flow : ControlFlow) (block : BlockId) : List Definition :=
  (flow.phisIn block).map Phi.definition

/-- The definitions of a block in order. -/
def definitions (flow : ControlFlow) (block : BlockId) : List Definition :=
  ((flow.block? block).map (·.definitions)).getD []

/-- What a block produces. -/
def produced (flow : ControlFlow) (block : BlockId) : List Definition :=
  flow.phiDefinitions block ++ flow.definitions block

/-- What the blocks of a path, listed backwards, produce one after the other. -/
def replay (flow : ControlFlow) : List BlockId → List Definition
  | [] => []
  | block :: earlier => flow.replay earlier ++ flow.produced block

/-- What is current at the start and at the end of a block, as the block states it. -/
def entryVersion? (flow : ControlFlow) (block : BlockId) (var : VarId) : Option Nat :=
  (flow.block? block).bind (·.entryVersions.find? var)

def exitVersion? (flow : ControlFlow) (block : BlockId) (var : VarId) : Option Nat :=
  (flow.block? block).bind (·.exitVersions.find? var)

theorem replay_append (flow : ControlFlow) (later earlier : List BlockId) :
    flow.replay (later ++ earlier) = flow.replay earlier ++ flow.replay later := by
  induction later with
  | nil => rw [List.nil_append, replay, List.append_nil]
  | cons block later inductionHypothesis =>
      rw [List.cons_append, replay, inductionHypothesis, replay, List.append_assoc]

theorem replay_eq_of_produced_eq {first second : ControlFlow} {path : List BlockId}
    (same : ∀ block ∈ path, second.produced block = first.produced block) :
    second.replay path = first.replay path := by
  induction path with
  | nil => rfl
  | cons block earlier inductionHypothesis =>
      rw [replay, replay, same block List.mem_cons_self, inductionHypothesis]
      intro other member
      exact same other (List.mem_cons_of_mem _ member)

end ControlFlow

/-- The last definition of a variable. -/
def lastDefinition (var : VarId) (definitions : List Definition) : Option Definition :=
  (definitions.filter (·.var = var)).getLast?

theorem lastDefinition_append (var : VarId) (first second : List Definition) :
    lastDefinition var (first ++ second) =
      (lastDefinition var second).or (lastDefinition var first) := by
  rw [lastDefinition, List.filter_append, List.getLast?_append]
  rfl

theorem lastDefinition_eq_none_iff {var : VarId} {definitions : List Definition} :
    lastDefinition var definitions = none ↔ ∀ definition ∈ definitions, definition.var ≠ var := by
  rw [lastDefinition, List.getLast?_eq_none_iff, List.filter_eq_nil_iff]
  simp only [decide_eq_true_eq, ne_eq]

namespace Current

/-- What is current after some definitions. -/
def after (current : Current) (definitions : List Definition) : Current :=
  definitions.foldl
    (fun current definition => current.insert definition.var (definition.version, definition.node))
    current

theorem after_append (current : Current) (first second : List Definition) :
    current.after (first ++ second) = (current.after first).after second :=
  List.foldl_append

/-- What is current for a variable is what was defined last, if anything was. -/
theorem find?_after (current : Current) (definitions : List Definition) (var : VarId) :
    (current.after definitions).find? var =
      ((lastDefinition var definitions).map fun definition =>
        (definition.version, definition.node)).or (current.find? var) := by
  induction definitions generalizing current with
  | nil => rfl
  | cons definition definitions inductionHypothesis =>
      have split : lastDefinition var (definition :: definitions) =
          (lastDefinition var definitions).or (lastDefinition var [definition]) :=
        lastDefinition_append var [definition] definitions
      rw [after, List.foldl_cons]
      refine (inductionHypothesis _).trans ?_
      rw [split, Table.find?_insert]
      cases lastDefinition var definitions with
      | some last => rfl
      | none =>
          by_cases same : definition.var = var
          · simp [lastDefinition, same]
          · simp [lastDefinition, same, Ne.symm same]

theorem find?_after_empty (definitions : List Definition) (var : VarId) :
    (after .empty definitions).find? var =
      (lastDefinition var definitions).map fun definition =>
        (definition.version, definition.node) := by
  rw [find?_after]
  exact Option.or_none

end Current

/-- The source that a phi gets from the end of a block. -/
def PhiSource.ofCurrent (block : BlockId) : Option (Nat × NodeId) → PhiSource
  | none => ⟨block, 0, none⟩
  | some (version, node) => ⟨block, version, some node⟩

theorem PhiSource.block_ofCurrent (block : BlockId) (current : Option (Nat × NodeId)) :
    (ofCurrent block current).block = block := by
  cases current with
  | none => rfl
  | some version => rfl

theorem PhiSource.ofCurrent_undefined_iff (block : BlockId) (current : Option (Nat × NodeId)) :
    ((ofCurrent block current).version = 0 ∧ (ofCurrent block current).node = none) ↔
      current = none := by
  cases current with
  | none => simp [ofCurrent]
  | some version => simp [ofCurrent]

end EscapePlan
