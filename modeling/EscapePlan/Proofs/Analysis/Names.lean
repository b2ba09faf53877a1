import EscapePlan.Analysis.Walk

/-!
# Changed names

The names in a tree, and what a walk keeps under them, may be changed to any others.  Whether an
analysis takes notice depends on the change: under other ids one for one it does not, and where two
names come to the same it may.
-/

namespace EscapePlan

/-! ## Trees -/

/-- A literal under changed names. -/
def Literal.rename (change : StrId → StrId) : Literal → Literal
  | .string value => .string (change value)
  | value => value

/-- The data of a node under changed names. -/
def NodeData.rename (change : StrId → StrId) : NodeData → NodeData
  | .functionDecl name params body => .functionDecl (change name) (params.map change) body
  | .objectInstantiation className args => .objectInstantiation (change className) args
  | .functionCall name args => .functionCall (change name) args
  | .methodCall object method args => .methodCall object (change method) args
  | .propertyAccess object property => .propertyAccess object (change property)
  | .closure params captures body => .closure (params.map change) (captures.map change) body
  | .var name => .var (change name)
  | .foreachStmt iterable key value body =>
      .foreachStmt iterable (key.map change) (change value) body
  | .literal value => .literal (value.rename change)
  | .global declared => .global (declared.map change)
  | data => data

/-- A node under changed names. -/
def TreeNode.rename (change : StrId → StrId) (node : TreeNode) : TreeNode :=
  { node with data := node.data.rename change }

/-! ## Variables and scopes -/

/-- A variable under a changed name. -/
def VarKey.rename (change : StrId → StrId) (key : VarKey) : VarKey :=
  { key with name := change key.name }

/-- A captured name under its changed name. -/
def renameCapture (change : StrId → StrId) (capture : StrId × NodeId × NodeId) :
    StrId × NodeId × NodeId :=
  (change capture.1, capture.2)

/-- Bindings of changed names. -/
def Bindings.rename (change : StrId → StrId) (bindings : Bindings) : Bindings :=
  bindings.map fun binding => (change binding.1, binding.2)

namespace Scopes

/-- Scopes that bind changed names. -/
def rename (change : StrId → StrId) (scopes : Scopes) : Scopes where
  current := Bindings.rename change scopes.current
  saved := scopes.saved.map (Bindings.rename change)

variable (change : StrId → StrId) (scopes : Scopes)

theorem bind_rename (name : StrId) (node : NodeId) :
    (scopes.rename change).bind (change name) node = (scopes.bind name node).rename change := rfl

theorem push_rename : (scopes.rename change).push = scopes.push.rename change := rfl

theorem pop_rename : (scopes.rename change).pop = scopes.pop.rename change := by
  obtain ⟨current, saved⟩ := scopes
  cases saved with
  | nil => rfl
  | cons outer saved => rfl

/-- A name is found under a changed name, unless a different one that is bound comes to the same. -/
theorem find?_rename {change : StrId → StrId} {scopes : Scopes} {name : StrId}
    (apart : ∀ binding ∈ scopes.current, change binding.1 = change name → binding.1 = name) :
    (scopes.rename change).find? (change name) = scopes.find? name := by
  obtain ⟨current, saved⟩ := scopes
  dsimp only at apart
  rw [find?, find?, rename, Bindings.rename]
  induction current with
  | nil => rfl
  | cons binding current inductionHypothesis =>
      obtain ⟨first, rest⟩ := List.forall_mem_cons.1 apart
      by_cases same : binding.1 = name
      · simp [same]
      · have other : change binding.1 ≠ change name := mt first same
        simpa [same, other] using inductionHypothesis rest

end Scopes

end EscapePlan
