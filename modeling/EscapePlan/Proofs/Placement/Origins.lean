import EscapePlan.Proofs.Placement.Replacement

/-!
# What the base of a replaced access comes from

A variable may be given values that no allocation site of the tree is known for: parameters, results
of calls, fields and elements that are loaded, and elements that a loop goes over.  Replacement by
local variables rules out other sites as the base of an access, and nothing else: values of unknown
origin are not looked at.
-/

namespace EscapePlan

namespace NodeData

/-- Whether nothing is known of where the value of an expression comes from. -/
def isForeign : NodeData → Bool
  | .functionCall .. | .methodCall .. | .propertyAccess .. | .arrayAccess .. => true
  | _ => false

/-- The parameters of a function. -/
def params : NodeData → List StrId
  | .functionDecl _ params _ | .closure params _ _ => params
  | _ => []

end NodeData

namespace Tree

variable (tree : Tree)

/-- An occurrence gives a variable a value of unknown origin. -/
inductive Imports : Place → VarKey → Prop where
  | parameter {place : Place} {data : NodeData} {name : StrId} {body : NodeIndex}
      {progress : Progress} :
      tree.dataAt? place = some data → name ∈ data.params →
      tree.Performs place (.enter body) progress → Imports place ⟨progress.scopes + 1, name⟩
  | assigned {place : Place} {target value : NodeIndex} {name : StrId} {data : NodeData} :
      tree.dataAt? place = some (.assignment target value) →
      tree.data? target = some (.var name) →
      tree.dataAt? (place.value value) = some data → data.isForeign = true →
      Imports place ⟨place.scope, name⟩
  | element {place : Place} {iterable body : NodeIndex} {key : Option StrId} {value name : StrId} :
      tree.dataAt? place = some (.foreachStmt iterable key value body) →
      name ∈ key.toList ++ [value] → Imports place ⟨place.scope, name⟩

/-- What values come from: an allocation site, or none if their origin is unknown. -/
inductive Originates : Source → Option Site → Prop where
  | site (site : Site) : Originates (.site site) (some site)
  | unknown {place : Place} {key : VarKey} :
      tree.Occurs place → Imports tree place key → Originates (.named key) none
  | flow {place : Place} {key : VarKey} {source : Source} {origin : Option Site} :
      tree.Occurs place → Flows (fun _ _ => False) tree place key source →
      Originates source origin → Originates (.named key) origin

variable {tree}

/-- The sites that values come from are those whose objects they may denote. -/
theorem originates_some_iff {source : Source} {site : Site} :
    tree.Originates source (some site) ↔ tree.MayDenote (fun _ _ => False) source site := by
  constructor
  · generalize originEq : some site = origin
    intro originates
    induction originates with
    | site other =>
        cases originEq
        exact .site site
    | unknown => nomatch originEq
    | flow occurs flows _ inductionHypothesis =>
        exact .flow occurs flows (inductionHypothesis originEq)
  · intro mayDenote
    induction mayDenote with
    | site site => exact .site site
    | flow occurs flows _ inductionHypothesis => exact .flow occurs flows inductionHypothesis

end Tree

namespace Placement

/-- In a tree that declares no globals, objects that do not escape are replaced by local variables
exactly if some field of them may be accessed by name, and whatever may access them accesses a
named field of what comes from their site or from unknown origin; unless nothing can be placed at
all. -/
theorem replaced_iff_origins (config : Config) {tree : Tree} (noGlobal : tree.NoGlobal) {site : Site}
    (noEscape : ((Analysis.ofTree config tree).recordOf? site).map (·.state) = some .noEscape) :
    siteLocation? config tree site = some .scalarReplaced ↔
      ¬ Overflows config tree ∧ config.enableScalarReplacement = true ∧
        (∃ place base field, tree.Occurs place ∧ tree.Accesses place base (some field) ∧
          tree.MayYield base site) ∧
        ∀ place base field source, tree.Occurs place → tree.Accesses place base field →
          tree.Yields (fun _ _ => False) base source → tree.Originates source (some site) →
          field ≠ none ∧
            ∀ origin, tree.Originates source origin → origin = some site ∨ origin = none := by
  rcases Option.map_eq_some_iff.1 noEscape with ⟨record, found, state⟩
  have alone (source : Source) :
      (∀ other, tree.MayDenote (fun _ _ => False) source other → other = site) ↔
        ∀ origin, tree.Originates source origin → origin = some site ∨ origin = none := by
    constructor
    · intro alone origin originates
      cases origin with
      | none => exact .inr rfl
      | some other => exact .inl (congrArg some (alone other (Tree.originates_some_iff.1 originates)))
    · intro alone other mayDenote
      rcases alone (some other) (Tree.originates_some_iff.2 mayDenote) with same | absent
      · exact Option.some.inj same
      · nomatch absent
  rw [siteLocation?_eq_scalarReplaced_iff found, and_comm,
    isScalarReplaceable_iff_of_noGlobal noGlobal found state]
  simp only [alone, Tree.originates_some_iff]

/-- A variable is given an object or, in one branch, a parameter, and a field of it is read. -/
def partlyGiven : Tree where
  root := ⟨0⟩
  strings := .ofList ["plot", "given", "point", "Point", "x"]
  nodes := #[⟨.root [⟨1⟩], none⟩, ⟨.functionDecl ⟨0⟩ [⟨1⟩] ⟨2⟩, none⟩,
    ⟨.block [⟨3⟩, ⟨6⟩, ⟨10⟩], none⟩, ⟨.assignment ⟨4⟩ ⟨5⟩, none⟩, ⟨.var ⟨2⟩, none⟩,
    ⟨.objectInstantiation ⟨3⟩ [], none⟩, ⟨.ifStmt ⟨7⟩ ⟨8⟩ none, none⟩, ⟨.var ⟨1⟩, none⟩,
    ⟨.block [⟨9⟩], none⟩, ⟨.assignment ⟨4⟩ ⟨7⟩, none⟩, ⟨.propertyAccess ⟨4⟩ ⟨4⟩, none⟩]

theorem noGlobal_partlyGiven : partlyGiven.NoGlobal := by
  apply Tree.noGlobal_of_nodes
  simp [partlyGiven]

theorem occurs_read_partlyGiven : partlyGiven.Occurs ⟨509, 1, ⟨1, 1, []⟩, ⟨10⟩⟩ :=
  .visit ⟨_, rfl, .here⟩ (.enter ⟨_, rfl, .here⟩ (.visit ⟨_, rfl, .later (.later .here)⟩ (.refl _)))

theorem originates_site_partlyGiven :
    partlyGiven.Originates (.named ⟨1, ⟨2⟩⟩) (some ⟨0, ⟨5⟩⟩) := by
  have given : partlyGiven.Occurs _ :=
    .visit ⟨_, rfl, .here⟩ (.enter ⟨_, rfl, .here⟩ (.visit ⟨_, rfl, .here⟩ (.refl _)))
  exact .flow given (.assigned rfl rfl id (.site ⟨_, rfl, .here⟩)) (.site _)

theorem replaced_iff_origins_partlyGiven :
    partlyGiven.NoGlobal ∧
      ((Analysis.ofTree {} partlyGiven).recordOf? ⟨0, ⟨5⟩⟩).map (·.state) = some .noEscape ∧
      siteLocation? {} partlyGiven ⟨0, ⟨5⟩⟩ = some .scalarReplaced ∧
      ∀ origin, partlyGiven.Originates (.named ⟨1, ⟨2⟩⟩) origin →
        origin = some ⟨0, ⟨5⟩⟩ ∨ origin = none := by
  have noEscape :
      ((Analysis.ofTree {} partlyGiven).recordOf? ⟨0, ⟨5⟩⟩).map (·.state) = some .noEscape := by cbv
  have replaced : siteLocation? {} partlyGiven ⟨0, ⟨5⟩⟩ = some .scalarReplaced := by cbv
  have accesses : partlyGiven.Accesses ⟨509, 1, ⟨1, 1, []⟩, ⟨10⟩⟩ ⟨508, 1, ⟨1, 1, []⟩, ⟨4⟩⟩
      (some "x") := .load rfl rfl
  rcases (replaced_iff_origins {} noGlobal_partlyGiven noEscape).1 replaced with ⟨-, -, -, only⟩
  refine ⟨noGlobal_partlyGiven, noEscape, replaced, ?_⟩
  exact (only _ _ _ _ occurs_read_partlyGiven accesses (.named rfl id)
    originates_site_partlyGiven).2

/-- The base of an access that is replaced may be a parameter. -/
theorem originates_unknown_of_replaced :
    partlyGiven.NoGlobal ∧ siteLocation? {} partlyGiven ⟨0, ⟨5⟩⟩ = some .scalarReplaced ∧
      partlyGiven.Occurs ⟨509, 1, ⟨1, 1, []⟩, ⟨10⟩⟩ ∧
      partlyGiven.Accesses ⟨509, 1, ⟨1, 1, []⟩, ⟨10⟩⟩ ⟨508, 1, ⟨1, 1, []⟩, ⟨4⟩⟩ (some "x") ∧
      partlyGiven.MayYield ⟨508, 1, ⟨1, 1, []⟩, ⟨4⟩⟩ ⟨0, ⟨5⟩⟩ ∧
      partlyGiven.Yields (fun _ _ => False) ⟨508, 1, ⟨1, 1, []⟩, ⟨4⟩⟩ (.named ⟨1, ⟨2⟩⟩) ∧
      partlyGiven.Originates (.named ⟨1, ⟨2⟩⟩) none := by
  have declared : partlyGiven.Occurs _ := .visit ⟨_, rfl, .here⟩ (.refl _)
  have copied : partlyGiven.Occurs _ :=
    .visit ⟨_, rfl, .here⟩ (.enter ⟨_, rfl, .here⟩ (.visit ⟨_, rfl, .later .here⟩
      (.visit ⟨_, rfl, .later .here⟩ (.visit ⟨_, rfl, .here⟩ (.refl _)))))
  have yields : partlyGiven.Yields (fun _ _ => False) ⟨508, 1, ⟨1, 1, []⟩, ⟨4⟩⟩
      (.named ⟨1, ⟨2⟩⟩) := .named rfl id
  have parameter : partlyGiven.Imports ⟨511, 0, ⟨0, 0, []⟩, ⟨1⟩⟩ ⟨1, ⟨1⟩⟩ :=
    @Tree.Imports.parameter _ _ _ _ _ ⟨0, 0, []⟩ rfl List.mem_cons_self ⟨_, rfl, .here⟩
  refine ⟨noGlobal_partlyGiven, by cbv, occurs_read_partlyGiven, .load rfl rfl, ⟨_, yields, ?_⟩,
    yields, .flow copied (.assigned rfl rfl id (.named rfl id)) (.unknown declared parameter)⟩
  exact Tree.originates_some_iff.1 originates_site_partlyGiven

end Placement

end EscapePlan
