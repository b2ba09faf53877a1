import EscapePlan.Flow.Basic

/-!
# Renaming

Renaming gives every phi and every definition in a reachable block a version of its
own, counted from one for each variable.  It goes down the dominator tree, because
what is current at the start of a block, apart from the block's own phis, is what is
current at the end of its immediate dominator.  At the end of a block its current
versions become sources of the phis of its successors.
-/

namespace EscapePlan

/-- The current versions of variables, each with the node that defines it. -/
abbrev Current := Table (Nat × NodeId)

/-- The state of renaming: the graph, and the pairs of a defining node and the phi
node that it is a source of, the latest first. -/
structure Renaming where
  flow : ControlFlow
  links : List (NodeId × NodeId)
  deriving DecidableEq, Repr, Inhabited

namespace Renaming

/-- Gives out the next version of a variable. -/
def freshVersion (var : VarId) : StateM Renaming Nat :=
  modifyGet fun state =>
    let version := state.flow.versionCount var + 1
    (version, { state with
      flow := { state.flow with versions := state.flow.versions.insert var version } })

/-- Changes a block. -/
def modifyBlock (block : BlockId) (change : Block → Block) : StateM Renaming Unit :=
  modify fun state => { state with flow := state.flow.modifyBlock block change }

/-- Changes a phi. -/
def modifyPhi (place : Nat) (change : Phi → Phi) : StateM Renaming Unit :=
  modify fun state =>
    { state with flow := { state.flow with phis := state.flow.phis.modify place change } }

/-- Gives phis their versions, which become current. -/
def renamePhis : List Nat → Current → StateM Renaming Current
  | [], current => pure current
  | place :: places, current => do
      match (← get).flow.phis[place]? with
      | none => renamePhis places current
      | some phi =>
          let version ← freshVersion phi.var
          modifyPhi place fun phi => { phi with version }
          renamePhis places (current.insert phi.var (version, phi.node))

/-- Gives definitions their versions, each of which becomes current. -/
def renameDefinitions :
    List Definition → Current → StateM Renaming (List Definition × Current)
  | [], current => pure ([], current)
  | definition :: definitions, current => do
      let version ← freshVersion definition.var
      let (definitions, current) ← renameDefinitions definitions
        (current.insert definition.var (version, definition.node))
      return ({ definition with version } :: definitions, current)

/-- Makes what is current at the end of a block a source of a phi. -/
def feedPhi (block : BlockId) (current : Current) (place : Nat) : StateM Renaming Unit :=
  modify fun state =>
    match state.flow.phis[place]? with
    | none => state
    | some phi =>
        let (source, links) : PhiSource × List (NodeId × NodeId) :=
          match current.find? phi.var with
          | none => (⟨block, 0, none⟩, state.links)
          | some (version, node) => (⟨block, version, some node⟩, (node, phi.node) :: state.links)
        ⟨{ state.flow with
            phis := state.flow.phis.modify place fun phi =>
              { phi with sources := phi.sources ++ [source] } }, links⟩

/-- Renames a block, given what is current at the end of its immediate dominator, and
answers what is current at its own end. -/
def renameOne (block : BlockId) (current : Current) : StateM Renaming Current := do
  let current ← renamePhis ((← get).flow.phiPlaces block) current
  modifyBlock block fun found => { found with entryVersions := current.map (·.1) }
  let definitions := (((← get).flow.block? block).map (·.definitions)).getD []
  let (definitions, current) ← renameDefinitions definitions current
  modifyBlock block fun found =>
    { found with definitions, exitVersions := current.map (·.1) }
  for successor in (← get).flow.successors block do
    for place in (← get).flow.phiPlaces successor do
      feedPhi block current place
  return current

/-- Renames a block and everything below it in the dominator tree, down to the given
depth. -/
def renameTree : Nat → BlockId → Current → StateM Renaming Unit
  | 0, _, _ => pure ()
  | depth + 1, block, current => do
      let current ← renameOne block current
      for child in (((← get).flow.block? block).map (·.children)).getD [] do
        renameTree depth child current

/-- Renames all regions. -/
def renameRegions : StateM Renaming Unit := do
  let flow := (← get).flow
  for entry in flow.entries do
    if flow.isReachable entry then renameTree flow.size entry .empty

end Renaming

namespace ControlFlow

/-- Forgets all versions given and all sources of phis. -/
def clearVersions (flow : ControlFlow) : ControlFlow :=
  { flow with
    versions := .empty
    phis := flow.phis.map fun phi => { phi with sources := [] } }

/-- Renames the graph; answers also the pairs of a defining node and the phi node that
it is a source of, in the order in which they were found. -/
def rename (flow : ControlFlow) : ControlFlow × List (NodeId × NodeId) :=
  let (_, state) := Renaming.renameRegions.run ⟨flow.clearVersions, []⟩
  (state.flow, state.links.reverse)

end ControlFlow

end EscapePlan
