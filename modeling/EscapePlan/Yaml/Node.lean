import EscapePlan.Yaml.Token

/-!
# Nodes of YAML documents

A document is a tree of nodes: scalars, sequences and mappings.  An alias stands for the
node that carries its anchor; it is replaced by that node, except within the node
itself, where no tree could stand for it.

`Node.ofText?` reads the one document of a text.
-/

namespace EscapePlan.Yaml

/-- A node of a document.  Its tag is written out in full. -/
inductive Node where
  | scalar (text : String) (style : Style) (tag : Option String)
  | sequence (items : List Node) (tag : Option String)
  | mapping (members : List (Node × Node)) (tag : Option String)
  /-- An alias within the node that it stands for. -/
  | cycle
  deriving Inhabited

namespace Node

/-- The node that stands where nothing is written. -/
def blank (tag : Option String) : Node :=
  .scalar "" .plain tag

/-- What is known while nodes are read. -/
structure Context where
  /-- The tokens that are left. -/
  tokens : List Token
  /-- What the handles of tags stand for. -/
  handles : List (String × String)
  /-- The anchors, the latest first, with the number of the node that carries each. -/
  anchors : List (String × Nat) := []
  /-- The nodes that carry anchors and have been read, by number. -/
  finished : List (Nat × Node) := []

/-- A step of reading nodes, which fails if the tokens do not make up a document. -/
abbrev Reading := StateT Context Option

/-- The next token. -/
def peek : Reading (Option Token) := do
  return (← get).tokens.head?

/-- Skips a token. -/
def skip : Reading Unit :=
  modify fun context => { context with tokens := context.tokens.drop 1 }

/-- Whether the next token is the given one; if so, skips it. -/
def accept (token : Token) : Reading Bool := do
  if (← peek) = some token then
    skip
    return true
  else
    return false

/-- The tag that a handle and a suffix make up. -/
def resolveTag (handle suffix : String) : Reading String := do
  if handle.isEmpty then return suffix
  else
    match (← get).handles.find? (·.1 = handle) with
    | some (_, stem) => return stem ++ suffix
    | none => failure

/-- Takes an anchor, if one comes. -/
def readAnchor : Reading (Option String) := do
  match ← peek with
  | some (.anchor name) =>
      skip
      return some name
  | _ => return none

/-- Takes a tag, if one comes. -/
def readTag : Reading (Option (String × String)) := do
  match ← peek with
  | some (.tag handle suffix) =>
      skip
      return some (handle, suffix)
  | _ => return none

/-- Takes an anchor and a tag in either order, each if it comes. -/
def readProperties : Reading (Option String × Option String) := do
  let before ← readAnchor
  let tag ← readTag
  let anchor ← if before.isNone && tag.isSome then readAnchor else pure before
  let resolved ← tag.mapM fun (handle, suffix) => resolveTag handle suffix
  return (anchor, resolved)

/-- Attaches an anchor to the node that comes next; answers the number of that node. -/
def openAnchor (anchor : Option String) : Reading (Option Nat) := do
  match anchor with
  | none => return none
  | some name =>
      let number := (← get).anchors.length
      modify fun context => { context with anchors := (name, number) :: context.anchors }
      return some number

/-- Remembers a node that carries an anchor. -/
def closeAnchor (number : Option Nat) (node : Node) : Reading Node := do
  match number with
  | none => return node
  | some number =>
      modify fun context => { context with finished := (number, node) :: context.finished }
      return node

/-- The node that an alias stands for. -/
def resolveAlias (name : String) : Reading Node := do
  match (← get).anchors.find? (·.1 = name) with
  | none => failure
  | some (_, number) =>
      return (((← get).finished.find? (·.1 = number)).map (·.2)).getD .cycle

mutual

/-- Takes a node.  Block collections and sequences without indentation of their own are
nodes only where that is said. -/
def readNode : Nat → (block unindented : Bool) → Reading Node
  | 0, _, _ => failure
  | steps + 1, block, unindented => do
      match ← peek with
      | some (.alias name) =>
          skip
          resolveAlias name
      | _ =>
          let (anchor, tag) ← readProperties
          let number ← openAnchor anchor
          let node ← match ← peek with
            | some (.scalar text style) =>
                skip
                pure (.scalar text style tag)
            | some .flowSequenceStart =>
                skip
                pure (.sequence (← readFlowItems steps true) tag)
            | some .flowMappingStart =>
                skip
                pure (.mapping (← readFlowMembers steps true) tag)
            | some .blockEntry =>
                if unindented then pure (.sequence (← readUnindentedItems steps) tag)
                else if anchor.isSome || tag.isSome then pure (blank tag)
                else failure
            | some .blockSequenceStart =>
                if block then
                  skip
                  pure (.sequence (← readBlockItems steps) tag)
                else if anchor.isSome || tag.isSome then pure (blank tag)
                else failure
            | some .blockMappingStart =>
                if block then
                  skip
                  pure (.mapping (← readBlockMembers steps) tag)
                else if anchor.isSome || tag.isSome then pure (blank tag)
                else failure
            | _ =>
                if anchor.isSome || tag.isSome then pure (blank tag) else failure
          closeAnchor number node

/-- Takes a node, unless one of the given tokens comes, before which nothing is
written. -/
def readNodeBefore : Nat → (ends : List Token) → (block unindented : Bool) → Reading Node
  | 0, _, _, _ => failure
  | steps + 1, ends, block, unindented => do
      if (← peek).any ends.contains then return blank none
      else readNode steps block unindented

/-- Takes the items of a block sequence and its end. -/
def readBlockItems : Nat → Reading (List Node)
  | 0 => failure
  | steps + 1 => do
      if ← accept .blockEntry then
        let item ← readNodeBefore steps [.blockEntry, .blockEnd] true false
        return item :: (← readBlockItems steps)
      else
        guard (← accept .blockEnd)
        return []

/-- Takes the items of a sequence without indentation of its own. -/
def readUnindentedItems : Nat → Reading (List Node)
  | 0 => failure
  | steps + 1 => do
      if ← accept .blockEntry then
        let item ← readNodeBefore steps [.blockEntry, .key, .value, .blockEnd] true false
        return item :: (← readUnindentedItems steps)
      else
        return []

/-- Takes the members of a block mapping and its end. -/
def readBlockMembers : Nat → Reading (List (Node × Node))
  | 0 => failure
  | steps + 1 => do
      if ← accept .key then
        let key ← readNodeBefore steps [.key, .value, .blockEnd] true true
        let value ←
          if ← accept .value then readNodeBefore steps [.key, .value, .blockEnd] true true
          else pure (blank none)
        return (key, value) :: (← readBlockMembers steps)
      else
        guard (← accept .blockEnd)
        return []

/-- Takes the items of a sequence in brackets and its end. -/
def readFlowItems : Nat → (first : Bool) → Reading (List Node)
  | 0, _ => failure
  | steps + 1, first => do
      if ← accept .flowSequenceEnd then return []
      else
        unless first do guard (← accept .flowEntry)
        if ← accept .key then
          let pair ← readFlowPair steps
          return pair :: (← readFlowItems steps false)
        else if ← accept .flowSequenceEnd then return []
        else
          let item ← readNode steps false false
          return item :: (← readFlowItems steps false)

/-- Takes a key and its value that are an item of a sequence in brackets. -/
def readFlowPair : Nat → Reading Node
  | 0 => failure
  | steps + 1 => do
      let key ←
        if (← peek).any [Token.value, .flowEntry, .flowSequenceEnd].contains then
          skip
          pure (blank none)
        else readNode steps false false
      let value ←
        if ← accept .value then readNodeBefore steps [.flowEntry, .flowSequenceEnd] false false
        else pure (blank none)
      return .mapping [(key, value)] none

/-- Takes the members of a mapping in braces and its end. -/
def readFlowMembers : Nat → (first : Bool) → Reading (List (Node × Node))
  | 0, _ => failure
  | steps + 1, first => do
      if ← accept .flowMappingEnd then return []
      else
        unless first do guard (← accept .flowEntry)
        if ← accept .key then
          let key ← readNodeBefore steps [.value, .flowEntry, .flowMappingEnd] false false
          let value ←
            if ← accept .value then
              readNodeBefore steps [.flowEntry, .flowMappingEnd] false false
            else pure (blank none)
          return (key, value) :: (← readFlowMembers steps false)
        else if ← accept .flowMappingEnd then return []
        else
          let key ← readNode steps false false
          return (key, blank none) :: (← readFlowMembers steps false)

end

/-- The handles of tags that need no directive. -/
def defaultHandles : List (String × String) :=
  [("!", "!"), ("!!", "tag:yaml.org,2002:")]

/-- Takes the directives before a document; there is at most one version and one
directive for each handle. -/
def readDirectives : List Token → Option (Nat × Nat) → List (String × String) →
    Option (List (String × String) × List Token)
  | .versionDirective major minor :: tokens, version, handles =>
      if version.isNone && major = 1 && (minor = 1 || minor = 2) then
        readDirectives tokens (some (major, minor)) handles
      else none
  | .tagDirective handle stem :: tokens, version, handles =>
      if handles.any (·.1 = handle) then none
      else readDirectives tokens version ((handle, stem) :: handles)
  | tokens, _, handles => some (handles, tokens)

/-- Takes the node of a document, which may be missing after an explicit beginning. -/
def readDocument (handles : List (String × String)) (explicit : Bool) (tokens : List Token) :
    Option (Node × List Token) := do
  let isMissing :=
    match tokens.head? with
    | none => true
    | some (.versionDirective _ _) => true
    | some (.tagDirective _ _) => true
    | some token => token = .documentStart || token = .documentEnd
  if explicit && isMissing then return (blank none, tokens)
  else
    let (node, context) ←
      (readNode (4 * tokens.length + 8) true false).run
        { tokens, handles := handles ++ defaultHandles }
    return (node, context.tokens)

/-- The document that tokens make up, the only one; an empty text has none. -/
def ofTokens (tokens : List Token) : Option (Option Node) := do
  if tokens.isEmpty then return none
  else
    let (handles, rest) ← readDirectives tokens none []
    let explicit := rest.head? = some .documentStart
    guard (explicit || rest.length = tokens.length)
    let (node, rest) ← readDocument handles explicit (if explicit then rest.drop 1 else rest)
    guard (rest.all (· = .documentEnd))
    return some node

/-- The document of a text. -/
def ofText? (text : String) : Option (Option Node) := do
  ofTokens (← Token.scan text)

end Node

end EscapePlan.Yaml
