import EscapePlan.Yaml.Node
import EscapePlan.Yaml.Word

/-!
# YAML documents as drafts

What a plain scalar is depends on what its place in a document is for: in a list of
texts, `5` is a text.  A role says what a place is for, and `Node.toDraft?` turns a node
into the draft that the role wants.  Whether the draft is a value of the wanted type is
decided by whoever decodes it; members that no one asks for are left out.

The fields of a variant are taken in as they are, since they may come before the tag
that says what they are for.  There a number may stand in place of a name: it counts the
fields, or the kinds of a value that has several.
-/

namespace EscapePlan.Yaml

/-- What a place in a document is for. -/
inductive Role where
  | natural
  | flag
  | text
  | list (item : Role)
  /-- Named fields; nothing may stand in place of an optional record. -/
  | record (isOptional : Bool) (fields : List (String × Role))
  /-- Fields that a tag among them names, where the tag is known, and the kinds that the
  value of a field may have. -/
  | variant (fieldsOf : String → Option (List String)) (kinds : List String)

/-- How many collections may lie within one another. -/
def depthLimit : Nat :=
  128

/-- A tag of the core schema. -/
def coreTag (name : String) : String :=
  "tag:yaml.org,2002:" ++ name

namespace Node

/-- Whether nothing is written where a node stands. -/
def isBlank : Node → Bool
  | .scalar text style _ => text.isEmpty && style = .plain
  | _ => false

/-- Whether a node stands in place of an optional value that is missing; nothing if it
claims to and does not. -/
def isMissing? : Node → Option Bool
  | .scalar text .plain none => some (text.isEmpty || Word.isNull text)
  | .scalar text .plain (some tag) =>
      if tag = coreTag "null" then (if Word.isNull text then some true else none)
      else some false
  | _ => some false

/-- Whether a scalar is read as a word where a value of a core tag is wanted. -/
def isWordOf (name : String) (style : Style) (tag : Option String) : Bool :=
  style = .plain || (style = .literal && tag = some (coreTag name))

/-- A node that stands for a number. -/
def toNatural? : Node → Option Draft
  | .scalar text style tag => do
      guard (isWordOf "int" style tag)
      return .number (.integer (← Word.natural? text))
  | _ => none

/-- A node that stands for a truth value. -/
def toFlag? : Node → Option Draft
  | .scalar text style tag => do
      guard (isWordOf "bool" style tag)
      return .bool (← Word.bool? text)
  | _ => none

/-- The text of a scalar. -/
def toText? : Node → Option String
  | .scalar text _ _ => some text
  | _ => none

/-- Whether a tag is one that only its document knows. -/
def isLocal (tag : Option String) : Bool :=
  tag.any fun tag => tag.toList.head? = some '!'

/-- A scalar whose place does not say what it is. -/
def scalarContent? (text : String) (style : Style) : Option String → Option Draft
  | none => if style = .plain then Word.meaning? text else some (.text (some text))
  | some tag =>
      if tag = coreTag "bool" then (Word.bool? text).map .bool
      else if tag = coreTag "int" then do
        let value ← Word.integer? text
        guard (Word.isShort value)
        return .number (.integer value)
      else if tag = coreTag "float" then (Word.float? text).map fun value => .number (.float value)
      else if tag = coreTag "null" then (if Word.isNull text then some .null else none)
      else some (.text (some text))

/-- What a key that has been taken in names, given what numbers name. -/
def keyName (names : List String) : Draft → Option String
  | .text name => name
  | .number (.integer position) => if position < 0 then none else names[position.toNat]?
  | _ => none

mutual

/-- A node whose place does not say what it is, given the kinds that numbers name and how
many collections may still be entered. -/
def toContent? (kinds : List String) (depth : Nat) : Node → Option Draft
  | .cycle => none
  | .scalar text style tag => if isLocal tag then none else scalarContent? text style tag
  | .sequence items tag => do
      guard (!isLocal tag && 0 < depth)
      return .array (← toContents? kinds (depth - 1) items) true
  | .mapping members tag => do
      guard (!isLocal tag && 0 < depth)
      return .object (← membersContent? kinds (depth - 1) members) true

/-- Nodes whose place does not say what they are. -/
def toContents? (kinds : List String) (depth : Nat) : List Node → Option (List Draft)
  | [] => some []
  | item :: items => do
      let draft ← toContent? kinds depth item
      return draft :: (← toContents? kinds depth items)

/-- Members of a mapping whose place does not say what they are. -/
def membersContent? (kinds : List String) (depth : Nat) :
    List (Node × Node) → Option (List (Option String × Draft))
  | [] => some []
  | (key, value) :: members => do
      let key ← toContent? kinds depth key
      let value ← toContent? kinds depth value
      return (keyName kinds key, value) :: (← membersContent? kinds depth members)

end

/-- A member of a variant: its tag, or a field that has been taken in. -/
inductive Member where
  | tag (text : String)
  | field (key value : Draft)

/-- The members of a variant. -/
def variantMembers? (kinds : List String) (depth : Nat) :
    List (Node × Node) → Option (List Member)
  | [] => some []
  | (key, value) :: members => do
      let key ← toContent? kinds depth key
      let member ←
        match key with
        | .text (some "tag") => (toText? value).map .tag
        | key => (toContent? kinds depth value).map (.field key)
      return member :: (← variantMembers? kinds depth members)

/-- The fields of a variant whose tag is known, without those it does not have; a key
must be a text or a number. -/
def knownFields? (fields : List String) : List Member → Option (List (Option String × Draft))
  | [] => some []
  | .tag _ :: members => knownFields? fields members
  | .field key value :: members => do
      let rest ← knownFields? fields members
      match key with
      | .text (some name) => return if fields.contains name then (some name, value) :: rest else rest
      | .number (.integer position) =>
          guard (0 ≤ position)
          return match fields[position.toNat]? with
            | some name => (some name, value) :: rest
            | none => rest
      | _ => none

/-- The tags among the members of a variant. -/
def tagsOf (members : List Member) : List String :=
  members.filterMap fun member =>
    match member with
    | .tag text => some text
    | .field _ _ => none

/-- A variant as a draft. -/
def toVariant? (fieldsOf : String → Option (List String)) (kinds : List String) (depth : Nat) :
    Node → Option Draft
  | .mapping members tag => do
      guard (!isLocal tag && 0 < depth)
      let members ← variantMembers? kinds (depth - 1) members
      match tagsOf members with
      | [text] =>
          let fields ←
            match fieldsOf text with
            | none => some []
            | some fields => knownFields? fields members
          return .object ((some "tag", .text (some text)) :: fields) true
      | _ => none
  | .sequence (first :: items) tag => do
      guard (!isLocal tag && 0 < depth)
      let text ← toText? first
      return .array (.text (some text) :: (← toContents? kinds (depth - 1) items)) true
  | _ => none

mutual

/-- A node as the draft that its role wants, given how many collections may still be
entered. -/
def toDraftWithin? (depth : Nat) (role : Role) (node : Node) : Option Draft :=
  match role, node with
  | .natural, node => toNatural? node
  | .flag, node => toFlag? node
  | .text, node => (toText? node).map fun text => .text (some text)
  | .variant fieldsOf kinds, node => toVariant? fieldsOf kinds depth node
  | .list role, .sequence items _ => do
      guard (0 < depth)
      return .array (← itemsToDrafts? (depth - 1) role items) true
  | .list _, node => if node.isBlank then some (.array [] true) else none
  | .record _ fields, .sequence items _ => do
      guard (0 < depth && items.length ≤ fields.length)
      return .array (← placesToDrafts? (depth - 1) (fields.map (·.2)) items) true
  | .record _ fields, .mapping members _ => do
      guard (0 < depth)
      return .object (← membersToDrafts? (depth - 1) fields members) true
  | .record isOptional _, node => do
      if isOptional && (← node.isMissing?) then return .null
      else if node.isBlank then return .object [] true
      else none

/-- Items that all have one role. -/
def itemsToDrafts? (depth : Nat) (role : Role) : List Node → Option (List Draft)
  | [] => some []
  | item :: items => do
      let draft ← toDraftWithin? depth role item
      return draft :: (← itemsToDrafts? depth role items)

/-- Items that have roles by their places. -/
def placesToDrafts? (depth : Nat) (roles : List Role) : List Node → Option (List Draft)
  | [] => some []
  | item :: items =>
      match roles with
      | [] => none
      | role :: roles => do
          let draft ← toDraftWithin? depth role item
          return draft :: (← placesToDrafts? depth roles items)

/-- Members that have roles by their names; those without a role are left out. -/
def membersToDrafts? (depth : Nat) (fields : List (String × Role)) :
    List (Node × Node) → Option (List (Option String × Draft))
  | [] => some []
  | (key, value) :: members => do
      let name ← toText? key
      let rest ← membersToDrafts? depth fields members
      match fields.find? (·.1 = name) with
      | none => return rest
      | some (_, role) => return (some name, ← toDraftWithin? depth role value) :: rest

end

/-- A node as the draft that its role wants. -/
def toDraft? (role : Role) (node : Node) : Option Draft :=
  toDraftWithin? depthLimit role node

end Node

/-- Reads the document of a text as the draft that a role wants.  An empty text stands for
a document in which nothing is written. -/
def read? (role : Role) (text : String) : Option Draft := do
  let node ← Node.ofText? text
  (node.getD (.blank none)).toDraft? role

end EscapePlan.Yaml
