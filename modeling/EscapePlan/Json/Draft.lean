import EscapePlan.Json.Token

/-!
# Drafts: JSON texts as far as they can be read

A draft is the value of a JSON text together with the place where the text
breaks off, if it does.  A decoder walks a draft in the order of the text, so the
first fault it meets is the first fault of the text, whether it lies in the
notation or in the shape of a value.

* `Draft.ofTokens` builds the draft; a container that lost its end is marked as
  not closed, and a member that lost its value holds `malformed`.
* `Draft.isIgnorable` is the condition under which a value may be skipped, and
  `Draft.isComplete` the stricter one under which it may be kept for later.
-/

namespace EscapePlan

/-- A JSON value as far as its text can be read. -/
inductive Draft where
  | null
  | bool (value : Bool)
  | number (value : Number)
  /-- A string; `none` when its surrogates do not pair up. -/
  | text (value : Option String)
  | array (items : List Draft) (closed : Bool)
  | object (members : List (Option String × Draft)) (closed : Bool)
  /-- No value can be read here. -/
  | malformed
  deriving Inhabited

namespace Draft

/-- A container whose end has not been reached. -/
inductive Frame where
  /-- An array and its items, the latest first. -/
  | items (before : List Draft)
  /-- An object and its members, the latest first. -/
  | members (before : List (Option String × Draft))
  /-- An object inside a member of the given name. -/
  | member (before : List (Option String × Draft)) (name : Option String)

/-- What the grammar allows next. -/
inductive Awaiting where
  | value
  | firstItem
  | separator
  | firstName
  | name
  | colon
  deriving DecidableEq, Repr

/-- The value of a token that is a value by itself. -/
def ofScalar? : Token → Option Draft
  | .null => some .null
  | .bool value => some (.bool value)
  | .number value => some (.number value)
  | .text value => some (.text value)
  | _ => none

/-- Ends all open containers where the text breaks off. -/
def abandon : Option Draft → List Frame → Draft
  | inner, [] => inner.getD .malformed
  | inner, .items before :: outer =>
      abandon (some (.array (before.reverse ++ inner.toList) false)) outer
  | _, .members before :: outer => abandon (some (.object before.reverse false)) outer
  | inner, .member before name :: outer =>
      abandon (some (.object (before.reverse ++ [(name, inner.getD .malformed)]) false)) outer

/-- Puts a finished value into the innermost open container. -/
def deliver (draft : Draft) : List Frame → List Frame
  | .items before :: outer => .items (draft :: before) :: outer
  | .member before name :: outer => .members ((name, draft) :: before) :: outer
  | frames => frames

/-- Builds the draft at the front of a token sequence inside the given open
containers, and answers the tokens that follow it. -/
def build : List Token → Awaiting → List Frame → Draft × List Token
  | [], _, frames => (abandon none frames, [])
  | token :: tokens, awaiting, frames =>
      let finish (draft : Draft) (outer : List Frame) : Draft × List Token :=
        match outer with
        | [] => (draft, tokens)
        | outer => build tokens .separator (deliver draft outer)
      match awaiting, token, frames with
      | .firstItem, .closeArray, .items before :: outer =>
          finish (.array before.reverse true) outer
      | .separator, .closeArray, .items before :: outer =>
          finish (.array before.reverse true) outer
      | .firstName, .closeObject, .members before :: outer =>
          finish (.object before.reverse true) outer
      | .separator, .closeObject, .members before :: outer =>
          finish (.object before.reverse true) outer
      | .separator, .comma, .items before :: outer =>
          build tokens .value (.items before :: outer)
      | .separator, .comma, .members before :: outer =>
          build tokens .name (.members before :: outer)
      | .firstName, .text name, .members before :: outer =>
          build tokens .colon (.member before name :: outer)
      | .name, .text name, .members before :: outer =>
          build tokens .colon (.member before name :: outer)
      | .colon, .colon, frames => build tokens .value frames
      | .separator, _, frames => (abandon none frames, tokens)
      | .firstName, _, frames => (abandon none frames, tokens)
      | .name, _, frames => (abandon none frames, tokens)
      | .colon, _, frames => (abandon none frames, tokens)
      | _, .openArray, frames => build tokens .firstItem (.items [] :: frames)
      | _, .openObject, frames => build tokens .firstName (.members [] :: frames)
      | _, token, frames =>
          match ofScalar? token with
          | some draft => finish draft frames
          | none => (abandon none frames, tokens)

/-- The draft of a token sequence, and whether nothing follows the value. -/
def ofTokens (tokens : List Token) : Draft × Bool :=
  let (draft, remaining) := build tokens .value []
  (draft, remaining.isEmpty)

/-- The draft of a text, and whether nothing follows the value. -/
def read (input : String) : Draft × Bool :=
  ofTokens (Token.scan input.toList)

mutual

/-- Whether a value may be skipped: its notation is sound as far as it can be
told without looking at what its strings and numerals denote. -/
def isIgnorable : Draft → Bool
  | .malformed => false
  | .array items closed => areIgnorable items && closed
  | .object members closed => membersIgnorable members && closed
  | _ => true

/-- Whether all items may be skipped. -/
def areIgnorable : List Draft → Bool
  | [] => true
  | item :: items => isIgnorable item && areIgnorable items

/-- Whether all members may be skipped. -/
def membersIgnorable : List (Option String × Draft) → Bool
  | [] => true
  | (_, value) :: members => isIgnorable value && membersIgnorable members

end

mutual

/-- Whether a value may be kept for later: every string and numeral in it denotes
something, and its containers nest at most `depth` deep. -/
def isComplete (depth : Nat) : Draft → Bool
  | .malformed => false
  | .number .excessive => false
  | .text value => value.isSome
  | .array items closed => decide (0 < depth) && areComplete (depth - 1) items && closed
  | .object members closed => decide (0 < depth) && membersComplete (depth - 1) members && closed
  | _ => true

/-- Whether all items may be kept for later. -/
def areComplete (depth : Nat) : List Draft → Bool
  | [] => true
  | item :: items => isComplete depth item && areComplete depth items

/-- Whether all members may be kept for later. -/
def membersComplete (depth : Nat) : List (Option String × Draft) → Bool
  | [] => true
  | (name, value) :: members =>
      name.isSome && isComplete depth value && membersComplete depth members

end

end Draft

end EscapePlan
