import EscapePlan.Json.Draft
import EscapePlan.Proofs.Json.Tokens

/-!
# The draft of a printed value

Reading the text of a value gives the draft of the value, with nothing left over:
`Draft.read_print`.  The tokens of a value are read wherever a value may stand, so that containers
are read item by item.
-/

namespace EscapePlan

namespace Json

mutual

/-- The draft of a value. -/
def toDraft : Json → Draft
  | .null => .null
  | .bool value => .bool value
  | .integer value => .number (.integer value)
  | .float value => .number (.float value)
  | .text value => .text (some value)
  | .array items => .array (draftsOfItems items) true
  | .object members => .object (draftsOfMembers members) true

def draftsOfItems : List Json → List Draft
  | [] => []
  | item :: items => item.toDraft :: draftsOfItems items

def draftsOfMembers : List (String × Json) → List (Option String × Draft)
  | [] => []
  | (name, value) :: members => (some name, value.toDraft) :: draftsOfMembers members

end

end Json

namespace Draft

/-- Goes on behind a finished value. -/
def resume (draft : Draft) (tokens : List Token) : List Frame → Draft × List Token
  | [] => (draft, tokens)
  | frame :: outer => build tokens .separator (deliver draft (frame :: outer))

/-- Whether a value may stand next. -/
def Awaiting.Admits (awaiting : Awaiting) : Prop :=
  awaiting = .value ∨ awaiting = .firstItem

section

variable {awaiting : Awaiting}

theorem build_scalar (admits : awaiting.Admits) {token : Token} {draft : Draft}
    (scalar : ofScalar? token = some draft) (tokens : List Token) (frames : List Frame) :
    build (token :: tokens) awaiting frames = draft.resume tokens frames := by
  obtain rfl | rfl := admits <;> cases token <;> cases scalar <;> cases frames <;> rfl

theorem build_openArray (admits : awaiting.Admits) (tokens : List Token) (frames : List Frame) :
    build (.openArray :: tokens) awaiting frames = build tokens .firstItem (.items [] :: frames) := by
  obtain rfl | rfl := admits <;> rfl

theorem build_openObject (admits : awaiting.Admits) (tokens : List Token) (frames : List Frame) :
    build (.openObject :: tokens) awaiting frames =
      build tokens .firstName (.members [] :: frames) := by
  obtain rfl | rfl := admits <;> rfl

end

theorem build_closeArray (tokens : List Token) (before : List Draft) (outer : List Frame) :
    build (.closeArray :: tokens) .separator (.items before :: outer) =
      (Draft.array before.reverse true).resume tokens outer := by
  cases outer <;> rfl

theorem build_closeObject (tokens : List Token) (before : List (Option String × Draft))
    (outer : List Frame) :
    build (.closeObject :: tokens) .separator (.members before :: outer) =
      (Draft.object before.reverse true).resume tokens outer := by
  cases outer <;> rfl

mutual

/-- Where a value may stand, the tokens of a value are read as its draft. -/
theorem build_tokens {awaiting : Awaiting} (admits : awaiting.Admits) (rest : List Token)
    (frames : List Frame) : (value : Json) →
      build (value.tokens rest) awaiting frames = value.toDraft.resume rest frames
  | .null => build_scalar admits rfl rest frames
  | .bool _ => build_scalar admits rfl rest frames
  | .integer _ => build_scalar admits rfl rest frames
  | .float _ => build_scalar admits rfl rest frames
  | .text _ => build_scalar admits rfl rest frames
  | .array [] => by
      rw [Json.tokens, build_openArray admits]
      cases frames <;> rfl
  | .array (item :: items) => by
      rw [Json.tokens, build_openArray admits, build_tokens (.inr rfl) _ _ item]
      exact build_tokensOfItems rest [item.toDraft] frames items
  | .object [] => by
      rw [Json.tokens, build_openObject admits]
      cases frames <;> rfl
  | .object ((name, value) :: members) => by
      rw [Json.tokens, build_openObject admits]
      refine (build_tokens (.inl rfl) _ (.member [] (some name) :: frames) value).trans ?_
      exact build_tokensOfMembers rest [(some name, value.toDraft)] frames members

theorem build_tokensOfItems (rest : List Token) (before : List Draft) (outer : List Frame) :
    (items : List Json) →
      build (Json.tokensOfItems items (.closeArray :: rest)) .separator (.items before :: outer) =
        (Draft.array (before.reverse ++ Json.draftsOfItems items) true).resume rest outer
  | [] => by
      rw [Json.tokensOfItems, build_closeArray, Json.draftsOfItems, List.append_nil]
  | item :: items => by
      rw [Json.tokensOfItems, Json.draftsOfItems]
      refine (build_tokens (.inl rfl) _ (.items before :: outer) item).trans ?_
      refine (build_tokensOfItems rest (item.toDraft :: before) outer items).trans ?_
      rw [List.reverse_cons, List.append_assoc, List.singleton_append]

theorem build_tokensOfMembers (rest : List Token) (before : List (Option String × Draft))
    (outer : List Frame) : (members : List (String × Json)) →
      build (Json.tokensOfMembers members (.closeObject :: rest)) .separator
          (.members before :: outer) =
        (Draft.object (before.reverse ++ Json.draftsOfMembers members) true).resume rest outer
  | [] => by
      rw [Json.tokensOfMembers, build_closeObject, Json.draftsOfMembers, List.append_nil]
  | (name, value) :: members => by
      rw [Json.tokensOfMembers, Json.draftsOfMembers]
      refine (build_tokens (.inl rfl) _ (.member before (some name) :: outer) value).trans ?_
      refine (build_tokensOfMembers rest ((some name, value.toDraft) :: before) outer
        members).trans ?_
      rw [List.reverse_cons, List.append_assoc, List.singleton_append]

end

/-- A printed value is read back as its draft, and nothing is left over. -/
theorem read_print {value : Json} (exact : value.Exact) : read value.print = (value.toDraft, true) := by
  rw [read, Json.print, String.toList_ofList, Json.scan_layOut 0 .nil value exact, Token.scan_nil,
    ofTokens, build_tokens (.inl rfl) [] [] value]
  rfl

end Draft

end EscapePlan
