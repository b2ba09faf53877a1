import EscapePlan.Proofs.Json.Edits
import EscapePlan.Proofs.Json.Notation

/-!
# Drafts that can be written

A sound draft has a notation if each of its tokens can be written; the tokens of any notation can.
So a draft that has been edited can be written if the draft could and what has been put in can.
-/

namespace EscapePlan

namespace Token

/-- A token can be written, in front of a blank. -/
def Writable (token : Token) : Prop :=
  ∃ chars, ∀ rest tokens, Lexes rest tokens → Lexes (chars ++ ' ' :: rest) (token :: tokens)

theorem Writable.of_sign {char : Char} {token : Token} (sign : ofSign? char = some token) :
    token.Writable :=
  ⟨[char], fun _ _ lexes => .sign sign (.blank rfl lexes)⟩

/-- Whatever stands in a text can be written. -/
theorem Lexes.writable {text : List Char} {tokens : List Token} (lexes : Lexes text tokens) :
    ∀ token ∈ tokens, token.Writable := by
  induction lexes with
  | nil => exact fun token listed => absurd listed List.not_mem_nil
  | blank _ _ inductionHypothesis => exact inductionHypothesis
  | sign sign _ inductionHypothesis =>
      exact List.forall_mem_cons.2 ⟨.of_sign sign, inductionHypothesis⟩
  | @lexeme chars _ token _ lexeme _ inductionHypothesis =>
      refine List.forall_mem_cons.2 ⟨⟨chars, fun rest tokens lexes => ?_⟩, inductionHypothesis⟩
      have again : Lexeme chars (' ' :: rest) token := by
        cases lexeme with
        | null => exact .null _
        | true => exact .true _
        | false => exact .false _
        | text _ written => exact .text _ written
        | number written _ =>
            refine .number written fun char first => ?_
            cases first
            decide
      exact .lexeme again (.blank rfl lexes)

/-- Tokens that can be written make up a text. -/
theorem exists_lexes {tokens : List Token} (writable : ∀ token ∈ tokens, token.Writable) :
    ∃ text, Lexes text tokens := by
  induction tokens with
  | nil => exact ⟨[], .nil⟩
  | cons token tokens inductionHypothesis =>
      obtain ⟨⟨chars, writes⟩, later⟩ := List.forall_mem_cons.1 writable
      obtain ⟨text, lexes⟩ := inductionHypothesis later
      exact ⟨_, writes text tokens lexes⟩

end Token

namespace Draft

open Token

/-- All tokens of a draft can be written. -/
def Spelled (draft : Draft) : Prop :=
  ∀ token ∈ draft.tokens, token.Writable

variable {draft : Draft}

/-- A sound draft has a notation if and only if its tokens can be written. -/
theorem exists_notates_iff :
    (∃ text, Notates text draft) ↔ draft.isIgnorable = true ∧ draft.Spelled := by
  constructor
  · rintro ⟨text, lexes, sound⟩
    exact ⟨sound, lexes.writable⟩
  · rintro ⟨sound, spelled⟩
    obtain ⟨chars, lexes⟩ := exists_lexes spelled
    exact ⟨String.ofList chars, by rwa [String.toList_ofList], sound⟩

theorem writable_tokensOfItems_iff {items : List Draft} :
    (∀ token ∈ tokensOfItems items, token.Writable) ↔ ∀ item ∈ items, item.Spelled := by
  have comma : Writable .comma := .of_sign (rfl : ofSign? ',' = _)
  induction items with
  | nil => simp [tokensOfItems]
  | cons item items inductionHypothesis =>
      cases items with
      | nil => simp [tokensOfItems, Spelled]
      | cons second items =>
          rw [tokensOfItems, List.forall_mem_append, List.forall_mem_cons, List.forall_mem_cons]
          exact and_congr_right fun _ => (and_iff_right comma).trans inductionHypothesis

theorem writable_tokensOfMembers_iff {members : List (Option String × Draft)} :
    (∀ token ∈ tokensOfMembers members, token.Writable) ↔
      ∀ member ∈ members, Writable (.text member.1) ∧ member.2.Spelled := by
  have comma : Writable .comma := .of_sign (rfl : ofSign? ',' = _)
  have colon : Writable .colon := .of_sign (rfl : ofSign? ':' = _)
  induction members with
  | nil => simp [tokensOfMembers]
  | cons member members inductionHypothesis =>
      cases members with
      | nil => simp [tokensOfMembers, Spelled, colon]
      | cons second members =>
          rw [tokensOfMembers, List.forall_mem_append, List.forall_mem_cons, List.forall_mem_cons,
            List.forall_mem_cons, List.forall_mem_cons]
          refine and_congr ?_ ((and_iff_right comma).trans inductionHypothesis)
          exact and_congr_right fun _ => and_iff_right colon

theorem spelled_array_iff {items : List Draft} {closed : Bool} :
    (Draft.array items closed).Spelled ↔ ∀ item ∈ items, item.Spelled := by
  have opens : Writable .openArray := .of_sign (rfl : ofSign? '[' = _)
  have closes : Writable .closeArray := .of_sign (rfl : ofSign? ']' = _)
  rw [Spelled, tokens, List.forall_mem_append, List.forall_mem_cons, writable_tokensOfItems_iff]
  simp [opens, closes]

theorem spelled_object_iff {members : List (Option String × Draft)} {closed : Bool} :
    (Draft.object members closed).Spelled ↔
      ∀ member ∈ members, Writable (.text member.1) ∧ member.2.Spelled := by
  have opens : Writable .openObject := .of_sign (rfl : ofSign? '\x7b' = _)
  have closes : Writable .closeObject := .of_sign (rfl : ofSign? '\x7d' = _)
  rw [Spelled, tokens, List.forall_mem_append, List.forall_mem_cons, writable_tokensOfMembers_iff]
  simp [opens, closes]

/-- What is printed can be written. -/
theorem spelled_toDraft {value : Json} (exact : value.Exact)
    (sound : value.toDraft.isIgnorable = true) :
    value.toDraft.Spelled :=
  (exists_notates_iff.1 ⟨value.print, notates_iff.2 ⟨read_print exact, sound⟩⟩).2

theorem spelled_text (value : String) : (Draft.text (some value)).Spelled :=
  @spelled_toDraft (.text value) trivial rfl

theorem writable_name (name : String) : Writable (.text (some name)) :=
  spelled_text name _ (List.mem_singleton.2 rfl)

/-- A sound value of sixty-four bit integers can be written. -/
theorem Nests.spelled {depth : Nat} (nests : draft.Nests depth) : draft.Spelled := by
  induction nests with
  | null => exact @spelled_toDraft .null trivial rfl
  | bool _ value => exact @spelled_toDraft (.bool value) trivial rfl
  | @integer _ value lowest highest =>
      refine @spelled_toDraft (.integer value) ⟨lowest, ?_⟩ rfl
      exact Int.lt_of_le_of_lt highest (by decide)
  | text _ value => exact spelled_text value
  | array _ inductionHypothesis => exact spelled_array_iff.2 inductionHypothesis
  | object named _ inductionHypothesis =>
      refine spelled_object_iff.2 fun member listed => ⟨?_, inductionHypothesis member listed⟩
      obtain ⟨name, same⟩ := Option.isSome_iff_exists.1 (named member listed)
      rw [same]
      exact writable_name name

/-! ## Edits of what can be written -/

/-- What could be written before an edit can be written after it. -/
def StaysSpelled (edit : Draft → Draft → Prop) : Prop :=
  ∀ one two, edit one two → one.Spelled → two.Spelled

variable {one two : List (Option String × Draft)}

theorem spelled_membersEdit {known optional : List String}
    (edited : MembersEdit known optional one two)
    (spelled : (Draft.object one true).Spelled) : (Draft.object two true).Spelled := by
  rw [spelled_object_iff] at spelled ⊢
  cases edited with
  | permute permutes => exact fun member listed => spelled member (permutes.mem_iff.2 listed)
  | @insert before after name draft _ nests =>
      rw [List.forall_mem_append] at spelled ⊢
      exact ⟨spelled.1, List.forall_mem_cons.2 ⟨⟨writable_name name, nests.spelled⟩, spelled.2⟩⟩
  | remove before after =>
      rw [List.forall_mem_append, List.forall_mem_cons] at spelled
      exact List.forall_mem_append.2 ⟨spelled.1, spelled.2.2⟩

theorem staysSpelled_itemEdit {edit : Draft → Draft → Prop} (stays : StaysSpelled edit) :
    StaysSpelled (ItemEdit edit) := by
  rintro _ _ ⟨before, after, edited⟩ spelled
  rw [spelled_array_iff, List.forall_mem_append, List.forall_mem_cons] at spelled ⊢
  exact ⟨spelled.1, stays _ _ edited spelled.2.1, spelled.2.2⟩

theorem staysSpelled_recordEdit {names optional : List String} {edit : String → Draft → Draft → Prop}
    (stays : ∀ name, StaysSpelled (edit name)) : StaysSpelled (RecordEdit names optional edit) := by
  rintro _ _ (edited | ⟨before, after, -, edited⟩ | ⟨before, after, -, edited⟩) spelled
  · exact spelled_membersEdit edited spelled
  · rw [spelled_object_iff, List.forall_mem_append, List.forall_mem_cons] at spelled ⊢
    exact ⟨spelled.1, ⟨spelled.2.1.1, stays _ _ _ edited spelled.2.1.2⟩, spelled.2.2⟩
  · rw [spelled_array_iff, List.forall_mem_append, List.forall_mem_cons] at spelled ⊢
    exact ⟨spelled.1, stays _ _ _ edited spelled.2.1, spelled.2.2⟩

end Draft

end EscapePlan
