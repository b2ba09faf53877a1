import EscapePlan.Proofs.Json.Drafts
import EscapePlan.Proofs.Json.Lexemes

/-!
# Texts that are notations of drafts

A draft that is sound has tokens of its own, and any text that makes up these tokens is a notation
of it, however it is laid out and however its strings and numerals are written.  Reading a text
gives a sound draft if and only if the text is a notation of that draft: `Notates.read_iff`.
-/

namespace EscapePlan

namespace Draft

mutual

/-- The tokens of a draft. -/
def tokens : Draft → List Token
  | .null => [.null]
  | .bool value => [.bool value]
  | .number value => [.number value]
  | .text value => [.text value]
  | .array items _ => .openArray :: tokensOfItems items ++ [.closeArray]
  | .object members _ => .openObject :: tokensOfMembers members ++ [.closeObject]
  | .malformed => [.stray]

/-- The tokens of items, with commas between them. -/
def tokensOfItems : List Draft → List Token
  | [] => []
  | [item] => item.tokens
  | item :: second :: items => item.tokens ++ .comma :: tokensOfItems (second :: items)

/-- The tokens of members, with commas between them. -/
def tokensOfMembers : List (Option String × Draft) → List Token
  | [] => []
  | [(name, value)] => .text name :: .colon :: value.tokens
  | (name, value) :: second :: members =>
      .text name :: .colon :: value.tokens ++ .comma :: tokensOfMembers (second :: members)

end

/-- A text is a notation of a draft. -/
structure Notates (text : String) (draft : Draft) : Prop where
  lexes : Token.Lexes text.toList draft.tokens
  sound : draft.isIgnorable = true

/-! ## Tokens of a draft are read as the draft -/

mutual

theorem build_ownTokens {awaiting : Awaiting} (admits : awaiting.Admits) (rest : List Token)
    (frames : List Frame) : (draft : Draft) → draft.isIgnorable = true →
      build (draft.tokens ++ rest) awaiting frames = draft.resume rest frames
  | .null, _ => build_scalar admits rfl rest frames
  | .bool _, _ => build_scalar admits rfl rest frames
  | .number _, _ => build_scalar admits rfl rest frames
  | .text _, _ => build_scalar admits rfl rest frames
  | .array [] closed, sound => by
      obtain rfl : closed = true := sound
      rw [tokens, tokensOfItems]
      refine (build_openArray admits _ frames).trans ?_
      cases frames <;> rfl
  | .array (item :: items) closed, sound => by
      rw [isIgnorable, Bool.and_eq_true] at sound
      obtain ⟨sound, rfl⟩ := sound
      rw [tokens, List.cons_append, List.cons_append]
      refine (build_openArray admits _ frames).trans ?_
      rw [List.append_assoc]
      exact build_items (.inr rfl) rest [] frames (item :: items) (by simp) sound
  | .object [] closed, sound => by
      obtain rfl : closed = true := sound
      rw [tokens, tokensOfMembers]
      refine (build_openObject admits _ frames).trans ?_
      cases frames <;> rfl
  | .object (member :: members) closed, sound => by
      rw [isIgnorable, Bool.and_eq_true] at sound
      obtain ⟨sound, rfl⟩ := sound
      rw [tokens, List.cons_append, List.cons_append]
      refine (build_openObject admits _ frames).trans ?_
      rw [List.append_assoc]
      exact build_members (.inl rfl) rest [] frames (member :: members) (by simp) sound
  | .malformed, sound => nomatch sound

theorem build_items {awaiting : Awaiting} (admits : awaiting.Admits) (rest : List Token)
    (before : List Draft) (outer : List Frame) :
    (items : List Draft) → items ≠ [] → areIgnorable items = true →
      build (tokensOfItems items ++ (.closeArray :: rest)) awaiting (.items before :: outer) =
        (Draft.array (before.reverse ++ items) true).resume rest outer
  | [], nonempty, _ => absurd rfl nonempty
  | [item], _, sound => by
      rw [areIgnorable, Bool.and_eq_true] at sound
      rw [tokensOfItems, build_ownTokens admits _ _ item sound.1, ← List.reverse_cons]
      exact build_closeArray rest (item :: before) outer
  | item :: second :: items, _, sound => by
      rw [areIgnorable, Bool.and_eq_true] at sound
      rw [tokensOfItems, List.append_assoc, build_ownTokens admits _ _ item sound.1]
      refine (build_items (.inl rfl) rest (item :: before) outer (second :: items) (by simp)
        sound.2).trans ?_
      rw [List.reverse_cons, List.append_assoc, List.singleton_append]

theorem build_members {awaiting : Awaiting} (admits : awaiting = .firstName ∨ awaiting = .name)
    (rest : List Token) (before : List (Option String × Draft)) (outer : List Frame) :
    (members : List (Option String × Draft)) → members ≠ [] → membersIgnorable members = true →
      build (tokensOfMembers members ++ (.closeObject :: rest)) awaiting (.members before :: outer) =
        (Draft.object (before.reverse ++ members) true).resume rest outer
  | [], nonempty, _ => absurd rfl nonempty
  | [(name, value)], _, sound => by
      rw [membersIgnorable, Bool.and_eq_true] at sound
      have opened : build (tokensOfMembers [(name, value)] ++ (.closeObject :: rest)) awaiting
          (.members before :: outer) =
            build (value.tokens ++ (.closeObject :: rest)) .value (.member before name :: outer) := by
        obtain rfl | rfl := admits <;> rfl
      rw [opened, build_ownTokens (.inl rfl) _ _ value sound.1, ← List.reverse_cons]
      exact build_closeObject rest ((name, value) :: before) outer
  | (name, value) :: second :: members, _, sound => by
      rw [membersIgnorable, Bool.and_eq_true] at sound
      have opened : build (tokensOfMembers ((name, value) :: second :: members) ++
          (.closeObject :: rest)) awaiting (.members before :: outer) =
            build (value.tokens ++ (.comma :: tokensOfMembers (second :: members) ++
              (.closeObject :: rest))) .value (.member before name :: outer) := by
        rw [tokensOfMembers]
        obtain rfl | rfl := admits <;> simp [build]
      rw [opened, build_ownTokens (.inl rfl) _ _ value sound.1]
      refine (build_members (.inr rfl) rest ((name, value) :: before) outer (second :: members)
        (by simp) sound.2).trans ?_
      rw [List.reverse_cons, List.append_assoc, List.singleton_append]

end

/-! ## Tokens that are read as a draft are its own -/

/-- The tokens of open containers up to where a value, or a name, may stand. -/
def ready : List Frame → List Token
  | [] => []
  | .items before :: outer =>
      ready outer ++ .openArray :: before.reverse.flatMap fun item => item.tokens ++ [.comma]
  | .members before :: outer =>
      ready outer ++ .openObject :: before.reverse.flatMap fun member =>
        .text member.1 :: .colon :: member.2.tokens ++ [.comma]
  | .member before name :: outer =>
      ready outer ++ (.openObject :: before.reverse.flatMap fun member =>
        .text member.1 :: .colon :: member.2.tokens ++ [.comma]) ++ [.text name, .colon]

/-- Containers with a place for a value. -/
def Nested (frames : List Frame) : Prop :=
  ∀ before, .members before ∉ frames

/-- The tokens that are behind when something is awaited. -/
inductive Spent : Awaiting → List Frame → List Token → Prop where
  | value {frames : List Frame} : Nested frames → Spent .value frames (ready frames)
  | firstItem {outer : List Frame} : Nested outer →
      Spent .firstItem (.items [] :: outer) (ready (.items [] :: outer))
  | firstName {outer : List Frame} : Nested outer →
      Spent .firstName (.members [] :: outer) (ready (.members [] :: outer))
  | name {before : List (Option String × Draft)} {outer : List Frame} : Nested outer →
      Spent .name (.members before :: outer) (ready (.members before :: outer))
  | colon {before : List (Option String × Draft)} {name : Option String} {outer : List Frame}
      {spent : List Token} : Nested outer → spent ++ [.colon] = ready (.member before name :: outer) →
      Spent .colon (.member before name :: outer) spent
  | item {before : List Draft} {outer : List Frame} {spent : List Token} : Nested outer →
      spent ++ [.comma] = ready (.items before :: outer) →
      Spent .separator (.items before :: outer) spent
  | member {before : List (Option String × Draft)} {outer : List Frame} {spent : List Token} :
      Nested outer → spent ++ [.comma] = ready (.members before :: outer) →
      Spent .separator (.members before :: outer) spent

theorem flatMap_items {items : List Draft} (nonempty : items ≠ []) :
    items.flatMap (fun item => item.tokens ++ [.comma]) = tokensOfItems items ++ [.comma] := by
  induction items with
  | nil => contradiction
  | cons item items inductionHypothesis =>
      cases items with
      | nil => simp [tokensOfItems]
      | cons second items =>
          rw [List.flatMap_cons, inductionHypothesis (by simp), tokensOfItems]
          simp

theorem flatMap_members {members : List (Option String × Draft)} (nonempty : members ≠ []) :
    members.flatMap (fun member => .text member.1 :: .colon :: member.2.tokens ++ [.comma]) =
      tokensOfMembers members ++ [.comma] := by
  induction members with
  | nil => contradiction
  | cons member members inductionHypothesis =>
      cases members with
      | nil => simp [tokensOfMembers]
      | cons second members =>
          rw [List.flatMap_cons, inductionHypothesis (by simp), tokensOfMembers]
          simp

/-- A text that breaks off has no sound draft. -/
theorem abandon_cons (inner : Option Draft) (frame : Frame) (outer : List Frame) :
    (abandon inner (frame :: outer)).isIgnorable = false := by
  induction outer generalizing inner frame with
  | nil => cases frame <;> simp [abandon, isIgnorable]
  | cons next outer inductionHypothesis =>
      cases frame <;> rw [abandon] <;> exact inductionHypothesis _ next

theorem abandon_none (frames : List Frame) : (abandon none frames).isIgnorable = false := by
  cases frames with
  | nil => rfl
  | cons frame outer => exact abandon_cons none frame outer

variable {tokens rest : List Token} {frames outer : List Frame} {draft finished : Draft}

theorem Spent.deliver {frame : Frame} (nested : Nested (frame :: outer)) :
    Spent .separator (Draft.deliver finished (frame :: outer))
      (ready (frame :: outer) ++ finished.tokens) := by
  have outerNested : Nested outer := fun before listed => nested before (List.mem_cons_of_mem _ listed)
  cases frame with
  | items before => exact .item outerNested (by simp [ready])
  | members before => exact absurd List.mem_cons_self (nested before)
  | member before name => exact .member outerNested (by simp [ready])

theorem eq_of_comma_items {before : List Draft} {spent : List Token}
    (opened : spent ++ [.comma] = ready (.items before :: outer)) :
    spent = ready outer ++ .openArray :: tokensOfItems before.reverse := by
  cases before with
  | nil => exact absurd (List.append_inj_right' opened rfl) (by simp)
  | cons item before =>
      rw [ready, flatMap_items (by simp), ← List.cons_append, ← List.append_assoc] at opened
      exact List.append_cancel_right opened

theorem eq_of_comma_members {before : List (Option String × Draft)} {spent : List Token}
    (opened : spent ++ [.comma] = ready (.members before :: outer)) :
    spent = ready outer ++ .openObject :: tokensOfMembers before.reverse := by
  cases before with
  | nil => exact absurd (List.append_inj_right' opened rfl) (by simp)
  | cons member before =>
      rw [ready, flatMap_members (by simp), ← List.cons_append, ← List.append_assoc] at opened
      exact List.append_cancel_right opened

theorem Nested.nil : Nested [] :=
  fun _ => List.not_mem_nil

theorem Nested.items (nested : Nested outer) (before : List Draft) :
    Nested (.items before :: outer) := by
  intro others listed
  rcases List.mem_cons.1 listed with same | listed
  · cases same
  · exact nested others listed

theorem Nested.member (nested : Nested outer) (before : List (Option String × Draft))
    (name : Option String) : Nested (.member before name :: outer) := by
  intro others listed
  rcases List.mem_cons.1 listed with same | listed
  · cases same
  · exact nested others listed

theorem ready_text (before : List (Option String × Draft)) (name : Option String) (outer : List Frame) :
    ready (.members before :: outer) ++ [.text name] ++ [.colon] =
      ready (.member before name :: outer) := by
  simp [ready]

/-- What is read of tokens accounts for all of them. -/
theorem Spent.eq_of_build {awaiting : Awaiting} {spent : List Token}
    (isSpent : Spent awaiting frames spent)
    (built : build tokens awaiting frames = (draft, rest)) (sound : draft.isIgnorable = true) :
    spent ++ tokens = draft.tokens ++ rest := by
  induction tokens generalizing awaiting frames spent with
  | nil =>
      cases built
      rw [abandon_none] at sound
      cases sound
  | cons token tokens inductionHypothesis =>
      -- behind a finished value, either all is read or a container goes on
      have resumed {finished : Draft} {outer : List Frame} (nested : Nested outer)
          (resumes : finished.resume tokens outer = (draft, rest)) :
          ready outer ++ finished.tokens ++ tokens = draft.tokens ++ rest := by
        cases outer with
        | nil =>
            cases resumes
            rfl
        | cons frame outer => exact inductionHypothesis (.deliver nested) resumes
      have broken {remaining : List Token}
          (same : (abandon none frames, remaining) = (draft, rest)) : False := by
        cases same
        rw [abandon_none] at sound
        cases sound
      have started (nested : Nested frames) (admits : awaiting.Admits) (noClose : token ≠ .closeArray) :
          ready frames ++ token :: tokens = draft.tokens ++ rest := by
        cases token with
        | openArray =>
            have goesOn := inductionHypothesis (.firstItem nested)
              ((build_openArray admits tokens frames).symm.trans built)
            simpa [ready] using goesOn
        | openObject =>
            have goesOn := inductionHypothesis (.firstName nested)
              ((build_openObject admits tokens frames).symm.trans built)
            simpa [ready] using goesOn
        | null | bool | number | text =>
            have goesOn := resumed nested ((build_scalar admits rfl tokens frames).symm.trans built)
            simpa [Draft.tokens] using goesOn
        | closeArray => exact absurd rfl noClose
        | closeObject | colon | comma | stray =>
            obtain rfl | rfl := admits <;> exact (broken built).elim
      cases isSpent with
      | value nested =>
          by_cases noClose : token = .closeArray
          · subst noClose
            exact (broken built).elim
          · exact started nested (.inl rfl) noClose
      | @firstItem outer nested =>
          by_cases noClose : token = .closeArray
          · subst noClose
            have closed : build (.closeArray :: tokens) .firstItem (.items [] :: outer) =
                (Draft.array [] true).resume tokens outer := by
              cases outer <;> rfl
            simpa [ready, Draft.tokens, tokensOfItems] using resumed nested (closed.symm.trans built)
          · exact started (nested.items []) (.inr rfl) noClose
      | @firstName outer nested =>
          cases token with
          | closeObject =>
              have closed : build (.closeObject :: tokens) .firstName (.members [] :: outer) =
                  (Draft.object [] true).resume tokens outer := by
                cases outer <;> rfl
              simpa [ready, Draft.tokens, tokensOfMembers] using
                resumed nested (closed.symm.trans built)
          | text name =>
              have goesOn := inductionHypothesis (.colon nested (ready_text [] name outer)) built
              simpa using goesOn
          | openArray | openObject | closeArray | null | bool | number | colon | comma | stray =>
              exact (broken built).elim
      | @name before outer nested =>
          cases token with
          | text name =>
              have goesOn := inductionHypothesis (.colon nested (ready_text before name outer)) built
              simpa using goesOn
          | openArray | openObject | closeArray | closeObject | null | bool | number | colon | comma
          | stray => exact (broken built).elim
      | @colon before name outer _ nested opened =>
          cases token with
          | colon =>
              have goesOn := inductionHypothesis (.value (nested.member before name)) built
              rw [← opened] at goesOn
              simpa using goesOn
          | text | openArray | openObject | closeArray | closeObject | null | bool | number | comma
          | stray => exact (broken built).elim
      | @item before outer _ nested opened =>
          cases token with
          | comma =>
              have goesOn := inductionHypothesis (.value (nested.items before)) built
              rw [← opened] at goesOn
              simpa using goesOn
          | closeArray =>
              rw [eq_of_comma_items opened]
              have goesOn := resumed nested ((build_closeArray tokens before outer).symm.trans built)
              simpa [Draft.tokens] using goesOn
          | text | openArray | openObject | closeObject | null | bool | number | colon | stray =>
              exact (broken built).elim
      | @member before outer _ nested opened =>
          cases token with
          | comma =>
              have goesOn := inductionHypothesis (.name nested) built
              rw [← opened] at goesOn
              simpa using goesOn
          | closeObject =>
              rw [eq_of_comma_members opened]
              have goesOn := resumed nested ((build_closeObject tokens before outer).symm.trans built)
              simpa [Draft.tokens] using goesOn
          | text | openArray | openObject | closeArray | null | bool | number | colon | stray =>
              exact (broken built).elim

mutual

/-- Nothing in a sound draft is stray. -/
theorem stray_notMem_tokens : (draft : Draft) → draft.isIgnorable = true → .stray ∉ draft.tokens
  | .null, _ | .bool _, _ | .number _, _ | .text _, _ => by simp [tokens]
  | .array items _, sound => by
      rw [isIgnorable, Bool.and_eq_true] at sound
      simpa [tokens] using stray_notMem_items items sound.1
  | .object members _, sound => by
      rw [isIgnorable, Bool.and_eq_true] at sound
      simpa [tokens] using stray_notMem_members members sound.1
  | .malformed, sound => nomatch sound

theorem stray_notMem_items : (items : List Draft) → areIgnorable items = true →
    .stray ∉ tokensOfItems items
  | [], _ => by simp [tokensOfItems]
  | [item], sound => by
      rw [areIgnorable, Bool.and_eq_true] at sound
      exact stray_notMem_tokens item sound.1
  | item :: second :: items, sound => by
      rw [areIgnorable, Bool.and_eq_true] at sound
      simpa [tokensOfItems] using
        ⟨stray_notMem_tokens item sound.1, stray_notMem_items (second :: items) sound.2⟩

theorem stray_notMem_members : (members : List (Option String × Draft)) →
    membersIgnorable members = true → .stray ∉ tokensOfMembers members
  | [], _ => by simp [tokensOfMembers]
  | [(name, value)], sound => by
      rw [membersIgnorable, Bool.and_eq_true] at sound
      simpa [tokensOfMembers] using stray_notMem_tokens value sound.1
  | (name, value) :: second :: members, sound => by
      rw [membersIgnorable, Bool.and_eq_true] at sound
      simpa [tokensOfMembers] using
        ⟨stray_notMem_tokens value sound.1, stray_notMem_members (second :: members) sound.2⟩

end

/-- A text is a notation of a draft if and only if it is read as that draft, soundly and wholly. -/
theorem notates_iff {text : String} :
    Notates text draft ↔ read text = (draft, true) ∧ draft.isIgnorable = true := by
  constructor
  · rintro ⟨lexes, sound⟩
    refine ⟨?_, sound⟩
    have built := build_ownTokens (.inl rfl) [] [] draft sound
    rw [List.append_nil] at built
    rw [read, lexes.scan_eq, ofTokens, built]
    rfl
  · rintro ⟨reads, sound⟩
    refine ⟨?_, sound⟩
    rw [Token.lexes_iff (stray_notMem_tokens draft sound)]
    rcases built : build (Token.scan text.toList) .value [] with ⟨found, remaining⟩
    rw [read, ofTokens, built] at reads
    obtain ⟨rfl, whole⟩ := Prod.mk.inj reads
    obtain rfl := List.isEmpty_iff.1 whole
    have accounts := (Spent.value .nil).eq_of_build built sound
    rwa [ready, List.nil_append, List.append_nil] at accounts

end Draft

end EscapePlan
