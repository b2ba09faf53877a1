import EscapePlan.Proofs.Json.Members

/-!
# Edits that a decoder does not see

`KeepsReading` says that what a decoder reads from a draft it also reads from the edited one.  A
record is kept when its members are edited, and when what stands under one of its names is edited so
that the field is kept.

`ReadsSound` says that a decoder reads sound drafts only.
-/

namespace EscapePlan

/-- A decoder reads the same from an edited draft. -/
def KeepsReading {α : Type} (decode : Decoder α) (edit : Draft → Draft → Prop) : Prop :=
  ∀ one two value, edit one two → decode one = .ok value → decode two = .ok value

/-- A decoder reads sound drafts only. -/
def ReadsSound {α : Type} (decode : Decoder α) : Prop :=
  ∀ draft value, decode draft = .ok value → draft.isIgnorable = true

/-- A record is edited: its members, or what stands under one of its names or in its place. -/
inductive RecordEdit (names optional : List String) (edit : String → Draft → Draft → Prop) :
    Draft → Draft → Prop where
  | members {one two : List (Option String × Draft)} : MembersEdit names optional one two →
      RecordEdit names optional edit (.object one true) (.object two true)
  | member (before after : List (Option String × Draft)) {name : String} {one two : Draft} :
      name ∈ names → edit name one two →
      RecordEdit names optional edit (.object (before ++ (some name, one) :: after) true)
        (.object (before ++ (some name, two) :: after) true)
  | item (before after : List Draft) {name : String} {one two : Draft} :
      names[before.length]? = some name → edit name one two →
      RecordEdit names optional edit (.array (before ++ one :: after) true)
        (.array (before ++ two :: after) true)

/-- One item of a list is edited. -/
inductive ItemEdit (edit : Draft → Draft → Prop) : Draft → Draft → Prop where
  | item (before after : List Draft) {one two : Draft} : edit one two →
      ItemEdit edit (.array (before ++ one :: after) true) (.array (before ++ two :: after) true)

namespace Fields

open Draft

/-- Each field is kept by what may be done under its name. -/
def Keep (edit : String → Draft → Draft → Prop) {types : List Type} : Fields types → Prop
  | .nil => True
  | .cons field fields => KeepsReading field.decode (edit field.name) ∧ fields.Keep edit

/-- All fields are read from sound drafts only. -/
def AllSound {types : List Type} : Fields types → Prop
  | .nil => True
  | .cons field fields => ReadsSound field.decode ∧ fields.AllSound

variable {types : List Type} {fields : Fields types} {values : Values types} {name expected : String}
  {edit : String → Draft → Draft → Prop} {one two : Draft}

theorem readMembers_replace {before after : List (Option String × Draft)} (known : name ∈ fields.names)
    (keep : fields.Keep edit) (edited : edit name one two)
    (reads : fields.readMembers (before ++ (some name, one) :: after) true = .ok values) :
    fields.readMembers (before ++ (some name, two) :: after) true = .ok values := by
  induction fields generalizing before after with
  | nil => contradiction
  | cons field fields inductionHypothesis =>
      rw [readMembers_cons_iff, under_append, besides_append] at reads ⊢
      obtain ⟨takes, reads⟩ := reads
      by_cases same : name = field.name
      · subst same
        rw [under_cons_self] at takes ⊢
        rw [besides_cons_self] at reads ⊢
        obtain ⟨earlier, later, decoded⟩ := eq_nil_of_takes takes
        rw [earlier, later]
        exact ⟨.given (keep.1 one two _ edited decoded), reads⟩
      · have other (draft : Draft) : (some name, draft).1 ≠ some field.name :=
          fun equal => same (Option.some.inj equal)
        rw [under_cons_of_ne (other one)] at takes
        rw [besides_cons_of_ne (other one)] at reads
        rw [under_cons_of_ne (other two), besides_cons_of_ne (other two)]
        exact ⟨takes, inductionHypothesis ((List.mem_cons.1 known).resolve_left same) keep.2 reads⟩

theorem readItems_cons_iff {α : Type} {field : Field α} {count : Nat} {item : Draft}
    {items rest : List Draft}
    {value : α} : (Fields.cons field fields).readItems expected true count (item :: items) =
        .ok ((value, values), rest) ↔
      field.decode item = .ok value ∧
        fields.readItems expected true (count + 1) items = .ok (values, rest) := by
  rw [readItems]
  cases field.decode item with
  | error fault => exact iff_of_false nofun fun both => nomatch both.1
  | ok found =>
      show (fields.readItems expected true (count + 1) items >>= fun read =>
        Except.ok ((found, read.1), read.2)) = _ ↔ _
      cases fields.readItems expected true (count + 1) items with
      | error fault => exact iff_of_false nofun fun both => nomatch both.2
      | ok read => simp [bind, Except.bind, Prod.ext_iff, and_assoc]

theorem readItems_replace {before after rest : List Draft} {count : Nat}
    (known : fields.names[before.length]? = some name) (keep : fields.Keep edit)
    (edited : edit name one two)
    (reads : fields.readItems expected true count (before ++ one :: after) = .ok (values, rest)) :
    fields.readItems expected true count (before ++ two :: after) = .ok (values, rest) := by
  induction fields generalizing before count with
  | nil => simp [names] at known
  | cons field fields inductionHypothesis =>
      cases before with
      | nil =>
          obtain rfl : field.name = name := Option.some.inj known
          obtain ⟨decoded, reads⟩ := readItems_cons_iff.1 reads
          exact readItems_cons_iff.2 ⟨keep.1 one two _ edited decoded, reads⟩
      | cons item before =>
          obtain ⟨decoded, reads⟩ := readItems_cons_iff.1 reads
          exact readItems_cons_iff.2 ⟨decoded, inductionHypothesis known keep.2 reads⟩

theorem readMembers_sound {members : List (Option String × Draft)} (sound : fields.AllSound)
    (reads : fields.readMembers members true = .ok values) : membersIgnorable members = true := by
  rw [membersIgnorable_iff]
  induction fields generalizing members with
  | nil => exact fun member listed => (readMembers_nil_iff.1 reads member listed).2
  | cons field fields inductionHypothesis =>
      obtain ⟨takes, reads⟩ := readMembers_cons_iff.1 reads
      intro member listed
      by_cases same : member.1 = some field.name
      · have drafts : member.2 ∈ under field.name members :=
          List.mem_map_of_mem (List.mem_filter.2 ⟨listed, decide_eq_true same⟩)
        generalize under field.name members = all at takes drafts
        cases takes with
        | missing => contradiction
        | given decoded =>
            rw [List.mem_singleton.1 drafts]
            exact sound.1 _ _ decoded
      · exact inductionHypothesis sound.2 reads member (List.mem_filter.2 ⟨listed, decide_eq_true same⟩)

theorem readItems_sound {items : List Draft} {count : Nat} (sound : fields.AllSound)
    (reads : fields.readItems expected true count items = .ok (values, [])) :
    areIgnorable items = true := by
  induction fields generalizing items count with
  | nil =>
      cases reads
      rfl
  | cons field fields inductionHypothesis =>
      cases items with
      | nil => rfl
      | cons item items =>
          obtain ⟨decoded, reads⟩ := readItems_cons_iff.1 reads
          rw [areIgnorable, sound.1 _ _ decoded, inductionHypothesis sound.2 reads]
          rfl

end Fields

/-! ## Records -/

namespace Shape

variable {α : Type} {shape : Shape α} {edit : String → Draft → Draft → Prop}

theorem decode_object_iff {members : List (Option String × Draft)} {value : α} :
    shape.decode (.object members true) = .ok value ↔
      ∃ values, shape.fields.readMembers members true = .ok values ∧ shape.build values = value := by
  rw [decode]
  cases shape.fields.readMembers members true <;> simp [Except.map]

theorem decode_array_iff {items : List Draft} {value : α} :
    shape.decode (.array items true) = .ok value ↔
      ∃ values, shape.fields.readItems shape.expectedLength true 0 items = .ok (values, []) ∧
        shape.build values = value := by
  rw [decode]
  cases shape.fields.readItems shape.expectedLength true 0 items with
  | error fault => exact iff_of_false nofun (by rintro ⟨values, ⟨⟩, -⟩)
  | ok read =>
      obtain ⟨values, rest⟩ := read
      cases rest with
      | nil => exact ⟨fun built => ⟨values, rfl, Except.ok.inj built⟩, by rintro ⟨_, ⟨⟩, rfl⟩; rfl⟩
      | cons => exact iff_of_false nofun (by rintro ⟨values, ⟨⟩, -⟩)

/-- A record is read the same after it has been edited. -/
theorem keeps (distinct : shape.fields.names.Nodup) (lenient : shape.fields.Lenient)
    (keep : shape.fields.Keep edit) :
    KeepsReading shape.decode (RecordEdit shape.fields.names shape.fields.optional edit) := by
  intro one two value edited decoded
  cases edited with
  | members edited =>
      obtain ⟨values, reads, built⟩ := decode_object_iff.1 decoded
      exact decode_object_iff.2 ⟨values, Fields.readMembers_edit edited distinct lenient reads, built⟩
  | member before after known edited =>
      obtain ⟨values, reads, built⟩ := decode_object_iff.1 decoded
      exact decode_object_iff.2 ⟨values, Fields.readMembers_replace known keep edited reads, built⟩
  | item before after known edited =>
      obtain ⟨values, reads, built⟩ := decode_array_iff.1 decoded
      exact decode_array_iff.2 ⟨values, Fields.readItems_replace known keep edited reads, built⟩

theorem not_decode_open {draft : Draft} {value : α} (decoded : shape.decode draft = .ok value)
    (members : List (Option String × Draft)) (items : List Draft) :
    draft ≠ .object members false ∧ draft ≠ .array items false := by
  constructor
  · rintro rfl
    rw [decode, Fields.readMembers] at decoded
    cases offered : shape.fields.offerAll members shape.fields.vacant <;> rw [offered] at decoded <;>
      cases decoded
  · rintro rfl
    rw [decode] at decoded
    cases read : shape.fields.readItems shape.expectedLength false 0 items with
    | error fault =>
        rw [read] at decoded
        cases decoded
    | ok read' =>
        rw [read] at decoded
        change (if read'.2.isEmpty && false then _ else _) = _ at decoded
        rw [Bool.and_false] at decoded
        cases decoded

/-- A record is read from sound drafts only. -/
theorem sound (sound : shape.fields.AllSound) : ReadsSound shape.decode := by
  intro draft value decoded
  have closed := not_decode_open decoded
  cases draft with
  | object members isClosed =>
      cases isClosed with
      | false => exact absurd rfl (closed members []).1
      | true =>
          obtain ⟨values, reads, -⟩ := decode_object_iff.1 decoded
          rw [Draft.isIgnorable, Fields.readMembers_sound sound reads]
          rfl
  | array items isClosed =>
      cases isClosed with
      | false => exact absurd rfl (closed [] items).2
      | true =>
          obtain ⟨values, reads, -⟩ := decode_array_iff.1 decoded
          rw [Draft.isIgnorable, Fields.readItems_sound sound reads]
          rfl
  | null | bool | number | text | malformed => cases decoded

end Shape

end EscapePlan
