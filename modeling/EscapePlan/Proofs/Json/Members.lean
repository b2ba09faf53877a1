import EscapePlan.Json.Shape
import Mathlib.Data.List.Perm.Basic

/-!
# Members are read by name

What the fields of a record are read as depends on the drafts under each name and on nothing else:
`Fields.readMembers_cons_iff`.  So members may come in any order, members of unknown names may be
put in, and a member that says no more than what is assumed without it may be left out.
-/

namespace EscapePlan

/-- The drafts under a name. -/
def Draft.under (name : String) (members : List (Option String × Draft)) : List Draft :=
  (members.filter (·.1 = some name)).map (·.2)

/-- The members of all other names. -/
def Draft.besides (name : String) (members : List (Option String × Draft)) :
    List (Option String × Draft) :=
  members.filter (·.1 ≠ some name)

/-- A value that says no more than a missing one may. -/
def Draft.IsVacant (draft : Draft) : Prop :=
  draft = .null ∨ draft = .array [] true

namespace Draft

variable {name other : String} {draft : Draft} {members before after : List (Option String × Draft)}

@[simp] theorem under_append (name : String) (before after : List (Option String × Draft)) :
    under name (before ++ after) = under name before ++ under name after := by
  simp [under]

@[simp] theorem besides_append (name : String) (before after : List (Option String × Draft)) :
    besides name (before ++ after) = besides name before ++ besides name after := by
  simp [besides]

theorem under_cons_self : under name ((some name, draft) :: members) = draft :: under name members := by
  simp [under]

theorem under_cons_of_ne {member : Option String × Draft} (noName : member.1 ≠ some name) :
    under name (member :: members) = under name members := by
  simp [under, noName]

theorem besides_cons_self : besides name ((some name, draft) :: members) = besides name members := by
  simp [besides]

theorem besides_cons_of_ne {member : Option String × Draft} (noName : member.1 ≠ some name) :
    besides name (member :: members) = member :: besides name members := by
  simp [besides, noName]

theorem perm_under {one two : List (Option String × Draft)} (permutes : one.Perm two)
    (name : String) : (under name one).Perm (under name two) :=
  (permutes.filter _).map _

end Draft

/-- What a field is read as from the drafts under its name. -/
inductive Field.Takes {α : Type} (field : Field α) : List Draft → α → Prop where
  | given {draft : Draft} {value : α} : field.decode draft = .ok value → Takes field [draft] value
  | missing {value : α} : field.fallback = some value → Takes field [] value

/-- A value that says nothing is read by a field as a missing one is. -/
def Field.Lenient {α : Type} (field : Field α) : Prop :=
  ∀ draft value, draft.IsVacant → field.fallback.isSome → field.decode draft = .ok value →
    field.fallback = some value

namespace Fields

open Draft

variable {α : Type} {types : List Type} {field : Field α} {fields : Fields types}
  {members : List (Option String × Draft)}

/-- What a slot holds after the drafts under its name have been put into it. -/
inductive Fills (field : Field α) : List Draft → Option α → Option α → Prop where
  | kept (slot : Option α) : Fills field [] slot slot
  | filled {draft : Draft} {value : α} : field.decode draft = .ok value →
      Fills field [draft] none (some value)

theorem fills_nil_iff {slot slot' : Option α} : Fills field [] slot slot' ↔ slot' = slot :=
  ⟨fun fills => by cases fills; rfl, fun same => same ▸ .kept _⟩

theorem fills_cons_iff {draft : Draft} {drafts : List Draft} {slot slot' : Option α} :
    Fills field (draft :: drafts) slot slot' ↔
      slot = none ∧ ∃ value, field.decode draft = .ok value ∧ Fills field drafts (some value) slot' := by
  constructor
  · rintro ⟨⟩
    exact ⟨rfl, _, ‹_›, .kept _⟩
  · rintro ⟨rfl, value, decoded, fills⟩
    cases fills
    exact .filled decoded

/-- Members fill the slot of a field with what is under its name, and the other slots with all else. -/
theorem offerAll_cons_iff {slot slot' : Option α} {slots slots' : Slots types} :
    (Fields.cons field fields).offerAll members (slot, slots) = .ok (slot', slots') ↔
      Fills field (under field.name members) slot slot' ∧
        fields.offerAll (besides field.name members) slots = .ok slots' := by
  induction members generalizing slot slots with
  | nil =>
      simp [under, besides, fills_nil_iff, offerAll, eq_comm]
  | cons member members inductionHypothesis =>
      obtain ⟨_ | name, draft⟩ := member
      · rw [besides_cons_of_ne (by simp)]
        exact iff_of_false nofun fun both => nomatch both.2
      · rw [offerAll, offer]
        split
        next same =>
          subst same
          rw [under_cons_self, besides_cons_self, fills_cons_iff]
          cases slot with
          | some value => exact iff_of_false nofun fun both => nomatch both.1.1
          | none =>
              cases decoded : field.decode draft with
              | error fault => exact iff_of_false nofun (by rintro ⟨⟨-, value, ⟨⟩, -⟩, -⟩)
              | ok value =>
                  refine (@inductionHypothesis (some value) slots).trans ?_
                  simp
        next other =>
          have noName : (some name, draft).1 ≠ some field.name :=
            fun same => other (Option.some.inj same)
          rw [under_cons_of_ne noName, besides_cons_of_ne noName, offerAll]
          cases fields.offer name draft slots with
          | error fault => exact iff_of_false nofun fun both => nomatch both.2
          | ok slots => exact inductionHypothesis

theorem readMembers_eq_ok_iff {values : Values types} : fields.readMembers members true = .ok values ↔
    ∃ slots, fields.offerAll members fields.vacant = .ok slots ∧ fields.settle slots = .ok values := by
  rw [readMembers]
  cases fields.offerAll members fields.vacant with
  | error fault => exact iff_of_false nofun (by rintro ⟨slots, ⟨⟩, -⟩)
  | ok slots => exact ⟨fun settled => ⟨slots, rfl, settled⟩,
      by rintro ⟨slots, ⟨⟩, settled⟩; exact settled⟩

theorem settle_cons_iff {slot : Option α} {slots : Slots types} {value : α} {values : Values types} :
    (Fields.cons field fields).settle (slot, slots) = .ok (value, values) ↔
      slot.or field.fallback = some value ∧ fields.settle slots = .ok values := by
  rw [settle]
  cases slot.or field.fallback with
  | none => exact iff_of_false nofun fun both => nomatch both.1
  | some found => cases fields.settle slots <;> simp [Except.map]

theorem takes_iff {drafts : List Draft} {value : α} : field.Takes drafts value ↔
    ∃ slot, Fills field drafts none slot ∧ slot.or field.fallback = some value := by
  constructor
  · rintro (decoded | fallback)
    · exact ⟨_, .filled decoded, rfl⟩
    · exact ⟨_, .kept none, fallback⟩
  · rintro ⟨slot, ⟨_⟩ | decoded, filled⟩
    · exact .missing filled
    · cases filled
      exact .given decoded

/-- The first field takes what is under its name; the others are read from all else. -/
theorem readMembers_cons_iff {value : α} {values : Values types} :
    (Fields.cons field fields).readMembers members true = .ok (value, values) ↔
      field.Takes (under field.name members) value ∧
        fields.readMembers (besides field.name members) true = .ok values := by
  rw [readMembers_eq_ok_iff, readMembers_eq_ok_iff, takes_iff]
  constructor
  · rintro ⟨⟨slot, slots⟩, offered, settled⟩
    obtain ⟨fills, offered⟩ := offerAll_cons_iff.1 offered
    obtain ⟨filled, settled⟩ := settle_cons_iff.1 settled
    exact ⟨⟨slot, fills, filled⟩, slots, offered, settled⟩
  · rintro ⟨⟨slot, fills, filled⟩, slots, offered, settled⟩
    exact ⟨(slot, slots), offerAll_cons_iff.2 ⟨fills, offered⟩, settle_cons_iff.2 ⟨filled, settled⟩⟩

theorem exists_offerAll_nil_iff : (∃ slots, Fields.nil.offerAll members () = .ok slots) ↔
    ∀ member ∈ members, member.1.isSome ∧ member.2.isIgnorable = true := by
  induction members with
  | nil => exact iff_of_true ⟨(), rfl⟩ nofun
  | cons member members inductionHypothesis =>
      obtain ⟨_ | name, draft⟩ := member
      · exact iff_of_false (by rintro ⟨slots, ⟨⟩⟩) fun all => by simpa using all _ List.mem_cons_self
      · refine Iff.trans ?_ List.forall_mem_cons.symm
        refine Iff.trans ?_ (and_congr_right fun _ => inductionHypothesis)
        rw [offerAll, offer]
        cases ignorable : draft.isIgnorable with
        | false => exact iff_of_false (by rintro ⟨slots, ⟨⟩⟩) fun both => by simpa using both.1
        | true => exact ⟨fun offered => ⟨⟨rfl, rfl⟩, offered⟩, fun both => both.2⟩

/-- Where no field is left, all members are passed over. -/
theorem readMembers_nil_iff : Fields.nil.readMembers members true = .ok () ↔
    ∀ member ∈ members, member.1.isSome ∧ member.2.isIgnorable = true := by
  rw [readMembers_eq_ok_iff]
  exact (exists_congr fun slots => and_iff_left rfl).trans exists_offerAll_nil_iff

end Fields

/-! ## What may be done to members -/

namespace Draft

/-- A sound value of sixty-four bit integers whose containers nest at most so deep. -/
inductive Nests : Nat → Draft → Prop where
  | null (depth : Nat) : Nests depth .null
  | bool (depth : Nat) (value : Bool) : Nests depth (.bool value)
  | integer (depth : Nat) {value : Int} : lowestInt64 ≤ value → value ≤ highestInt64 →
      Nests depth (.number (.integer value))
  | text (depth : Nat) (value : String) : Nests depth (.text (some value))
  | array {depth : Nat} {items : List Draft} : (∀ item ∈ items, Nests depth item) →
      Nests (depth + 1) (.array items true)
  | object {depth : Nat} {members : List (Option String × Draft)} :
      (∀ member ∈ members, member.1.isSome = true) → (∀ member ∈ members, Nests depth member.2) →
      Nests (depth + 1) (.object members true)

theorem areComplete_iff {depth : Nat} {items : List Draft} :
    areComplete depth items = true ↔ ∀ item ∈ items, item.isComplete depth = true := by
  induction items with
  | nil => simp [areComplete]
  | cons item items inductionHypothesis => simp [areComplete, inductionHypothesis]

theorem membersComplete_iff {depth : Nat} : membersComplete depth members = true ↔
    ∀ member ∈ members, member.1.isSome = true ∧ member.2.isComplete depth = true := by
  induction members with
  | nil => simp [membersComplete]
  | cons member members inductionHypothesis => simp [membersComplete, inductionHypothesis]

theorem membersIgnorable_iff : membersIgnorable members = true ↔
    ∀ member ∈ members, member.2.isIgnorable = true := by
  induction members with
  | nil => simp [membersIgnorable]
  | cons member members inductionHypothesis => simp [membersIgnorable, inductionHypothesis]

/-- A value that nests less deep than is allowed can be kept for later. -/
theorem Nests.isComplete {depth : Nat} (nests : Nests depth draft)
    {limit : Nat} (within : depth ≤ limit) :
    draft.isComplete limit = true := by
  induction nests generalizing limit with
  | null | bool | integer | text => rfl
  | array _ inductionHypothesis =>
      simp only [Draft.isComplete, Bool.and_eq_true, decide_eq_true_eq, areComplete_iff]
      exact ⟨⟨by omega, fun item listed => inductionHypothesis item listed (by omega)⟩, trivial⟩
  | object named _ inductionHypothesis =>
      simp only [Draft.isComplete, Bool.and_eq_true, decide_eq_true_eq, membersComplete_iff]
      exact ⟨⟨by omega, fun member listed =>
        ⟨named member listed, inductionHypothesis member listed (by omega)⟩⟩, trivial⟩

mutual

/-- What can be kept for later can be skipped. -/
theorem isIgnorable_of_isComplete (depth : Nat) : (draft : Draft) → draft.isComplete depth = true →
    draft.isIgnorable = true
  | .null, _ | .bool _, _ | .number _, _ | .text _, _ => rfl
  | .array items closed, complete => by
      rw [isComplete, Bool.and_eq_true, Bool.and_eq_true] at complete
      rw [isIgnorable, areIgnorable_of_areComplete (depth - 1) items complete.1.2, complete.2]
      rfl
  | .object members closed, complete => by
      rw [isComplete, Bool.and_eq_true, Bool.and_eq_true] at complete
      rw [isIgnorable, membersIgnorable_of_membersComplete (depth - 1) members complete.1.2, complete.2]
      rfl
  | .malformed, complete => nomatch complete

theorem areIgnorable_of_areComplete (depth : Nat) : (items : List Draft) →
    areComplete depth items = true → areIgnorable items = true
  | [], _ => rfl
  | item :: items, complete => by
      rw [areComplete, Bool.and_eq_true] at complete
      rw [areIgnorable, isIgnorable_of_isComplete depth item complete.1,
        areIgnorable_of_areComplete depth items complete.2]
      rfl

theorem membersIgnorable_of_membersComplete (depth : Nat) : (members : List (Option String × Draft)) →
    membersComplete depth members = true → membersIgnorable members = true
  | [], _ => rfl
  | (name, value) :: members, complete => by
      rw [membersComplete, Bool.and_eq_true, Bool.and_eq_true] at complete
      rw [membersIgnorable, isIgnorable_of_isComplete depth value complete.1.2,
        membersIgnorable_of_membersComplete depth members complete.2]
      rfl

end

end Draft

/-- How deep a value may nest that is put in. -/
def surplusDepth : Nat :=
  50

/-- Members are put into another order, one of an unknown name is put in, or one that says nothing
is left out. -/
inductive MembersEdit (known optional : List String) :
    List (Option String × Draft) → List (Option String × Draft) → Prop where
  | permute {one two : List (Option String × Draft)} : one.Perm two → MembersEdit known optional one two
  | insert (before after : List (Option String × Draft)) {name : String} {draft : Draft} :
      name ∉ known → draft.Nests surplusDepth →
      MembersEdit known optional (before ++ after) (before ++ (some name, draft) :: after)
  | remove (before after : List (Option String × Draft)) {name : String} {draft : Draft} :
      name ∈ optional → draft.IsVacant →
      MembersEdit known optional (before ++ (some name, draft) :: after) (before ++ after)

namespace Fields

open Draft

/-- The names of the fields that may be missing. -/
def optional {types : List Type} : Fields types → List String
  | .nil => []
  | .cons field fields =>
      if field.fallback.isSome then field.name :: fields.optional else fields.optional

/-- A value that says nothing is read as a missing one is. -/
def Lenient {types : List Type} : Fields types → Prop
  | .nil => True
  | .cons field fields => field.Lenient ∧ fields.Lenient

variable {types : List Type} {fields : Fields types} {values : Values types}
  {one two before after : List (Option String × Draft)} {name : String} {draft : Draft}

theorem mem_names_of_mem_optional (listed : name ∈ fields.optional) : name ∈ fields.names := by
  induction fields with
  | nil => contradiction
  | cons field fields inductionHypothesis =>
      rw [optional] at listed
      split at listed
      next =>
        rcases List.mem_cons.1 listed with rfl | listed
        · exact List.mem_cons_self
        · exact List.mem_cons_of_mem _ (inductionHypothesis listed)
      next => exact List.mem_cons_of_mem _ (inductionHypothesis listed)

theorem readMembers_perm (permutes : one.Perm two) (reads : fields.readMembers one true = .ok values) :
    fields.readMembers two true = .ok values := by
  induction fields generalizing one two with
  | nil =>
      rw [readMembers_nil_iff] at reads ⊢
      exact fun member listed => reads member (permutes.mem_iff.2 listed)
  | cons field fields inductionHypothesis =>
      rw [readMembers_cons_iff] at reads ⊢
      obtain ⟨takes, reads⟩ := reads
      refine ⟨?_, inductionHypothesis (permutes.filter _) reads⟩
      have drafts := perm_under permutes field.name
      generalize under field.name one = drafts₁, under field.name two = drafts₂ at takes drafts
      cases takes with
      | given decoded => exact List.perm_singleton.1 drafts.symm ▸ .given decoded
      | missing fallback => exact drafts.nil_eq ▸ .missing fallback

theorem readMembers_insert (unknown : name ∉ fields.names) (ignorable : draft.isIgnorable = true)
    (reads : fields.readMembers (before ++ after) true = .ok values) :
    fields.readMembers (before ++ (some name, draft) :: after) true = .ok values := by
  induction fields generalizing before after with
  | nil =>
      rw [readMembers_nil_iff] at reads ⊢
      intro member listed
      rcases List.mem_append.1 listed with earlier | later
      · exact reads member (List.mem_append_left _ earlier)
      · rcases List.mem_cons.1 later with rfl | later
        · exact ⟨rfl, ignorable⟩
        · exact reads member (List.mem_append_right _ later)
  | cons field fields inductionHypothesis =>
      rw [names, List.mem_cons, not_or] at unknown
      have other : (some name, draft).1 ≠ some field.name := fun same => unknown.1 (Option.some.inj same)
      rw [readMembers_cons_iff, under_append, besides_append] at reads ⊢
      rw [under_cons_of_ne other, besides_cons_of_ne other]
      exact ⟨reads.1, inductionHypothesis unknown.2 reads.2⟩

/-- If one of the drafts under a name is known, a field takes no other. -/
theorem eq_nil_of_takes {α : Type} {field : Field α} {earlier later : List Draft} {value : α}
    (takes : field.Takes (earlier ++ draft :: later) value) :
    earlier = [] ∧ later = [] ∧ field.decode draft = .ok value := by
  generalize drafts : earlier ++ draft :: later = all at takes
  cases takes with
  | missing => simp at drafts
  | given decoded =>
      cases earlier with
      | nil =>
          cases drafts
          exact ⟨rfl, rfl, decoded⟩
      | cons first earlier => simp at drafts

theorem readMembers_remove (distinct : fields.names.Nodup) (lenient : fields.Lenient)
    (listed : name ∈ fields.optional) (vacant : draft.IsVacant)
    (reads : fields.readMembers (before ++ (some name, draft) :: after) true = .ok values) :
    fields.readMembers (before ++ after) true = .ok values := by
  induction fields generalizing before after with
  | nil => contradiction
  | cons field fields inductionHypothesis =>
      rw [names, List.nodup_cons] at distinct
      rw [readMembers_cons_iff, under_append, besides_append] at reads ⊢
      obtain ⟨takes, reads⟩ := reads
      by_cases same : name = field.name
      · subst same
        rw [under_cons_self] at takes
        rw [besides_cons_self] at reads
        obtain ⟨earlier, later, decoded⟩ := eq_nil_of_takes takes
        have mayMiss : field.fallback.isSome = true := by
          rw [optional] at listed
          split at listed
          next present => exact present
          next => exact absurd (mem_names_of_mem_optional listed) distinct.1
        rw [earlier, later]
        exact ⟨.missing (lenient.1 draft _ vacant mayMiss decoded), reads⟩
      · have other : (some name, draft).1 ≠ some field.name := fun equal => same (Option.some.inj equal)
        rw [under_cons_of_ne other] at takes
        rw [besides_cons_of_ne other] at reads
        have listed : name ∈ fields.optional := by
          rw [optional] at listed
          split at listed
          next => exact (List.mem_cons.1 listed).resolve_left same
          next => exact listed
        exact ⟨takes, inductionHypothesis distinct.2 lenient.2 listed reads⟩

/-- Fields are read the same after members have been edited. -/
theorem readMembers_edit (edit : MembersEdit fields.names fields.optional one two)
    (distinct : fields.names.Nodup) (lenient : fields.Lenient)
    (reads : fields.readMembers one true = .ok values) : fields.readMembers two true = .ok values := by
  cases edit with
  | permute permutes => exact readMembers_perm permutes reads
  | insert _ _ unknown nests =>
      have ignorable := isIgnorable_of_isComplete _ _ (nests.isComplete (Nat.le_refl _))
      exact readMembers_insert unknown ignorable reads
  | remove _ _ listed vacant => exact readMembers_remove distinct lenient listed vacant reads

end Fields

end EscapePlan
