import EscapePlan.Proofs.Json.Writing
import EscapePlan.Tree.Document
import Mathlib.Logic.Relation

/-!
# Notations of one tree

A tree may be written in many ways.  `TreeEdit` is a step from one notation to another: it edits the
members of one of the records in a text, or gives an unknown construct another name.  However many
steps are taken and however the outcome is laid out, the tree that is read stays the same.
-/

namespace EscapePlan

/-! ## Decoders of parts -/

namespace Draft

variable {α : Type} {decode : Decoder α} {edit : Draft → Draft → Prop}

theorem mapM_cons_iff {item : Draft} {items : List Draft} {value : α} {values : List α} :
    (item :: items).mapM decode = .ok (value :: values) ↔
      decode item = .ok value ∧ items.mapM decode = .ok values := by
  rw [List.mapM_cons]
  cases decode item with
  | error fault => exact iff_of_false nofun fun both => nomatch both.1
  | ok found =>
      cases items.mapM decode with
      | error fault => exact iff_of_false nofun fun both => nomatch both.2
      | ok others => simp [bind, Except.bind, pure, Except.pure]

theorem exists_of_mapM_cons {item : Draft} {items : List Draft} {values : List α}
    (mapped : (item :: items).mapM decode = .ok values) :
    ∃ value others, values = value :: others := by
  rw [List.mapM_cons] at mapped
  cases found : decode item with
  | error fault =>
      rw [found] at mapped
      cases mapped
  | ok value =>
      cases rest : items.mapM decode with
      | error fault =>
          rw [found, rest] at mapped
          cases mapped
      | ok others =>
          rw [found, rest] at mapped
          cases mapped
          exact ⟨value, others, rfl⟩

theorem mapM_replace {before after : List Draft} {one two : Draft} {values : List α}
    (keeps : KeepsReading decode edit) (edited : edit one two)
    (mapped : (before ++ one :: after).mapM decode = .ok values) :
    (before ++ two :: after).mapM decode = .ok values := by
  induction before generalizing values with
  | nil =>
      obtain ⟨value, others, rfl⟩ := exists_of_mapM_cons mapped
      obtain ⟨decoded, mapped⟩ := mapM_cons_iff.1 mapped
      exact mapM_cons_iff.2 ⟨keeps one two value edited decoded, mapped⟩
  | cons item before inductionHypothesis =>
      obtain ⟨value, others, rfl⟩ := exists_of_mapM_cons mapped
      obtain ⟨decoded, mapped⟩ := mapM_cons_iff.1 mapped
      exact mapM_cons_iff.2 ⟨decoded, inductionHypothesis mapped⟩

theorem decodeList_array_iff {items : List Draft} {values : List α} :
    decodeList decode (.array items true) = .ok values ↔ items.mapM decode = .ok values := by
  rw [decodeList]
  cases items.mapM decode <;> simp [bind, Except.bind, pure, Except.pure]

/-- A list is read the same after one of its items has been edited. -/
theorem keeps_list (keeps : KeepsReading decode edit) : KeepsReading (decodeList decode) (ItemEdit edit) := by
  rintro _ _ values ⟨before, after, edited⟩ decoded
  rw [decodeList_array_iff] at decoded ⊢
  exact mapM_replace keeps edited decoded

theorem sound_list (sound : ReadsSound decode) : ReadsSound (decodeList decode) := by
  intro draft values decoded
  have items {items : List Draft} {values : List α} (mapped : items.mapM decode = .ok values) :
      areIgnorable items = true := by
    induction items generalizing values with
    | nil => rfl
    | cons item items inductionHypothesis =>
        obtain ⟨value, others, rfl⟩ := exists_of_mapM_cons mapped
        obtain ⟨decoded, mapped⟩ := mapM_cons_iff.1 mapped
        rw [areIgnorable, sound _ _ decoded, inductionHypothesis mapped]
        rfl
  cases draft with
  | array listed closed =>
      cases closed with
      | true => rw [isIgnorable, items (decodeList_array_iff.1 decoded)]; rfl
      | false =>
          rw [decodeList] at decoded
          cases mapped : listed.mapM decode <;> rw [mapped] at decoded <;> cases decoded
  | null | bool | number | text | object | malformed => cases decoded

/-- What may be nothing is read the same after it has been edited, if it is something. -/
theorem keeps_option (keeps : KeepsReading decode edit)
    (visible : ∀ one two, edit one two → one ≠ .null ∧ two ≠ .null) :
    KeepsReading (decodeOption decode) edit := by
  intro one two value edited decoded
  have decodeSome {draft : Draft} (something : draft ≠ .null) :
      decodeOption decode draft = (decode draft).map some := by
    rw [decodeOption]
    exact something
  rw [decodeSome (visible one two edited).1] at decoded
  rw [decodeSome (visible one two edited).2]
  cases found : decode one with
  | error fault =>
      rw [found] at decoded
      cases decoded
  | ok inner =>
      rw [keeps one two inner edited found, ← decoded, found]

theorem sound_option (sound : ReadsSound decode) : ReadsSound (decodeOption decode) := by
  intro draft value decoded
  by_cases nothing : draft = .null
  · rw [nothing]
    rfl
  · rw [decodeOption] at decoded
    · cases found : decode draft with
      | error fault =>
          rw [found] at decoded
          cases decoded
      | ok inner => exact sound draft inner found
    · exact nothing

theorem sound_uint32 : ReadsSound decodeUInt32 := by
  intro draft value decoded
  cases draft with
  | number => rfl
  | text => rfl
  | null | bool => rfl
  | array | object | malformed => cases decoded

theorem sound_text (expected : String) : ReadsSound (decodeText expected) := by
  intro draft value decoded
  cases draft with
  | text => rfl
  | null | bool | number | array | object | malformed => cases decoded

end Draft

theorem NodeIndex.sound_decode : ReadsSound decode := by
  intro draft index decoded
  rw [decode] at decoded
  cases found : draft.decodeUInt32 with
  | error fault =>
      rw [found] at decoded
      cases decoded
  | ok value => exact Draft.sound_uint32 draft value found

theorem StringPool.sound_decode : ReadsSound decode := by
  intro draft pool decoded
  rw [decode] at decoded
  cases found : draft.decodeList (Draft.decodeText "a string") with
  | error fault =>
      rw [found] at decoded
      cases decoded
  | ok names => exact Draft.sound_list (Draft.sound_text _) draft names found

/-! ## Edits -/

/-- The members of a position are edited. -/
def PositionEdit : Draft → Draft → Prop :=
  RecordEdit ["line", "column"] [] fun _ _ _ => False

namespace NodeData

/-- The tags of the constructs that there are. -/
def tags : List String :=
  ["root", "block", "function_decl", "assignment", "object_instantiation", "array_init",
    "return_stmt", "function_call", "method_call", "property_access", "array_access", "closure",
    "variable", "if_stmt", "while_stmt", "for_stmt", "foreach_stmt", "throw_stmt", "literal", "global"]

/-- The names of the fields that go with a tag. -/
def fieldNames (tag : String) : List String :=
  (shape? tag).elim [] (·.fields.names)

/-- The names of the fields that go with a tag and may be missing. -/
def optionalNames (tag : String) : List String :=
  (shape? tag).elim [] (·.fields.optional)

end NodeData

/-- The members of node data are edited, or an unknown construct is given another unknown tag. -/
inductive DataEdit : Draft → Draft → Prop where
  | members {tag : String} {one two : List (Option String × Draft)} :
      (some "tag", .text (some tag)) ∈ one →
      MembersEdit ("tag" :: NodeData.fieldNames tag) (NodeData.optionalNames tag) one two →
      DataEdit (.object one true) (.object two true)
  | rename (before after : List (Option String × Draft)) {tag other : String} :
      tag ∉ NodeData.tags → other ∉ NodeData.tags →
      DataEdit (.object (before ++ (some "tag", .text (some tag)) :: after) true)
        (.object (before ++ (some "tag", .text (some other)) :: after) true)
  | renameItem (items : List Draft) {tag other : String} :
      tag ∉ NodeData.tags → other ∉ NodeData.tags →
      DataEdit (.array (.text (some tag) :: items) true) (.array (.text (some other) :: items) true)

/-- A part of a node is edited. -/
def NodePartEdit (name : String) (one two : Draft) : Prop :=
  name = "data" ∧ DataEdit one two ∨ name = "span" ∧ PositionEdit one two

/-- A node is edited: its members, its data or its span. -/
def NodeEdit : Draft → Draft → Prop :=
  RecordEdit ["data", "span"] ["span"] NodePartEdit

/-- A part of a tree is edited. -/
def TreePartEdit (name : String) (one two : Draft) : Prop :=
  name = "nodes" ∧ ItemEdit NodeEdit one two

/-- A tree is edited: its members or one of its nodes. -/
def TreeEdit : Draft → Draft → Prop :=
  RecordEdit ["root", "strings", "nodes"] ["strings"] TreePartEdit

/-! ## Node data -/

namespace NodeData

section

variable {name : String}

@[simp] theorem lenient_of_none {α : Type} {decode : Decoder α} :
    (⟨name, decode, none⟩ : Field α).Lenient :=
  fun _ _ _ mayMiss _ => nomatch mayMiss

theorem lenient_list {α : Type} {decode : Decoder α} :
    (⟨name, Draft.decodeList decode, some []⟩ : Field (List α)).Lenient := by
  rintro draft value (rfl | rfl) - decoded
  · cases decoded
  · cases decoded
    rfl

theorem lenient_option {α : Type} {decode : Decoder α}
    (noList : ∀ value, decode (.array [] true) ≠ .ok value) :
    (⟨name, Draft.decodeOption decode, some none⟩ : Field (Option α)).Lenient := by
  rintro draft value (rfl | rfl) - decoded
  · cases decoded
    rfl
  · change (decode (.array [] true)).map some = _ at decoded
    cases found : decode (.array [] true) with
    | error fault =>
        rw [found] at decoded
        cases decoded
    | ok inner => exact absurd found (noList inner)

@[simp] theorem lenient_nodeField : (nodeField name).Lenient :=
  lenient_of_none

@[simp] theorem lenient_requiredNodesField : (requiredNodesField name).Lenient :=
  lenient_of_none

@[simp] theorem lenient_nameField : (nameField name).Lenient :=
  lenient_of_none

@[simp] theorem lenient_requiredNamesField : (requiredNamesField name).Lenient :=
  lenient_of_none

@[simp] theorem lenient_literalField : (literalField name).Lenient :=
  lenient_of_none

@[simp] theorem lenient_nodesField : (nodesField name).Lenient :=
  lenient_list

@[simp] theorem lenient_namesField : (namesField name).Lenient :=
  lenient_list

@[simp] theorem lenient_nodeField? : (nodeField? name).Lenient :=
  lenient_option nofun

@[simp] theorem lenient_nameField? : (nameField? name).Lenient :=
  lenient_option nofun

end

theorem shape?_eq_none_iff {tag : String} : shape? tag = none ↔ tag ∉ tags := by
  unfold shape?
  split <;> simp_all [tags]

/-- No field is called as the tag or as another field, and fields that may be missing are lenient. -/
theorem of_shape? {tag : String} {shape : Shape NodeData} (found : shape? tag = some shape) :
    ("tag" :: shape.fields.names).Nodup ∧ shape.fields.Lenient := by
  unfold shape? at found
  split at found <;> cases found <;> refine ⟨by decide, ?_⟩ <;> simp [Fields.Lenient]

/-! ### Members of node data -/

open Draft

theorem decodeTag_eq_ok_iff {draft : Draft} {tag : String} :
    decodeTag draft = .ok tag ↔ draft = .text (some tag) := by
  constructor
  · intro decoded
    cases draft with
    | text value =>
        cases value with
        | some text =>
            cases decoded
            rfl
        | none => cases decoded
    | null | bool | number | array | object | malformed => cases decoded
  · rintro rfl
    rfl

theorem takeIn_eq_ok_iff {draft : Draft} :
    takeIn draft = .ok () ↔ draft.isComplete contentDepth = true := by
  rw [takeIn]
  split <;> simp_all

/-- Whether members can all be taken in. -/
def Complete (members : List (Option String × Draft)) : Prop :=
  ∀ member ∈ members, member.1.isSome = true ∧ member.2.isComplete contentDepth = true

/-- The member that holds the tag. -/
def tagField : Field String :=
  ⟨"tag", decodeTag, none⟩

/-- Members are taken in: the tag by its name, and all else as it stands. -/
theorem takeMembers_eq_ok_iff {members fields : List (Option String × Draft)}
    {tag tag' : Option String} :
    takeMembers members tag = .ok (tag', fields) ↔
      Fields.Fills tagField (under "tag" members) tag tag' ∧ fields = besides "tag" members ∧
        Complete (besides "tag" members) := by
  induction members generalizing tag fields with
  | nil =>
      have complete : Complete [] := fun _ listed => absurd listed List.not_mem_nil
      constructor
      · rintro ⟨⟩
        exact ⟨.kept _, rfl, complete⟩
      · rintro ⟨fills, rfl, -⟩
        rw [Fields.fills_nil_iff.1 fills]
        rfl
  | cons member members inductionHypothesis =>
      obtain ⟨_ | name, draft⟩ := member
      · rw [besides_cons_of_ne (by simp)]
        exact iff_of_false nofun fun all => by simpa using all.2.2 _ List.mem_cons_self
      · rw [takeMembers]
        split
        next same =>
          subst same
          rw [under_cons_self, besides_cons_self, Fields.fills_cons_iff]
          cases tag with
          | some tag => exact iff_of_false nofun fun all => nomatch all.1.1
          | none =>
              show (decodeTag draft >>= fun tag => takeMembers members (some tag)) = _ ↔ _
              cases decoded : decodeTag draft with
              | error fault =>
                  refine iff_of_false nofun ?_
                  rintro ⟨⟨-, value, found, -⟩, -⟩
                  cases decoded.symm.trans found
              | ok value =>
                  refine inductionHypothesis.trans (and_congr_left fun _ => ?_)
                  refine ⟨fun fills => ⟨rfl, value, decoded, fills⟩, ?_⟩
                  rintro ⟨-, other, found, fills⟩
                  cases decoded.symm.trans found
                  exact fills
        next other =>
          have noTag : (some name, draft).1 ≠ some "tag" := fun same => other (Option.some.inj same)
          rw [under_cons_of_ne noTag, besides_cons_of_ne noTag]
          have complete : Complete ((some name, draft) :: besides "tag" members) ↔
              draft.isComplete contentDepth = true ∧ Complete (besides "tag" members) := by
            rw [Complete, List.forall_mem_cons]
            exact and_congr_left fun _ => and_iff_right rfl
          rw [complete, ← takeIn_eq_ok_iff]
          cases takeIn draft with
          | error fault => exact iff_of_false nofun fun all => nomatch all.2.2.1
          | ok taken =>
              show (takeMembers members tag >>= fun read =>
                Except.ok (read.1, (some name, draft) :: read.2)) = _ ↔ _
              constructor
              · intro taken
                cases read : takeMembers members tag with
                | error fault =>
                    rw [read] at taken
                    cases taken
                | ok found =>
                    rw [read] at taken
                    cases taken
                    obtain ⟨fills, same, complete⟩ := inductionHypothesis.1 read
                    exact ⟨fills, congrArg _ same, rfl, complete⟩
              · rintro ⟨fills, rfl, -, complete⟩
                rw [inductionHypothesis.2 ⟨fills, rfl, complete⟩]
                rfl

/-- Node data is read from its tag and from all other members. -/
theorem decode_object_iff {members : List (Option String × Draft)} {data : NodeData} :
    decode (.object members true) = .ok data ↔
      ∃ tag, under "tag" members = [.text (some tag)] ∧ Complete (besides "tag" members) ∧
        ofMembers tag (besides "tag" members) = .ok data := by
  constructor
  · intro decoded
    rw [decode] at decoded
    cases taken : takeMembers members none with
    | error fault =>
        rw [taken] at decoded
        cases decoded
    | ok found =>
        obtain ⟨tag, fields⟩ := found
        rw [taken] at decoded
        obtain ⟨fills, rfl, complete⟩ := takeMembers_eq_ok_iff.1 taken
        cases tag with
        | none => cases decoded
        | some tag =>
            generalize drafts : under "tag" members = all at fills
            cases fills with
            | filled isTag => exact ⟨tag, by rw [decodeTag_eq_ok_iff.1 isTag], complete, decoded⟩
  · rintro ⟨tag, drafts, complete, read⟩
    have fills : Fields.Fills tagField (under "tag" members) none (some tag) := by
      rw [drafts]
      exact .filled rfl
    rw [decode, takeMembers_eq_ok_iff.2 ⟨fills, rfl, complete⟩]
    exact read

/-- Fields are read the same after the members besides the tag have been edited. -/
theorem ofMembers_edit {tag : String} {one two : List (Option String × Draft)} {data : NodeData}
    (edit : MembersEdit (fieldNames tag) (optionalNames tag) one two)
    (read : ofMembers tag one = .ok data) : ofMembers tag two = .ok data := by
  rw [ofMembers] at read ⊢
  rw [fieldNames, optionalNames] at edit
  cases found : shape? tag with
  | none => rwa [found] at read
  | some shape =>
      rw [found] at read edit
      obtain ⟨distinct, lenient⟩ := of_shape? found
      cases values : shape.fields.readMembers one true with
      | error fault =>
          simp only [values] at read
          cases read
      | ok read' =>
          have again := Fields.readMembers_edit edit (List.nodup_cons.1 distinct).2 lenient values
          simp only [values] at read
          simp only [again]
          exact read

theorem ne_tag_of_mem_optionalNames {tag name : String} (listed : name ∈ optionalNames tag) :
    name ≠ "tag" := by
  rintro rfl
  rw [optionalNames] at listed
  cases found : shape? tag with
  | none =>
      rw [found] at listed
      contradiction
  | some shape =>
      rw [found] at listed
      exact (List.nodup_cons.1 (of_shape? found).1).1 (Fields.mem_names_of_mem_optional listed)

theorem under_tag_eq {before after : List (Option String × Draft)} {tag found : String}
    (drafts : under "tag" (before ++ (some "tag", .text (some tag)) :: after) = [.text (some found)])
    (other : String) : found = tag ∧
      under "tag" (before ++ (some "tag", .text (some other)) :: after) = [.text (some other)] := by
  rw [under_append, under_cons_self] at drafts ⊢
  have takes : tagField.Takes (under "tag" before ++ .text (some tag) :: under "tag" after) found := by
    rw [drafts]
    exact .given rfl
  obtain ⟨earlier, later, decoded⟩ := Fields.eq_nil_of_takes takes
  rw [earlier, later]
  cases decoded
  exact ⟨rfl, rfl⟩

theorem ofMembers_of_unknown {tag : String} (unknown : tag ∉ tags)
    (members : List (Option String × Draft)) :
    ofMembers tag members = .ok .other := by
  rw [ofMembers, shape?_eq_none_iff.2 unknown]

/-- Node data is read the same after it has been edited. -/
theorem keeps_decode : KeepsReading decode DataEdit := by
  intro one two data edited decoded
  cases edited with
  | @members tag one two listed edited =>
      rw [decode_object_iff] at decoded ⊢
      obtain ⟨found, drafts, complete, read⟩ := decoded
      obtain rfl : found = tag := by
        have known : .text (some tag) ∈ under "tag" one :=
          List.mem_map_of_mem (List.mem_filter.2 ⟨listed, decide_eq_true rfl⟩)
        rw [drafts, List.mem_singleton] at known
        cases known
        rfl
      refine ⟨found, ?_⟩
      cases edited with
      | permute permutes =>
          have rest : (besides "tag" one).Perm (besides "tag" two) := permutes.filter _
          refine ⟨?_, fun member listed => complete member (rest.mem_iff.2 listed),
            ofMembers_edit (.permute rest) read⟩
          exact List.perm_singleton.1 (drafts ▸ (perm_under permutes "tag").symm)
      | @insert before after name draft unknown nests =>
          rw [List.mem_cons, not_or] at unknown
          have noTag : (some name, draft).1 ≠ some "tag" := fun same => unknown.1 (Option.some.inj same)
          rw [under_append] at drafts
          rw [besides_append] at complete read
          rw [under_append, besides_append, under_cons_of_ne noTag, besides_cons_of_ne noTag]
          refine ⟨drafts, ?_, ofMembers_edit (.insert _ _ unknown.2 nests) read⟩
          intro member listed
          rcases List.mem_append.1 listed with earlier | later
          · exact complete member (List.mem_append_left _ earlier)
          · rcases List.mem_cons.1 later with rfl | later
            · exact ⟨rfl, nests.isComplete (by decide)⟩
            · exact complete member (List.mem_append_right _ later)
      | @remove before after name draft optional vacant =>
          have noTag : (some name, draft).1 ≠ some "tag" := fun same =>
            ne_tag_of_mem_optionalNames optional (Option.some.inj same)
          rw [under_append, under_cons_of_ne noTag] at drafts
          rw [besides_append, besides_cons_of_ne noTag] at complete read
          rw [under_append, besides_append]
          refine ⟨drafts, fun member listed => complete member ?_,
            ofMembers_edit (.remove _ _ optional vacant) read⟩
          rcases List.mem_append.1 listed with earlier | later
          · exact List.mem_append_left _ earlier
          · exact List.mem_append_right _ (List.mem_cons_of_mem _ later)
  | @rename before after tag other unknown otherUnknown =>
      rw [decode_object_iff] at decoded ⊢
      obtain ⟨found, drafts, complete, read⟩ := decoded
      obtain ⟨rfl, again⟩ := under_tag_eq drafts other
      have same : besides "tag" (before ++ (some "tag", .text (some other)) :: after) =
          besides "tag" (before ++ (some "tag", .text (some found)) :: after) := by
        rw [besides_append, besides_append, besides_cons_self, besides_cons_self]
      rw [ofMembers_of_unknown unknown] at read
      refine ⟨other, again, same ▸ complete, ?_⟩
      rw [ofMembers_of_unknown otherUnknown]
      exact read
  | @renameItem items tag other unknown otherUnknown =>
      have renames : ofItems other items = ofItems tag items := by
        rw [ofItems, ofItems, shape?_eq_none_iff.2 unknown, shape?_eq_none_iff.2 otherUnknown]
      have decodeItems (tag : String) : decode (.array (.text (some tag) :: items) true) =
          items.forM takeIn >>= fun _ => ofItems tag items := rfl
      rw [decodeItems] at decoded ⊢
      rw [renames]
      exact decoded

theorem areIgnorable_of_forM {drafts : List Draft} (taken : drafts.forM takeIn = .ok ()) :
    areIgnorable drafts = true := by
  induction drafts with
  | nil => rfl
  | cons draft drafts inductionHypothesis =>
      change (takeIn draft >>= fun _ => drafts.forM takeIn) = _ at taken
      cases first : takeIn draft with
      | error fault =>
          rw [first] at taken
          cases taken
      | ok _ =>
          rw [first] at taken
          rw [areIgnorable, isIgnorable_of_isComplete _ _ (takeIn_eq_ok_iff.1 first),
            inductionHypothesis taken]
          rfl

theorem sound_decode : ReadsSound decode := by
  intro draft data decoded
  cases draft with
  | object members closed =>
      cases closed with
      | false =>
          rw [decode] at decoded
          cases taken : takeMembers members none <;> rw [taken] at decoded <;> cases decoded
      | true =>
          obtain ⟨tag, drafts, complete, -⟩ := decode_object_iff.1 decoded
          have sound : membersIgnorable members = true := by
            refine membersIgnorable_iff.2 fun member listed => ?_
            by_cases isTag : member.1 = some "tag"
            · have held : member.2 ∈ under "tag" members :=
                List.mem_map_of_mem (List.mem_filter.2 ⟨listed, decide_eq_true isTag⟩)
              rw [drafts, List.mem_singleton] at held
              rw [held]
              rfl
            · have rest := complete member (List.mem_filter.2 ⟨listed, decide_eq_true isTag⟩)
              exact isIgnorable_of_isComplete _ _ rest.2
          rw [isIgnorable, sound]
          rfl
  | array items closed =>
      cases items with
      | nil => cases closed <;> cases decoded
      | cons first items =>
          rw [decode] at decoded
          cases isTag : decodeTag first with
          | error fault =>
              rw [isTag] at decoded
              cases decoded
          | ok tag =>
              rw [isTag] at decoded
              cases taken : items.forM takeIn with
              | error fault =>
                  change (items.forM takeIn >>= _) = _ at decoded
                  rw [taken] at decoded
                  cases decoded
              | ok _ =>
                  change (items.forM takeIn >>= _) = _ at decoded
                  rw [taken] at decoded
                  cases closed with
                  | false => cases decoded
                  | true =>
                      rw [isIgnorable, areIgnorable, decodeTag_eq_ok_iff.1 isTag,
                        areIgnorable_of_forM taken]
                      rfl
  | null | bool | number | text | malformed => cases decoded

end NodeData

/-! ## Trees -/

theorem Position.sound_decode : ReadsSound shape.decode :=
  Shape.sound ⟨Draft.sound_uint32, Draft.sound_uint32, trivial⟩

theorem TreeNode.sound_decode : ReadsSound shape.decode :=
  Shape.sound ⟨NodeData.sound_decode, Draft.sound_option Position.sound_decode, trivial⟩

/-- A tree is read from sound drafts only. -/
theorem Tree.sound_decode : ReadsSound shape.decode :=
  Shape.sound ⟨NodeIndex.sound_decode, StringPool.sound_decode,
    Draft.sound_list TreeNode.sound_decode, trivial⟩

/-- A position is read the same after it has been edited. -/
theorem Position.keeps_decode : KeepsReading shape.decode PositionEdit :=
  Shape.keeps (by decide) ⟨NodeData.lenient_of_none, NodeData.lenient_of_none, trivial⟩
    ⟨fun _ _ _ => nofun, fun _ _ _ => nofun, trivial⟩

theorem RecordEdit.ne_null {names optional : List String} {edit : String → Draft → Draft → Prop}
    {one two : Draft} (edited : RecordEdit names optional edit one two) :
    one ≠ .null ∧ two ≠ .null := by
  cases edited <;> exact ⟨nofun, nofun⟩

/-- A node is read the same after it has been edited. -/
theorem TreeNode.keeps_decode : KeepsReading shape.decode NodeEdit := by
  have lenientSpan : (⟨"span", Draft.decodeOption Position.shape.decode, some none⟩ :
      Field (Option Position)).Lenient := NodeData.lenient_option nofun
  refine Shape.keeps (by decide) ⟨NodeData.lenient_of_none, lenientSpan, trivial⟩ ⟨?_, ?_, trivial⟩
  · rintro one two data (⟨-, edited⟩ | ⟨other, -⟩) decoded
    · exact NodeData.keeps_decode one two data edited decoded
    · exact absurd other (by decide)
  · rintro one two span (⟨other, -⟩ | ⟨-, edited⟩) decoded
    · exact absurd other (by decide)
    · exact Draft.keeps_option Position.keeps_decode (fun _ _ => RecordEdit.ne_null) one two span edited
        decoded

/-- A tree is read the same after it has been edited. -/
theorem Tree.keeps_decode : KeepsReading shape.decode TreeEdit := by
  have lenientStrings : (⟨"strings", StringPool.decode, some .empty⟩ : Field StringPool).Lenient := by
    rintro draft value (rfl | rfl) - decoded
    · cases decoded
    · cases decoded
      rfl
  refine Shape.keeps (by decide) ⟨NodeData.lenient_of_none, lenientStrings,
    NodeData.lenient_of_none, trivial⟩
    ⟨?_, ?_, ?_, trivial⟩
  · rintro one two root ⟨other, -⟩
    exact absurd other (by decide)
  · rintro one two strings ⟨other, -⟩
    exact absurd other (by decide)
  · rintro one two nodes ⟨-, edited⟩ decoded
    exact Draft.keeps_list TreeNode.keeps_decode one two nodes edited decoded

/-! ## Texts -/

theorem Tree.ofText_eq_ok_iff {text : String} {tree : Tree} : ofText text = .ok tree ↔
    ∃ draft, Draft.Notates text draft ∧ shape.decode draft = .ok tree := by
  constructor
  · intro read
    rw [ofText, Shape.ofText] at read
    rcases reads : Draft.read text with ⟨draft, whole⟩
    rw [reads] at read
    dsimp only at read
    cases decoded : shape.decode draft with
    | error fault =>
        rw [decoded] at read
        cases read
    | ok found =>
        rw [decoded] at read
        cases whole with
        | false => cases read
        | true =>
            cases read
            exact ⟨draft, Draft.notates_iff.2 ⟨reads, sound_decode draft tree decoded⟩, decoded⟩
  · rintro ⟨draft, notates, decoded⟩
    rw [ofText, Shape.ofText, (Draft.notates_iff.1 notates).1]
    dsimp only
    rw [decoded]
    rfl

theorem Tree.keeps_edits : KeepsReading shape.decode (Relation.ReflTransGen TreeEdit) := by
  intro one two tree edits decoded
  induction edits with
  | refl => exact decoded
  | tail _ edited inductionHypothesis => exact keeps_decode _ _ tree edited inductionHypothesis

/-! ## Edited drafts can be written -/

theorem NodeData.staysSpelled_dataEdit : Draft.StaysSpelled DataEdit := by
  rintro _ _ (⟨-, edited⟩ | ⟨before, after, -, -⟩ | ⟨items, -, -⟩) spelled
  · exact Draft.spelled_membersEdit edited spelled
  · rw [Draft.spelled_object_iff, List.forall_mem_append, List.forall_mem_cons] at spelled ⊢
    exact ⟨spelled.1, ⟨spelled.2.1.1, Draft.spelled_text _⟩, spelled.2.2⟩
  · rw [Draft.spelled_array_iff, List.forall_mem_cons] at spelled ⊢
    exact ⟨Draft.spelled_text _, spelled.2⟩

theorem TreeNode.staysSpelled_nodeEdit : Draft.StaysSpelled NodeEdit := by
  refine Draft.staysSpelled_recordEdit fun name => ?_
  rintro one two (⟨-, edited⟩ | ⟨-, edited⟩) spelled
  · exact NodeData.staysSpelled_dataEdit one two edited spelled
  · exact Draft.staysSpelled_recordEdit (fun _ _ _ => nofun) one two edited spelled

theorem Tree.staysSpelled_edits : Draft.StaysSpelled (Relation.ReflTransGen TreeEdit) := by
  have step : Draft.StaysSpelled TreeEdit := by
    refine Draft.staysSpelled_recordEdit fun name => ?_
    rintro one two ⟨-, edited⟩ spelled
    exact Draft.staysSpelled_itemEdit TreeNode.staysSpelled_nodeEdit one two edited spelled
  intro one two edits spelled
  induction edits with
  | refl => exact spelled
  | tail _ edited inductionHypothesis => exact step _ _ edited inductionHypothesis

/-- A text that is read as a tree is the notation of some draft.  However that draft is edited, the
outcome can be written, and however it is written, it is still read as the same tree. -/
theorem ofText_of_edits {text : String} {tree : Tree} (reads : Tree.ofText text = .ok tree) :
    (∃ draft, Draft.Notates text draft) ∧
    ∀ draft edited, Draft.Notates text draft → Relation.ReflTransGen TreeEdit draft edited →
      (∃ edition, Draft.Notates edition edited) ∧
      ∀ edition, Draft.Notates edition edited → Tree.ofText edition = .ok tree := by
  obtain ⟨found, notates, decoded⟩ := Tree.ofText_eq_ok_iff.1 reads
  refine ⟨⟨found, notates⟩, fun draft edited also edits => ?_⟩
  have same : (found, true) = (draft, true) :=
    (Draft.notates_iff.1 notates).1.symm.trans (Draft.notates_iff.1 also).1
  obtain rfl : found = draft := (Prod.mk.inj same).1
  have decodedEdited := Tree.keeps_edits _ _ tree edits decoded
  refine ⟨Draft.exists_notates_iff.2 ⟨Tree.sound_decode edited tree decodedEdited, ?_⟩, ?_⟩
  · exact Tree.staysSpelled_edits _ _ edits (Draft.exists_notates_iff.1 ⟨text, notates⟩).2
  · exact fun edition editionNotates =>
      Tree.ofText_eq_ok_iff.2 ⟨edited, editionNotates, decodedEdited⟩

/-- A tree of one unknown construct, written with all that there may be. -/
def mysteryJson : Json :=
  .object [("root", .natural 0), ("strings", .array []),
    ("nodes", .array [.object [("data", .object [("depth", .natural 1), ("tag", .text "mystery")]),
      ("span", .null)]])]

/-- The same tree with its members in another order, some of them left out and others put in, and
with another name for the construct. -/
def riddleJson : Json :=
  .object [("nodes", .array [.object [("data", .object [("tag", .text "riddle"),
      ("depth", .natural 1), ("note", .array [.bool true])])]]), ("root", .natural 0)]

theorem ofText_of_edits_riddle :
    Tree.ofText mysteryJson.print = .ok ⟨⟨0⟩, .empty, #[⟨.other, none⟩]⟩ ∧
      Tree.ofText riddleJson.print = .ok ⟨⟨0⟩, .empty, #[⟨.other, none⟩]⟩ := by
  let root : Option String × Draft := (some "root", .number (.integer 0))
  let strings : Option String × Draft := (some "strings", .array [] true)
  let nodes (data : Draft) (rest : List (Option String × Draft)) : Option String × Draft :=
    (some "nodes", .array [.object ((some "data", data) :: rest) true] true)
  let span : Option String × Draft := (some "span", .null)
  let depth : Option String × Draft := (some "depth", .number (.integer 1))
  let tag (name : String) : Option String × Draft := (some "tag", .text (some name))
  let note : Option String × Draft := (some "note", .array [.bool true] true)
  let riddle : Draft := .object [tag "riddle", depth, note] true
  have inNode {before after : Draft} (edited : NodeEdit before after) :
      TreeEdit (.object [root, strings, (some "nodes", .array [before] true)] true)
        (.object [root, strings, (some "nodes", .array [after] true)] true) :=
    .member [root, strings] [] (by decide) ⟨rfl, .item [] [] edited⟩
  have inData {before after : Draft} (edited : DataEdit before after) :
      TreeEdit (.object [root, strings, nodes before [span]] true)
        (.object [root, strings, nodes after [span]] true) :=
    inNode (.member [] [span] (by decide) (.inl ⟨rfl, edited⟩))
  have renamed : DataEdit (.object [depth, tag "mystery"] true) (.object [depth, tag "riddle"] true) :=
    .rename [depth] [] (by decide) (by decide)
  have permuted : DataEdit (.object [depth, tag "riddle"] true) (.object [tag "riddle", depth] true) :=
    .members (show tag "riddle" ∈ [depth, tag "riddle"] by simp) (.permute (.swap _ _ _))
  have nests : (Draft.array [.bool true] true).Nests surplusDepth := .array (by simpa using .bool _ _)
  have inserted : DataEdit (.object [tag "riddle", depth] true) riddle :=
    .members (show tag "riddle" ∈ [tag "riddle", depth] by simp)
      (.insert [tag "riddle", depth] [] (by decide) nests)
  have spanGone : TreeEdit (.object [root, strings, nodes riddle [span]] true)
      (.object [root, strings, nodes riddle []] true) :=
    inNode (.members (.remove [(some "data", riddle)] [] (by decide) (.inl rfl)))
  have stringsGone : TreeEdit (.object [root, strings, nodes riddle []] true)
      (.object [root, nodes riddle []] true) :=
    .members (.remove [root] [nodes riddle []] (by decide) (.inr rfl))
  have swapped : TreeEdit (.object [root, nodes riddle []] true)
      (.object [nodes riddle [], root] true) :=
    .members (.permute (.swap _ _ _))
  have edits : Relation.ReflTransGen TreeEdit mysteryJson.toDraft riddleJson.toDraft :=
    .tail (.tail (.tail (.tail (.tail (.tail .refl (inData renamed)) (inData permuted))
      (inData inserted)) spanGone) stringsGone) swapped
  have exactMystery : mysteryJson.Exact := by
    simp [mysteryJson, Json.Exact, Json.ExactMembers, Json.ExactItems, Json.natural, lowestInt64,
      UInt64.size]
  have exactRiddle : riddleJson.Exact := by
    simp [riddleJson, Json.Exact, Json.ExactMembers, Json.ExactItems, Json.natural, lowestInt64,
      UInt64.size]
  have mystery : Draft.Notates mysteryJson.print mysteryJson.toDraft :=
    Draft.notates_iff.2 ⟨Draft.read_print exactMystery, by decide⟩
  have edition : Draft.Notates riddleJson.print riddleJson.toDraft :=
    Draft.notates_iff.2 ⟨Draft.read_print exactRiddle, by decide⟩
  have reads : Tree.ofText mysteryJson.print = .ok ⟨⟨0⟩, .empty, #[⟨.other, none⟩]⟩ :=
    Tree.ofText_eq_ok_iff.2 ⟨_, mystery, rfl⟩
  exact ⟨reads, ((ofText_of_edits reads).2 _ _ mystery edits).2 _ edition⟩

end EscapePlan
