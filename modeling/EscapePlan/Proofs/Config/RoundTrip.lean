import EscapePlan.Config.Document
import EscapePlan.Proofs.Config.Lines
import EscapePlan.Proofs.Tree.RoundTrip
import Mathlib.Data.List.Nodup

/-!
# Configurations are read as they are written

Writing a configuration as a TOML text and reading the text gives the configuration.  Each setting
has a line of its own; without it, just that setting is reset to its default.
-/

namespace EscapePlan

/-- What a configuration settles. -/
inductive Setting where
  | maxObjectSize
  | maxFrameSize
  | unknownIsBottom
  | enableScalarReplacement
  | objectSize
  | arraySize
  | stringSize
  | closureSize
  deriving DecidableEq, Repr

namespace Setting

/-- The settings that are not default sizes. -/
def outer : List Setting :=
  [.maxObjectSize, .maxFrameSize, .unknownIsBottom, .enableScalarReplacement]

/-- The settings that are default sizes. -/
def inner : List Setting :=
  [.objectSize, .arraySize, .stringSize, .closureSize]

/-- What a setting is called. -/
def key : Setting → String
  | .maxObjectSize => "max_object_size"
  | .maxFrameSize => "max_frame_size"
  | .unknownIsBottom => "unknown_is_bottom"
  | .enableScalarReplacement => "enable_scalar_replacement"
  | .objectSize => "object"
  | .arraySize => "array"
  | .stringSize => "string"
  | .closureSize => "closure"

/-- What a configuration says about a setting. -/
def value (config : Config) : Setting → UInt32 ⊕ Bool
  | .maxObjectSize => .inl config.maxObjectSize
  | .maxFrameSize => .inl config.maxFrameSize
  | .unknownIsBottom => .inr config.unknownIsBottom
  | .enableScalarReplacement => .inr config.enableScalarReplacement
  | .objectSize => .inl config.defaultSizes.object
  | .arraySize => .inl config.defaultSizes.array
  | .stringSize => .inl config.defaultSizes.string
  | .closureSize => .inl config.defaultSizes.closure

/-- How a value is written. -/
def word : UInt32 ⊕ Bool → String
  | .inl size => toString size.toNat
  | .inr flag => if flag then "true" else "false"

/-- The line of a setting, without its line break. -/
def line (config : Config) (setting : Setting) : String :=
  setting.key ++ " = " ++ word (setting.value config)

end Setting

/-- A configuration some of whose settings are reset to their defaults. -/
def Config.resetting (config : Config) (dropped : List Setting) : Config where
  maxObjectSize :=
    if .maxObjectSize ∈ dropped then ({} : Config).maxObjectSize else config.maxObjectSize
  maxFrameSize :=
    if .maxFrameSize ∈ dropped then ({} : Config).maxFrameSize else config.maxFrameSize
  unknownIsBottom :=
    if .unknownIsBottom ∈ dropped then ({} : Config).unknownIsBottom else config.unknownIsBottom
  enableScalarReplacement :=
    if .enableScalarReplacement ∈ dropped then ({} : Config).enableScalarReplacement
    else config.enableScalarReplacement
  defaultSizes :=
    { object :=
        if .objectSize ∈ dropped then ({} : DefaultSizes).object else config.defaultSizes.object
      array :=
        if .arraySize ∈ dropped then ({} : DefaultSizes).array else config.defaultSizes.array
      string :=
        if .stringSize ∈ dropped then ({} : DefaultSizes).string else config.defaultSizes.string
      closure :=
        if .closureSize ∈ dropped then ({} : DefaultSizes).closure
        else config.defaultSizes.closure }

/-- A text without those of its lines that are listed. -/
def withoutLines (dropped : List String) (text : String) : String :=
  String.ofList <| ['\n'].intercalate <|
    (text.toList.splitOn '\n').filter fun line => String.ofList line ∉ dropped

/-! ## Lines of a configuration -/

namespace Setting

theorem isKey (setting : Setting) : Toml.IsKey setting.key := by
  cases setting <;> exact ⟨by decide, List.all_eq_true.1 (by decide)⟩

/-- A value as a JSON value. -/
def json : UInt32 ⊕ Bool → Json
  | .inl size => .natural size.toNat
  | .inr flag => .bool flag

theorem isWord (value : UInt32 ⊕ Bool) : Toml.IsWord (word value).toList (json value) := by
  cases value with
  | inl size =>
      have digits : (word (.inl size)).toList = Nat.toDigits 10 size.toNat := by
        rw [word, Nat.toString_eq_repr, Nat.toList_repr]
      have bound := size.toNat_lt
      rw [digits]
      exact Toml.isWord_natural (by simp only [highestInt64]; omega)
  | inr flag => exact Toml.isWord_bool flag

/-- The line of a setting as a plain line. -/
def plain (config : Config) (setting : Setting) : Toml.Plain where
  key := setting.key
  word := (word (setting.value config)).toList
  json := json (setting.value config)
  isKey := setting.isKey
  isWord := isWord _

theorem toList_line (config : Config) (setting : Setting) : (setting.line config).toList =
    setting.key.toList ++ ' ' :: '=' :: ' ' :: (word (setting.value config)).toList := by
  rw [line, String.toList_append, String.toList_append, List.append_assoc]
  rfl

theorem key_injective : Function.Injective key := by
  intro one two
  cases one <;> cases two <;> simp [key]

theorem key_ne (setting : Setting) : setting.key ≠ "default_sizes" := by
  cases setting <;> simp [key]

/-- A line begins with what its setting is called. -/
theorem line_injective (config : Config) : Function.Injective (line config) := by
  intro one two same
  have before (setting : Setting) :
      (setting.line config).toList.takeWhile Toml.isBare = setting.key.toList := by
    rw [toList_line, List.takeWhile_append_of_pos setting.isKey.chars,
      List.takeWhile_cons_of_neg (by decide), List.append_nil]
  have keys : one.key.toList = two.key.toList := by
    rw [← before, ← before, same]
  exact key_injective (String.toList_inj.1 keys)

theorem line_ne {config : Config} {setting : Setting} {text : String} (noSign : '=' ∉ text.toList) :
    setting.line config ≠ text := by
  rintro rfl
  apply noSign
  simp [toList_line]

theorem not_mem_line {config : Config} {setting : Setting} : '\n' ∉ (setting.line config).toList := by
  rw [toList_line, List.mem_append, not_or]
  constructor
  · intro listed
    exact absurd (setting.isKey.chars _ listed) (by decide)
  · intro listed
    simp only [List.mem_cons] at listed
    rcases listed with same | same | same | listed
    · exact absurd same (by decide)
    · exact absurd same (by decide)
    · exact absurd same (by decide)
    · exact absurd ((isWord _).chars _ listed) (by decide)

end Setting

/-- Lines that each end with a break, as pieces between breaks. -/
theorem intercalate_breaks (lines : List (List Char)) :
    ['\n'].intercalate (lines ++ [[]]) = lines.flatMap (· ++ ['\n']) := by
  induction lines with
  | nil => rfl
  | cons line lines inductionHypothesis =>
      have step : ['\n'].intercalate (line :: (lines ++ [[]])) =
          line ++ ['\n'] ++ ['\n'].intercalate (lines ++ [[]]) := by
        cases lines <;> exact List.intercalate_cons_cons
      rw [List.cons_append, step, inductionHypothesis, List.flatMap_cons]

namespace Config

/-- The lines of a configuration, without their line breaks. -/
def lines (config : Config) : List String :=
  Setting.outer.map (·.line config) ++ ["", "[default_sizes]"] ++
    Setting.inner.map (·.line config)

theorem toList_toToml (config : Config) :
    config.toToml.toList = ['\n'].intercalate (config.lines.map String.toList ++ [[]]) := by
  have broken : config.tomlLines = config.lines.map (· ++ "\n") := rfl
  rw [intercalate_breaks, toToml, String.toList_join, broken, List.flatMap_map, List.flatMap_map]
  simp only [String.toList_append]
  rfl

theorem splitOn_toToml (config : Config) :
    config.toToml.toList.splitOn '\n' = config.lines.map String.toList ++ [[]] := by
  have whole : ∀ line ∈ config.lines, '\n' ∉ line.toList := by
    intro line listed
    simp only [lines, List.mem_append, List.mem_map, List.mem_cons,
      List.not_mem_nil, or_false] at listed
    rcases listed with (⟨setting, -, rfl⟩ | rfl | rfl) | ⟨setting, -, rfl⟩
    · exact Setting.not_mem_line
    · decide
    · decide
    · exact Setting.not_mem_line
  rw [toList_toToml]
  refine List.splitOn_intercalate '\n' (fun chars listed => ?_) (by simp)
  rcases List.mem_append.1 listed with listed | listed
  · obtain ⟨line, given, rfl⟩ := List.mem_map.1 listed
    exact whole line given
  · rw [List.mem_singleton.1 listed]
    exact List.not_mem_nil

/-- Just the lines of settings have an equals sign. -/
theorem signedLines_toToml (config : Config) :
    ((config.toToml.toList.splitOn '\n').filter ('=' ∈ ·)).map String.ofList =
      (Setting.outer ++ Setting.inner).map (·.line config) := by
  have signed (settings : List Setting) :
      ((settings.map (·.line config)).map String.toList).filter ('=' ∈ ·) =
        (settings.map (·.line config)).map String.toList := by
    refine List.filter_eq_self.2 fun chars listed => decide_eq_true ?_
    obtain ⟨line, given, rfl⟩ := List.mem_map.1 listed
    obtain ⟨setting, -, rfl⟩ := List.mem_map.1 given
    simp [Setting.toList_line]
  have plain : ((["", "[default_sizes]"].map String.toList).filter ('=' ∈ ·)) = [] := by decide
  have last : ([[]] : List (List Char)).filter ('=' ∈ ·) = [] := rfl
  rw [splitOn_toToml, lines, List.map_append, List.map_append, List.filter_append, List.filter_append,
    List.filter_append, signed, signed, plain, last, List.append_nil, List.append_nil,
    ← List.map_append, List.map_map, List.map_append]
  simp

/-- The settings of a list that are not dropped. -/
def kept (dropped : List Setting) (settings : List Setting) : List Setting :=
  settings.filter (· ∉ dropped)

/-- The lines that are left are those of the settings that are kept. -/
theorem withoutLines_toToml (config : Config) (dropped : List Setting) :
    withoutLines (dropped.map (·.line config)) config.toToml =
      String.ofList (Toml.lay ((kept dropped Setting.outer).map (·.plain config)) ++
        '\n' :: '[' :: "default_sizes".toList ++ [']', '\n'] ++
          Toml.lay ((kept dropped Setting.inner).map (·.plain config))) := by
  have notDropped {text : String} (noSign : '=' ∉ text.toList) :
      text ∉ dropped.map (·.line config) := by
    intro listed
    obtain ⟨setting, -, same⟩ := List.mem_map.1 listed
    exact Setting.line_ne noSign same
  have filterSettings (settings : List Setting) :
      (settings.map (·.line config)).filter (· ∉ dropped.map (·.line config)) =
        (kept dropped settings).map (·.line config) := by
    rw [List.filter_map, kept]
    refine congrArg (List.map _) (List.filter_congr fun setting _ => ?_)
    exact decide_eq_decide.2 (not_congr (List.mem_map_of_injective (Setting.line_injective config)))
  have filterLines : config.lines.filter (· ∉ dropped.map (·.line config)) =
      (kept dropped Setting.outer).map (·.line config) ++ ["", "[default_sizes]"] ++
        (kept dropped Setting.inner).map (·.line config) := by
    rw [lines, List.filter_append, List.filter_append, filterSettings, filterSettings]
    congr 2
    refine List.filter_eq_self.2 fun text listed => decide_eq_true (notDropped ?_)
    rcases List.mem_pair.1 listed with rfl | rfl <;> decide
  have laid (settings : List Setting) :
      ((settings.map (·.line config)).map String.toList).flatMap (· ++ ['\n']) =
        Toml.lay (settings.map (·.plain config)) := by
    rw [List.map_map, List.flatMap_map, Toml.lay, List.flatMap_map]
    simp only [Function.comp, Setting.toList_line]
    rfl
  have last : [([] : List Char)].filter
      (fun line => String.ofList line ∉ dropped.map (·.line config)) = [[]] := by
    refine List.filter_eq_self.2 fun line listed => decide_eq_true ?_
    rw [List.mem_singleton.1 listed]
    exact notDropped (by decide)
  rw [withoutLines, splitOn_toToml, List.filter_append, List.filter_map]
  have ofChars : (fun line => decide (String.ofList line ∉ dropped.map (·.line config))) ∘
      String.toList =
      fun line => decide (line ∉ dropped.map (·.line config)) := by
    funext line
    simp only [Function.comp, String.ofList_toList]
  rw [ofChars, filterLines, last, intercalate_breaks,
    List.map_append, List.map_append, List.flatMap_append, List.flatMap_append, laid, laid]
  simp

/-! ## Fields of a configuration -/

/-- The members that settings amount to. -/
def members (config : Config) (settings : List Setting) : List (String × Json) :=
  (settings.map (·.plain config)).map Toml.Plain.member

/-- The line of a setting writes its field; without it the field has its default. -/
theorem writes_setting {α : Type} {types : List Type} {field : Field α} {fields : Fields types}
    {value fallback : α} {values : Fields.Values types} {config : Config}
    {dropped settings : List Setting}
    {rest : List (String × Json)} (setting : Setting)
    (spells : Spells (Setting.json (setting.value config)) field.decode value)
    (named : field.name = setting.key) (default : field.fallback = some fallback)
    (writes : fields.Writes values (members config (kept dropped settings) ++ rest)) :
    (Fields.cons field fields).Writes (if setting ∈ dropped then fallback else value, values)
      (members config (kept dropped (setting :: settings)) ++ rest) := by
  by_cases listed : setting ∈ dropped
  · have gone : kept dropped (setting :: settings) = kept dropped settings :=
      List.filter_cons_of_neg (by simp [listed])
    rw [gone, if_pos listed]
    exact .missing default writes
  · have stays : kept dropped (setting :: settings) = setting :: kept dropped settings :=
      List.filter_cons_of_pos (by simp [listed])
    have first : members config (setting :: kept dropped settings) =
        (field.name, Setting.json (setting.value config)) :: members config (kept dropped settings) := by
      rw [named]
      rfl
    rw [stays, if_neg listed, first]
    exact .field spells writes

theorem spells_bool (flag : Bool) : Spells (.bool flag) Draft.decodeBool flag :=
  ⟨trivial, rfl⟩

theorem spells_sizes (config : Config) (dropped : List Setting) :
    Spells (.object (members config (kept dropped Setting.inner))) DefaultSizes.decodeLeading
      (config.resetting dropped).defaultSizes := by
  have writes : DefaultSizes.shape.fields.Writes _ (members config (kept dropped Setting.inner) ++ []) :=
    writes_setting .objectSize (spells_uint32 _) rfl rfl <|
      writes_setting .arraySize (spells_uint32 _) rfl rfl <|
        writes_setting .stringSize (spells_uint32 _) rfl rfl <|
          writes_setting .closureSize (spells_uint32 _) rfl rfl .nil
  rw [List.append_nil] at writes
  have spells := DefaultSizes.shape.spells writes (by decide)
  exact ⟨spells.exact, spells.decode_eq⟩

/-- What the settings that are kept amount to is read with the others at their defaults. -/
theorem spells_resetting (config : Config) (dropped : List Setting) :
    Spells (.object (members config (kept dropped Setting.outer) ++
        [("default_sizes", .object (members config (kept dropped Setting.inner)))]))
      (shapeWith DefaultSizes.decodeLeading).decode (config.resetting dropped) := by
  have writes : (shapeWith DefaultSizes.decodeLeading).fields.Writes _
      (members config (kept dropped Setting.outer) ++
        [("default_sizes", .object (members config (kept dropped Setting.inner)))]) :=
    writes_setting .maxObjectSize (spells_uint32 _) rfl rfl <|
      writes_setting .maxFrameSize (spells_uint32 _) rfl rfl <|
        writes_setting .unknownIsBottom (spells_bool _) rfl rfl <|
          writes_setting .enableScalarReplacement (spells_bool _) rfl rfl <|
            .field (spells_sizes config dropped) .nil
  exact (shapeWith DefaultSizes.decodeLeading).spells writes (by decide)

theorem nodup_keys (config : Config) (dropped : List Setting) {settings : List Setting}
    (distinct : settings.Nodup) :
    (((kept dropped settings).map (·.plain config)).map (·.key)).Nodup := by
  rw [List.map_map]
  exact List.Nodup.map Setting.key_injective (distinct.filter _)

/-- A text without the lines of some settings is read with these at their defaults. -/
theorem ofToml_withoutLines (config : Config) (dropped : List Setting) :
    ofToml (withoutLines (dropped.map (·.line config)) config.toToml) =
      .ok (config.resetting dropped) := by
  have isKey : Toml.IsKey "default_sizes" := ⟨by decide, List.all_eq_true.1 (by decide)⟩
  have isNew : "default_sizes" ∉ ((kept dropped Setting.outer).map (·.plain config)).map (·.key) := by
    rw [List.map_map]
    intro listed
    obtain ⟨setting, -, same⟩ := List.mem_map.1 listed
    exact setting.key_ne same
  have read := Toml.read?_of_plains _ _ isKey isNew (nodup_keys config dropped (by decide))
    (nodup_keys config dropped (show Setting.inner.Nodup by decide))
  rw [ofToml, withoutLines_toToml, read]
  exact congrArg (Except.mapError _) (spells_resetting config dropped).decode_eq

end Config

theorem withoutLines_nil (text : String) : withoutLines [] text = text := by
  have all : (text.toList.splitOn '\n').filter (fun line => String.ofList line ∉ []) =
      text.toList.splitOn '\n' :=
    List.filter_eq_self.2 fun line _ => by simp
  rw [withoutLines, all, List.intercalate_splitOn, String.ofList_toList]

/-- A configuration that is written as a text is read back from it.  The lines of the text with an
equals sign are those of the settings; without some of them, the text is read as the configuration
with just these settings at their defaults. -/
theorem toml_lines_settle_settings (config : Config) :
    Config.ofToml config.toToml = .ok config ∧
    ((config.toToml.toList.splitOn '\n').filter ('=' ∈ ·)).map String.ofList =
      (Setting.outer ++ Setting.inner).map (·.line config) ∧
    ∀ dropped : List Setting,
      Config.ofToml (withoutLines (dropped.map (·.line config)) config.toToml) =
        .ok (config.resetting dropped) := by
  refine ⟨?_, config.signedLines_toToml, config.ofToml_withoutLines⟩
  have all := config.ofToml_withoutLines []
  rwa [List.map_nil, withoutLines_nil] at all

end EscapePlan
