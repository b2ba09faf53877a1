import EscapePlan.CommandLine.SafePath

/-!
# Which paths climb

A path climbs if one of the segments between its slashes is `..`.  However many slashes follow each
other, and wherever there are segments that lead nowhere, this is so if and only if one of its
components is the parent directory; so just these paths are refused.
-/

namespace EscapePlan

namespace Path

/-- Some segment of a path between its slashes is `..`. -/
def Climbs (path : String) : Prop :=
  ['.', '.'] ∈ path.toList.splitOn '/'

instance (path : String) : Decidable (Climbs path) :=
  inferInstanceAs (Decidable (_ ∈ _))

theorem split_eq_splitOn (text : List Char) : segments.split text = text.splitOn '/' := by
  induction text with
  | nil => rfl
  | cons char rest inductionHypothesis =>
      rw [segments.split, inductionHypothesis, List.splitOn, List.splitOn,
        List.splitOnP_cons_eq_if_modifyHead]
      split
      next slash => rw [if_pos (beq_iff_eq.2 slash)]
      next other =>
        rw [if_neg (mt beq_iff_eq.1 other)]
        have nonempty := @List.splitOnP_ne_nil _ (· == '/') rest
        cases pieces : List.splitOnP (· == '/') rest with
        | nil => exact absurd pieces nonempty
        | cons => rfl

theorem mem_segments_iff {path segment : String} :
    segment ∈ segments path ↔ segment.toList ∈ path.toList.splitOn '/' := by
  rw [segments, split_eq_splitOn, List.mem_map]
  constructor
  · rintro ⟨chars, listed, rfl⟩
    rwa [String.toList_ofList]
  · intro listed
    exact ⟨segment.toList, listed, String.ofList_toList⟩

theorem Component.ofSegment?_eq_parent_iff {segment : String} :
    ofSegment? segment = some .parent ↔ segment = ".." := by
  unfold ofSegment?
  split <;> simp_all

/-- What a path begins with leads nowhere else. -/
theorem parent_notMem_start (segments : List String) : .parent ∉ components.start segments := by
  unfold components.start
  split <;> simp

theorem parent_mem_components_iff (path : String) : .parent ∈ components path ↔ Climbs path := by
  rw [components, List.mem_append, or_iff_right (parent_notMem_start _), List.mem_filterMap, Climbs]
  constructor
  · rintro ⟨segment, listed, isParent⟩
    rw [Component.ofSegment?_eq_parent_iff.1 isParent] at listed
    exact mem_segments_iff.1 listed
  · intro listed
    exact ⟨"..", mem_segments_iff.2 listed, rfl⟩

end Path

namespace SafePath

/-- A path that is taken is taken as it is. -/
theorem ofText_eq_ok_iff {text : String} {path : SafePath} :
    ofText text = .ok path ↔ path.text = text := by
  unfold ofText
  split
  next climbs =>
    refine iff_of_false nofun ?_
    rintro rfl
    exact path.stays climbs
  next stays =>
    constructor
    · rintro ⟨⟩
      rfl
    · rintro rfl
      rfl

theorem text_injective : Function.Injective SafePath.text :=
  fun ⟨_, _⟩ ⟨_, _⟩ same => SafePath.mk.injEq .. ▸ same

theorem not_climbs (path : SafePath) : ¬ Path.Climbs path.text :=
  mt (Path.parent_mem_components_iff path.text).2 path.stays

/-- A path is refused if and only if it climbs. -/
theorem ofText_eq_error_iff (text : String) :
    ofText text = .error (refusal text) ↔ Path.Climbs text := by
  rw [← Path.parent_mem_components_iff, ofText]
  split
  next climbs => exact iff_of_true rfl climbs
  next stays => exact iff_of_false nofun stays

end SafePath

end EscapePlan
