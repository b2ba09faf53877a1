/-!
# Tables

A table assigns values to natural numbers.  Its entries are kept in ascending order of
their keys, so two tables with the same entries are equal and listing a table is
always listing it in order.

`Table.find?` is the view through which the operations are described.
-/

namespace EscapePlan

/-- A table from natural numbers to values. -/
structure Table (α : Type) where
  entries : List (Nat × α)
  ascending : entries.Pairwise (·.1 < ·.1)
  deriving Repr

namespace Table

variable {α : Type}

/-- The table without entries. -/
def empty : Table α :=
  ⟨[], List.Pairwise.nil⟩

instance : Inhabited (Table α) :=
  ⟨empty⟩

theorem eq_of_entries_eq {first second : Table α} (same : first.entries = second.entries) :
    first = second := by
  cases first
  cases second
  cases same
  rfl

instance [DecidableEq α] : DecidableEq (Table α) := fun first second =>
  if same : first.entries = second.entries then .isTrue (eq_of_entries_eq same)
  else .isFalse fun equal => same (equal ▸ rfl)

/-- The value that a list of entries gives to a key. -/
def findIn? (key : Nat) : List (Nat × α) → Option α
  | [] => none
  | (other, value) :: rest => if key = other then some value else findIn? key rest

/-- Puts an entry in its place in an ascending list, replacing one of the same key. -/
def insertEntry (key : Nat) (value : α) : List (Nat × α) → List (Nat × α)
  | [] => [(key, value)]
  | (other, old) :: rest =>
      if key < other then (key, value) :: (other, old) :: rest
      else if key = other then (key, value) :: rest
      else (other, old) :: insertEntry key value rest

theorem mem_insertEntry {key : Nat} {value : α} {entries : List (Nat × α)} {entry : Nat × α}
    (member : entry ∈ insertEntry key value entries) : entry = (key, value) ∨ entry ∈ entries := by
  fun_induction insertEntry key value entries with
  | case1 => simpa using member
  | case2 => simpa using member
  | case3 =>
      rcases List.mem_cons.1 member with new | old
      · exact .inl new
      · exact .inr (List.mem_cons_of_mem _ old)
  | case4 _ _ _ _ _ inductionHypothesis =>
      rcases List.mem_cons.1 member with first | rest
      · exact .inr (first ▸ List.mem_cons_self)
      · exact (inductionHypothesis rest).imp id (List.mem_cons_of_mem _)

theorem ascending_insertEntry (key : Nat) (value : α) {entries : List (Nat × α)}
    (ascending : entries.Pairwise (·.1 < ·.1)) :
    (insertEntry key value entries).Pairwise (·.1 < ·.1) := by
  fun_induction insertEntry key value entries with
  | case1 => exact List.pairwise_singleton _ _
  | case2 other old rest less =>
      refine List.pairwise_cons.2 ⟨fun entry member => ?_, ascending⟩
      rcases List.mem_cons.1 member with first | later
      · exact first ▸ less
      · exact Nat.lt_trans less ((List.pairwise_cons.1 ascending).1 entry later)
  | case3 other rest _ =>
      exact List.pairwise_cons.2 (List.pairwise_cons.1 ascending)
  | case4 other old rest notLess different inductionHypothesis =>
      have ⟨above, tail⟩ := List.pairwise_cons.1 ascending
      refine List.pairwise_cons.2 ⟨fun entry member => ?_, inductionHypothesis tail⟩
      rcases mem_insertEntry member with new | old
      · subst new
        exact Nat.lt_of_le_of_ne (Nat.le_of_not_lt notLess) (Ne.symm different)
      · exact above entry old

/-- The value of a key. -/
def find? (table : Table α) (key : Nat) : Option α :=
  findIn? key table.entries

/-- Gives a key a value. -/
def insert (table : Table α) (key : Nat) (value : α) : Table α :=
  ⟨insertEntry key value table.entries, ascending_insertEntry key value table.ascending⟩

/-- Changes all values. -/
def map {β : Type} (change : α → β) (table : Table α) : Table β where
  entries := table.entries.map fun entry => (entry.1, change entry.2)
  ascending := List.pairwise_map.2 table.ascending

/-- Changes the value of a key, if it has one. -/
def modify (table : Table α) (key : Nat) (change : α → α) : Table α where
  entries := table.entries.map fun entry =>
    (entry.1, if entry.1 = key then change entry.2 else entry.2)
  ascending := List.pairwise_map.2 table.ascending

/-- The keys in ascending order. -/
def keys (table : Table α) : List Nat :=
  table.entries.map (·.1)

/-- The values in ascending order of their keys. -/
def values (table : Table α) : List α :=
  table.entries.map (·.2)

/-- The number of entries. -/
def size (table : Table α) : Nat :=
  table.entries.length

@[simp] theorem find?_empty (key : Nat) : (empty : Table α).find? key = none := rfl

theorem findIn?_insertEntry (key other : Nat) (value : α) (entries : List (Nat × α)) :
    findIn? other (insertEntry key value entries) =
      if other = key then some value else findIn? other entries := by
  fun_induction insertEntry key value entries with
  | case1 => rfl
  | case2 => rfl
  | case3 => grind [findIn?]
  | case4 => grind [findIn?]

/-- After giving a key a value, that key has it and every other key is unchanged. -/
theorem find?_insert (table : Table α) (key other : Nat) (value : α) :
    (table.insert key value).find? other =
      if other = key then some value else table.find? other :=
  findIn?_insertEntry key other value table.entries

theorem findIn?_map {β : Type} (change : Nat → α → β) (key : Nat) (entries : List (Nat × α)) :
    findIn? key (entries.map fun entry => (entry.1, change entry.1 entry.2)) =
      (findIn? key entries).map (change key) := by
  induction entries with
  | nil => rfl
  | cons entry entries inductionHypothesis =>
      obtain ⟨other, value⟩ := entry
      simp only [List.map_cons, findIn?]
      split
      next same => rw [same]; rfl
      next => exact inductionHypothesis

@[simp] theorem find?_map {β : Type} (change : α → β) (table : Table α) (key : Nat) :
    (table.map change).find? key = (table.find? key).map change :=
  findIn?_map (fun _ => change) key table.entries

theorem mem_of_findIn? {key : Nat} {value : α} {entries : List (Nat × α)}
    (found : findIn? key entries = some value) : (key, value) ∈ entries := by
  fun_induction findIn? key entries with
  | case1 => contradiction
  | case2 =>
      cases found
      exact List.mem_cons_self
  | case3 _ _ _ _ inductionHypothesis =>
      exact List.mem_cons_of_mem _ (inductionHypothesis found)

theorem findIn?_of_mem {key : Nat} {value : α} {entries : List (Nat × α)}
    (ascending : entries.Pairwise (·.1 < ·.1)) (member : (key, value) ∈ entries) :
    findIn? key entries = some value := by
  induction entries with
  | nil => contradiction
  | cons entry entries inductionHypothesis =>
      have ⟨above, tail⟩ := List.pairwise_cons.1 ascending
      rcases List.mem_cons.1 member with rfl | later
      · rw [findIn?, if_pos rfl]
      · rw [findIn?, if_neg (Nat.ne_of_gt (above _ later))]
        exact inductionHypothesis tail later

/-- A key has the value that is listed under it. -/
theorem find?_eq_some_iff {table : Table α} {key : Nat} {value : α} :
    table.find? key = some value ↔ (key, value) ∈ table.entries :=
  ⟨mem_of_findIn?, findIn?_of_mem table.ascending⟩

/-- Ascending lists with the same entries are equal. -/
theorem eq_of_mem_iff {first second : List (Nat × α)} (ascending : first.Pairwise (·.1 < ·.1))
    (secondAscending : second.Pairwise (·.1 < ·.1))
    (same : ∀ entry, entry ∈ first ↔ entry ∈ second) : first = second := by
  induction first generalizing second with
  | nil => exact (List.eq_nil_iff_forall_not_mem.2 fun entry => mt (same entry).2 (by simp)).symm
  | cons entry first inductionHypothesis =>
      cases second with
      | nil => exact absurd ((same entry).1 List.mem_cons_self) List.not_mem_nil
      | cons other second =>
          have ⟨above, tail⟩ := List.pairwise_cons.1 ascending
          have ⟨otherAbove, otherTail⟩ := List.pairwise_cons.1 secondAscending
          have heads : entry = other := by
            rcases List.mem_cons.1 ((same entry).1 List.mem_cons_self) with equal | later
            · exact equal
            · rcases List.mem_cons.1 ((same other).2 List.mem_cons_self) with equal | otherLater
              · exact equal.symm
              · exact absurd (above other otherLater) (Nat.lt_asymm (otherAbove entry later))
          subst heads
          refine congrArg _ (inductionHypothesis tail otherTail fun item => ?_)
          constructor
          · intro member
            refine (List.mem_cons.1 ((same item).1 (List.mem_cons_of_mem _ member))).resolve_left ?_
            exact fun equal => Nat.lt_irrefl _ (equal ▸ above item member)
          · intro member
            refine (List.mem_cons.1 ((same item).2 (List.mem_cons_of_mem _ member))).resolve_left ?_
            exact fun equal => Nat.lt_irrefl _ (equal ▸ otherAbove item member)

/-- Tables that give all keys the same values are equal. -/
theorem ext_find? {first second : Table α} (same : ∀ key, first.find? key = second.find? key) :
    first = second := by
  refine eq_of_entries_eq (eq_of_mem_iff first.ascending second.ascending ?_)
  intro (key, value)
  rw [← find?_eq_some_iff, ← find?_eq_some_iff, same]

/-- The value of a key has the place of the key. -/
theorem getElem?_values {table : Table α} {place key : Nat} {value : α}
    (keyEq : table.keys[place]? = some key) (found : table.find? key = some value) :
    table.values[place]? = some value := by
  rw [keys, List.getElem?_map] at keyEq
  rcases Option.map_eq_some_iff.1 keyEq with ⟨⟨key, other⟩, entryEq, rfl⟩
  have member := find?_eq_some_iff.2 (List.mem_of_getElem? entryEq)
  cases found.symm.trans member
  rw [values, List.getElem?_map, entryEq]
  rfl

theorem mem_keys_iff {table : Table α} {key : Nat} :
    key ∈ table.keys ↔ ∃ value, table.find? key = some value := by
  simp only [keys, List.mem_map, find?_eq_some_iff]
  constructor
  · rintro ⟨⟨other, value⟩, member, rfl⟩
    exact ⟨value, member⟩
  · rintro ⟨value, member⟩
    exact ⟨_, member, rfl⟩

theorem mem_keys_insert {table : Table α} {key other : Nat} {value : α} :
    other ∈ (table.insert key value).keys ↔ other = key ∨ other ∈ table.keys := by
  rw [mem_keys_iff, mem_keys_iff, find?_insert]
  split
  next same => simp [same]
  next different => simp [different]

/-- Changing the value of a key leaves every other key unchanged. -/
theorem find?_modify (table : Table α) (key other : Nat) (change : α → α) :
    (table.modify key change).find? other =
      (table.find? other).map fun value => if other = key then change value else value :=
  findIn?_map (fun place value => if place = key then change value else value) other table.entries

theorem insertEntry_of_lt {key : Nat} {value : α} {entries : List (Nat × α)}
    (last : ∀ entry ∈ entries, entry.1 < key) :
    insertEntry key value entries = entries ++ [(key, value)] := by
  fun_induction insertEntry key value entries with
  | case1 => rfl
  | case2 other old rest less =>
      exact absurd less (Nat.lt_asymm (last (other, old) List.mem_cons_self))
  | case3 old rest _ => exact absurd (last (key, old) List.mem_cons_self) (Nat.lt_irrefl key)
  | case4 _ _ _ _ _ inductionHypothesis =>
      rw [inductionHypothesis fun entry member => last entry (List.mem_cons_of_mem _ member)]
      rfl

/-- A key greater than all others comes last. -/
theorem keys_insert_of_lt {table : Table α} {key : Nat} {value : α}
    (last : ∀ other ∈ table.keys, other < key) :
    (table.insert key value).keys = table.keys ++ [key] := by
  have entriesEq := @insertEntry_of_lt α key value table.entries fun entry member =>
    last entry.1 (List.mem_map_of_mem member)
  exact (congrArg (List.map (·.1)) entriesEq).trans List.map_append

theorem map_insertEntry_of_mem {key : Nat} {value : α} {entries : List (Nat × α)}
    (ascending : entries.Pairwise (·.1 < ·.1)) (known : key ∈ entries.map (·.1)) :
    (insertEntry key value entries).map (·.1) = entries.map (·.1) := by
  fun_induction insertEntry key value entries with
  | case1 => contradiction
  | case2 other old rest less =>
      rcases List.mem_cons.1 known with same | later
      · exact absurd less (same ▸ Nat.lt_irrefl _)
      · rcases List.mem_map.1 later with ⟨entry, member, same⟩
        have above := (List.pairwise_cons.1 ascending).1 entry member
        rw [same] at above
        exact absurd less (Nat.lt_asymm above)
  | case3 => rfl
  | case4 _ _ _ _ different inductionHypothesis =>
      have later := (List.mem_cons.1 known).resolve_left different
      rw [List.map_cons, inductionHypothesis (List.pairwise_cons.1 ascending).2 later]
      rfl

/-- Giving a known key another value does not change which keys there are. -/
theorem keys_insert_of_mem {table : Table α} {key : Nat} {value : α} (known : key ∈ table.keys) :
    (table.insert key value).keys = table.keys :=
  map_insertEntry_of_mem table.ascending known

@[simp] theorem keys_map {β : Type} (change : α → β) (table : Table α) :
    (table.map change).keys = table.keys := by
  simp [keys, map, Function.comp_def]

@[simp] theorem keys_modify (table : Table α) (key : Nat) (change : α → α) :
    (table.modify key change).keys = table.keys := by
  simp [keys, modify, Function.comp_def]

end Table

end EscapePlan
