/-!
# The pool of names

A pool lists texts; the id of a text is its place in the list.  A pool that was
written by hand may list a text twice, and then the first place is the id of the
text, while every listed place still resolves.

An index leads from the texts to their ids.  It is brought up to date when texts are
listed, be it from a whole list or one by one, and `PoolTables.Indexed` says that it
always leads to the first places.
-/

namespace EscapePlan

/-- The id of a name. -/
structure StrId where
  val : UInt32
  deriving DecidableEq, Repr, Inhabited

namespace StrId

/-- The id as a place in the pool. -/
def toNat (id : StrId) : Nat :=
  id.val.toNat

/-- The id of a place in the pool. -/
def ofNat (place : Nat) : StrId :=
  ⟨UInt32.ofNat place⟩

/-- How an id is displayed. -/
def text (id : StrId) : String :=
  "s" ++ toString id.toNat

end StrId

/-- The tables of a pool: the listed texts, and an index from the texts to their ids. -/
structure PoolTables where
  strings : Array String
  /-- Each text with its id, in the order in which the texts were first listed. -/
  index : List (String × StrId)
  deriving DecidableEq, Repr, Inhabited

namespace PoolTables

/-- The tables of a pool without names. -/
def empty : PoolTables :=
  ⟨#[], []⟩

/-- The id that the index has for a text. -/
def find? (tables : PoolTables) (text : String) : Option StrId :=
  tables.index.lookup text

/-- Lists a text at the end.  A text that the index knows already keeps its id. -/
def list (tables : PoolTables) (text : String) : PoolTables where
  strings := tables.strings.push text
  index :=
    if (tables.find? text).isSome then tables.index
    else tables.index ++ [(text, StrId.ofNat tables.strings.size)]

/-- The id of a text.  A text that the index does not know is listed at the end. -/
def intern (tables : PoolTables) (text : String) : StrId × PoolTables :=
  match tables.find? text with
  | some id => (id, tables)
  | none =>
      let id := StrId.ofNat tables.strings.size
      (id, ⟨tables.strings.push text, tables.index ++ [(text, id)]⟩)

/-- Each text with the id of its first place. -/
def firstPlaces (texts : List String) : List (String × StrId) :=
  (texts.zipIdx.filter fun entry => texts.idxOf entry.1 = entry.2).map fun entry =>
    (entry.1, StrId.ofNat entry.2)

/-- The index leads to the first places of the texts. -/
def Indexed (tables : PoolTables) : Prop :=
  tables.index = firstPlaces tables.strings.toList

/-- A text that is listed once more has its first place where it had it. -/
theorem firstPlaces_concat (texts : List String) (last : String) :
    firstPlaces (texts ++ [last]) =
      if last ∈ texts then firstPlaces texts
      else firstPlaces texts ++ [(last, StrId.ofNat texts.length)] := by
  have before : (texts.zipIdx.filter fun entry => (texts ++ [last]).idxOf entry.1 = entry.2) =
      texts.zipIdx.filter fun entry => texts.idxOf entry.1 = entry.2 := by
    refine List.filter_congr fun entry listed => ?_
    rw [List.idxOf_append, if_pos (List.fst_mem_of_mem_zipIdx listed)]
  rw [firstPlaces, List.zipIdx_append, List.filter_append, List.map_append, before, ← firstPlaces]
  by_cases known : last ∈ texts
  · have less := List.idxOf_lt_length_of_mem known
    simp [List.idxOf_append, known, Nat.ne_of_lt less]
  · simp [List.idxOf_append, known]

theorem lookup_firstPlaces (texts : List String) (text : String) :
    (firstPlaces texts).lookup text =
      if text ∈ texts then some (StrId.ofNat (texts.idxOf text)) else none := by
  suffices reversed : ∀ texts : List String, (firstPlaces texts.reverse).lookup text =
      if text ∈ texts.reverse then some (StrId.ofNat (texts.reverse.idxOf text)) else none by
    simpa using reversed texts.reverse
  intro texts
  induction texts with
  | nil => rfl
  | cons last texts inductionHypothesis =>
      rw [List.reverse_cons, firstPlaces_concat, List.idxOf_append]
      generalize texts.reverse = before at inductionHypothesis
      by_cases known : last ∈ before
      · rw [if_pos known, inductionHypothesis]
        by_cases same : text = last <;> simp_all
      · rw [if_neg known, List.lookup_append, inductionHypothesis]
        by_cases listed : text ∈ before
        · simp [listed]
        · have new : List.lookup text [(last, StrId.ofNat before.length)] =
              if text = last then some (StrId.ofNat before.length) else none := by
            rw [List.lookup_cons]
            by_cases same : text = last <;> simp [same, beq_false_of_ne]
          rw [if_neg listed, new]
          by_cases same : text = last <;> simp [listed, known, same]

namespace Indexed

variable {tables other : PoolTables}

theorem empty : PoolTables.empty.Indexed := rfl

/-- The index knows a text just if it is listed, and then the id is its first place. -/
theorem find?_eq (indexed : tables.Indexed) (text : String) :
    tables.find? text =
      if text ∈ tables.strings.toList then
        some (StrId.ofNat (tables.strings.toList.idxOf text))
      else none := by
  rw [PoolTables.find?, indexed]
  exact lookup_firstPlaces _ text

/-- Tables of the same texts are the same. -/
theorem eq_of_same (indexed : tables.Indexed) (indexedOther : other.Indexed)
    (strings : tables.strings = other.strings) : tables = other := by
  have index : tables.index = other.index := by rw [indexed, indexedOther, strings]
  cases tables
  cases other
  cases strings
  cases index
  rfl

theorem list (indexed : tables.Indexed) (text : String) : (tables.list text).Indexed := by
  rw [Indexed, PoolTables.list, Array.toList_push, firstPlaces_concat, indexed.find?_eq,
    ← indexed]
  by_cases known : text ∈ tables.strings.toList
  · rw [if_pos known, if_pos known, Option.isSome_some, if_pos rfl]
  · rw [if_neg known, if_neg known]
    rfl

theorem intern (indexed : tables.Indexed) (text : String) : (tables.intern text).2.Indexed := by
  rw [PoolTables.intern]
  split
  next => exact indexed
  next absent =>
    rw [indexed.find?_eq] at absent
    have unknown : text ∉ tables.strings.toList := by
      intro known
      rw [if_pos known] at absent
      contradiction
    rw [Indexed, Array.toList_push, firstPlaces_concat, if_neg unknown, ← indexed]
    rfl

end Indexed

end PoolTables

/-- A pool of names: texts with an index that leads to their first places. -/
structure StringPool extends PoolTables where
  indexed : toPoolTables.Indexed
  deriving DecidableEq, Repr

namespace StringPool

/-- The pool without names. -/
def empty : StringPool :=
  ⟨.empty, .empty⟩

instance : Inhabited StringPool :=
  ⟨empty⟩

/-- Lists a text at the end. -/
def list (pool : StringPool) (text : String) : StringPool :=
  ⟨pool.toPoolTables.list text, pool.indexed.list text⟩

/-- The pool of a list of texts. -/
def ofList (strings : List String) : StringPool :=
  strings.foldl list empty

/-- The texts of a pool in order. -/
def toList (pool : StringPool) : List String :=
  pool.strings.toList

/-- The number of listed texts. -/
def size (pool : StringPool) : Nat :=
  pool.strings.size

/-- The text of an id. -/
def resolve? (pool : StringPool) (id : StrId) : Option String :=
  pool.strings[id.toNat]?

/-- The id of a text: the first place where it is listed. -/
def find? (pool : StringPool) (text : String) : Option StrId :=
  pool.toPoolTables.find? text

/-- The id of a text, which is listed last if it was not listed yet. -/
def intern (pool : StringPool) (text : String) : StrId × StringPool :=
  ((pool.toPoolTables.intern text).1, ⟨(pool.toPoolTables.intern text).2, pool.indexed.intern text⟩)

/-- Pools of the same texts are the same. -/
theorem eq_of_same {first second : StringPool} (strings : first.strings = second.strings) :
    first = second := by
  obtain ⟨tables, indexed⟩ := first
  obtain ⟨tablesTwo, indexedTwo⟩ := second
  cases indexed.eq_of_same indexedTwo strings
  rfl

theorem toList_foldl_list (strings : List String) (pool : StringPool) :
    (strings.foldl list pool).toList = pool.toList ++ strings := by
  induction strings generalizing pool with
  | nil => exact (List.append_nil _).symm
  | cons text strings inductionHypothesis =>
      rw [List.foldl_cons, inductionHypothesis, List.append_cons]
      exact congrArg (· ++ strings) Array.toList_push

@[simp] theorem toList_ofList (strings : List String) : (ofList strings).toList = strings :=
  toList_foldl_list strings empty

@[simp] theorem ofList_toList (pool : StringPool) : ofList pool.toList = pool :=
  eq_of_same (Array.toList_inj.1 (toList_ofList pool.toList))

theorem resolve?_eq (pool : StringPool) (id : StrId) : pool.resolve? id = pool.toList[id.toNat]? :=
  Array.getElem?_toList.symm

theorem find?_eq (pool : StringPool) (text : String) :
    pool.find? text =
      if text ∈ pool.toList then some (StrId.ofNat (pool.toList.idxOf text)) else none :=
  pool.indexed.find?_eq text

theorem find?_eq_none_iff (pool : StringPool) (text : String) :
    pool.find? text = none ↔ text ∉ pool.toList := by
  rw [find?_eq]
  split
  next known => simp [known]
  next unknown => simp [unknown]

/-- A text that is listed has the id that it is found under, and the pool stays as it is. -/
theorem intern_of_mem {pool : StringPool} {text : String} (known : text ∈ pool.toList) :
    pool.intern text = (StrId.ofNat (pool.toList.idxOf text), pool) := by
  have found := pool.find?_eq text
  rw [if_pos known, find?] at found
  simp only [intern, PoolTables.intern, found]

/-- A text that is not listed yet is listed at the end. -/
theorem intern_of_not_mem {pool : StringPool} {text : String} (unknown : text ∉ pool.toList) :
    (pool.intern text).1 = StrId.ofNat pool.size ∧
      (pool.intern text).2.toList = pool.toList ++ [text] := by
  have found := (pool.find?_eq_none_iff text).2 unknown
  rw [find?] at found
  simp only [intern, PoolTables.intern, found]
  exact ⟨rfl, Array.toList_push⟩

/-- Asking for the id of a text lists the text at the end, unless it is listed already. -/
theorem toList_intern (pool : StringPool) (text : String) :
    (pool.intern text).2.toList =
      if text ∈ pool.toList then pool.toList else pool.toList ++ [text] := by
  split
  next known => rw [intern_of_mem known]
  next unknown => exact (intern_of_not_mem unknown).2

end StringPool

end EscapePlan
