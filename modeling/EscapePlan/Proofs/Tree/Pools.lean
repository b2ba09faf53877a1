import EscapePlan.Tree.Pool
import Mathlib.Data.List.Nodup

/-!
# Pools of names

A pool is loaded from a list of texts, in which a text may stand twice, and more texts are listed
when their ids are asked for.  The index is brought up to date on both ways.  `StringPool.Consistent`
says that it leads to the least id of each text at any time, and that a list of the texts is all
that is needed to have the same pool again.

An id has thirty-two bits.  A text that is listed beyond the last place that an id can name has no
id, so that the absence of ids is told from the index for pools only that are not larger.
-/

namespace EscapePlan

namespace StrId

theorem toNat_ofNat_of_lt {place : Nat} (fits : place < UInt32.size) : (ofNat place).toNat = place :=
  UInt32.toNat_ofNat_of_lt' fits

/-- The id of a place names that place or, if it has too few bits, an earlier one. -/
theorem toNat_ofNat_le (place : Nat) : (ofNat place).toNat ≤ place := by
  rw [toNat, ofNat, UInt32.toNat_ofNat']
  exact Nat.mod_le _ _

theorem toNat_lt (id : StrId) : id.toNat < UInt32.size :=
  id.val.toNat_lt

end StrId

namespace StringPool

/-- The pool in which the ids of texts have been asked for one after the other. -/
def internAll (pool : StringPool) (texts : List String) : StringPool :=
  texts.foldl (fun pool text => (pool.intern text).2) pool

/-- An id is the least one that a text has. -/
def IsLeast (pool : StringPool) (text : String) (id : StrId) : Prop :=
  pool.resolve? id = some text ∧
    ∀ other, pool.resolve? other = some text → id.toNat ≤ other.toNat

/-- What is asked of a pool fits what it lists. -/
structure Consistent (pool : StringPool) : Prop where
  /-- A text that has an id is found under the least one. -/
  found : ∀ text id, pool.resolve? id = some text →
    ∃ least, pool.find? text = some least ∧ pool.IsLeast text least
  find?_eq_none_iff : ∀ text, pool.find? text = none ↔ text ∉ pool.toList
  /-- Nothing is found just if no id has the text. -/
  absent_iff : pool.size ≤ UInt32.size → ∀ text,
    pool.find? text = none ↔ ∀ id, pool.resolve? id ≠ some text
  known : ∀ text ∈ pool.toList,
    pool.find? text = some (pool.intern text).1 ∧ (pool.intern text).2 = pool
  listed : ∀ text, text ∉ pool.toList → (pool.intern text).2.toList = pool.toList ++ [text]
  /-- An id that is given out is a new one. -/
  new : pool.size < UInt32.size → ∀ text, text ∉ pool.toList →
    pool.resolve? (pool.intern text).1 = none ∧
      (pool.intern text).2.resolve? (pool.intern text).1 = some text
  kept : ∀ text id other, pool.resolve? id = some other →
    (pool.intern text).2.resolve? id = some other
  keptLater : ∀ asked id other, pool.resolve? id = some other →
    (pool.internAll asked).resolve? id = some other
  rebuilt : ofList pool.toList = pool

variable {pool : StringPool} {text : String} {id : StrId}

theorem mem_of_resolve? (resolves : pool.resolve? id = some text) : text ∈ pool.toList := by
  rw [resolve?_eq] at resolves
  exact List.mem_of_getElem? resolves

/-- The first place of a text that has an id is no greater than the id. -/
theorem idxOf_le_of_resolve? (resolves : pool.resolve? id = some text) :
    pool.toList.idxOf text ≤ id.toNat := by
  rw [resolve?_eq] at resolves
  obtain ⟨inside, textEq⟩ := List.getElem?_eq_some_iff.1 resolves
  refine Nat.le_of_not_lt fun earlier => ?_
  have differs := List.not_of_lt_findIdx earlier
  rw [textEq, beq_self_eq_true] at differs
  contradiction

/-- The first place of a text resolves to it, if an id can name the place. -/
theorem resolve?_idxOf (known : text ∈ pool.toList)
    (fits : pool.toList.idxOf text < UInt32.size) :
    pool.resolve? (StrId.ofNat (pool.toList.idxOf text)) = some text := by
  rw [resolve?_eq, StrId.toNat_ofNat_of_lt fits, List.getElem?_idxOf known]

theorem find?_of_resolve? (resolves : pool.resolve? id = some text) :
    ∃ least, pool.find? text = some least ∧ pool.IsLeast text least := by
  have known := mem_of_resolve? resolves
  have fits := Nat.lt_of_le_of_lt (idxOf_le_of_resolve? resolves) id.toNat_lt
  refine ⟨_, (pool.find?_eq text).trans (if_pos known), resolve?_idxOf known fits, ?_⟩
  intro other resolvesOther
  rw [StrId.toNat_ofNat_of_lt fits]
  exact idxOf_le_of_resolve? resolvesOther

theorem find?_eq_none_iff_resolve? (small : pool.size ≤ UInt32.size) (text : String) :
    pool.find? text = none ↔ ∀ id, pool.resolve? id ≠ some text := by
  rw [find?_eq_none_iff]
  constructor
  · exact fun unknown id resolves => unknown (mem_of_resolve? resolves)
  · intro unresolved known
    have inside := List.idxOf_lt_length_of_mem known
    exact unresolved _ (resolve?_idxOf known (Nat.lt_of_lt_of_le inside small))

/-- Asking for an id keeps what the other ids stand for. -/
theorem resolve?_intern_of_some (text : String) {other : String}
    (resolves : pool.resolve? id = some other) :
    (pool.intern text).2.resolve? id = some other := by
  rw [resolve?_eq] at resolves ⊢
  rw [toList_intern]
  split
  next => exact resolves
  next => rw [List.getElem?_append_left (List.getElem?_eq_some_iff.1 resolves).1, resolves]

theorem resolve?_internAll_of_some (asked : List String) (resolves : pool.resolve? id = some text) :
    (pool.internAll asked).resolve? id = some text := by
  induction asked generalizing pool with
  | nil => exact resolves
  | cons next asked inductionHypothesis =>
      exact inductionHypothesis (resolve?_intern_of_some next resolves)

theorem resolve?_intern_new (room : pool.size < UInt32.size) (unknown : text ∉ pool.toList) :
    pool.resolve? (pool.intern text).1 = none ∧
      (pool.intern text).2.resolve? (pool.intern text).1 = some text := by
  obtain ⟨id, toList⟩ := intern_of_not_mem unknown
  have place : (StrId.ofNat pool.size).toNat = pool.toList.length := StrId.toNat_ofNat_of_lt room
  rw [resolve?_eq, resolve?_eq, id, toList, place]
  exact ⟨List.getElem?_eq_none (Nat.le_refl _), List.getElem?_concat_length⟩

/-- The id of a text resolves, though it may be to another text if there are more texts than ids. -/
theorem exists_resolve?_intern (pool : StringPool) (text : String) :
    ∃ other, (pool.intern text).2.resolve? (pool.intern text).1 = some other := by
  suffices inside : (pool.intern text).1.toNat < (pool.intern text).2.toList.length by
    exact ⟨_, (resolve?_eq _ _).trans (List.getElem?_eq_getElem inside)⟩
  by_cases known : text ∈ pool.toList
  · rw [intern_of_mem known]
    exact Nat.lt_of_le_of_lt (StrId.toNat_ofNat_le _) (List.idxOf_lt_length_of_mem known)
  · obtain ⟨id, toList⟩ := intern_of_not_mem known
    rw [id, toList, List.length_append]
    exact Nat.lt_succ_of_le (StrId.toNat_ofNat_le _)

theorem nodup_intern (nodup : pool.toList.Nodup) (text : String) :
    (pool.intern text).2.toList.Nodup := by
  rw [toList_intern]
  split
  next => exact nodup
  next unknown =>
    rw [← List.concat_eq_append]
    exact nodup.concat unknown

theorem consistent (pool : StringPool) : pool.Consistent where
  found _ _ := find?_of_resolve?
  find?_eq_none_iff := pool.find?_eq_none_iff
  absent_iff := find?_eq_none_iff_resolve?
  known text known := by
    rw [intern_of_mem known, find?_eq, if_pos known]
    exact ⟨rfl, rfl⟩
  listed _ unknown := (intern_of_not_mem unknown).2
  new room _ := resolve?_intern_new room
  kept text _ _ := resolve?_intern_of_some text
  keptLater asked _ _ := resolve?_internAll_of_some asked
  rebuilt := pool.ofList_toList

/-- Pools that are loaded from texts and asked for the ids of texts are consistent. -/
theorem consistent_internAll (listed asked : List String) :
    ((ofList listed).internAll asked).Consistent :=
  consistent _

end StringPool

end EscapePlan
