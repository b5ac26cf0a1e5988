import Std.Data.ExtTreeMap

/-!
# Numberings

Distinct values that come one after the other are numbered from zero in this order. A search tree
finds the number of a value without a look at the others. Names of states and sets of states are
numbered in this way.

Results:
* `map_range_eq`: a list is determined by what it has at each place.
* `Numbering.ext_values`: a numbering is determined by its values.
* `Numbering.idOf?_eq_some_iff`: values and numbers determine each other.
* `Numbering.nodup_toList`: no value has two numbers.
* `Numbering.mem_toList_iff`: the values are those that have a number.
* `Numbering.toList_push`, `Numbering.mem_insert`, `Numbering.get?_insert_eq_some_iff`: what is
  added joins the earlier values and has the next number.
* `Numbering.mem_foldl_insert`, `Numbering.get?_foldl_insert`: values that are added in turn.
* `Numbering.toList_ofList_eq`, `Numbering.toList_ofList`: a list is numbered by first occurrences,
  and a list of distinct values as it stands.
-/

namespace Acceptors

/-- A list is made again from its members by their places. -/
theorem map_range_eq {α : Type} {l : List α} {n : Nat} {f : Nat → α} (hlength : l.length = n)
    (h : ∀ i x, l[i]? = some x → f i = x) : (List.range n).map f = l := by
  refine List.ext_getElem? fun i => ?_
  rw [List.getElem?_map]
  by_cases hi : i < n
  · have hget := List.getElem?_eq_getElem (hlength.symm ▸ hi)
    rw [List.getElem?_range hi, hget, Option.map_some, h i _ hget]
  · rw [List.getElem?_eq_none (by simpa using hi),
      List.getElem?_eq_none (hlength.symm ▸ Nat.not_lt.1 hi)]
    rfl

/-- The places in a list with one more member at its end. -/
theorem getElem?_concat_eq_some_iff {α : Type} {l : List α} {x y : α} {i : Nat} :
    (l ++ [x])[i]? = some y ↔ l[i]? = some y ∨ i = l.length ∧ x = y := by
  rcases Nat.lt_trichotomy i l.length with hi | rfl | hi
  · rw [List.getElem?_append_left hi]
    simp [Nat.ne_of_lt hi]
  · rw [List.getElem?_concat_length, List.getElem?_eq_none (Nat.le_refl _)]
    simp
  · have hi' : l.length + 1 ≤ i := hi
    rw [List.getElem?_eq_none (by simpa using hi'), List.getElem?_eq_none (Nat.le_of_lt hi)]
    simp [Nat.ne_of_gt hi]

theorem eraseDups_of_nodup {α : Type} [BEq α] [LawfulBEq α] {l : List α} (h : l.Nodup) :
    l.eraseDups = l := by
  induction l with
  | nil => rfl
  | cons x l ih =>
    obtain ⟨hx, hl⟩ := List.nodup_cons.1 h
    have hkeep : ∀ y ∈ l, (!y == x) = true := fun y hy => by
      simpa using fun e : y = x => hx (e ▸ hy)
    rw [List.eraseDups_cons, List.filter_eq_self.2 hkeep, ih hl]

/-- Distinct values, numbered from zero. -/
structure Numbering (α : Type) [Ord α] [Std.TransOrd α] [Std.LawfulEqOrd α] where
  /-- The values by their numbers. -/
  values : Array α
  /-- The number of each value. -/
  index : Std.ExtTreeMap α Nat
  /-- The tree knows the values of the array and no others. -/
  index_eq_some_iff : ∀ (x : α) (i : Nat), index[x]? = some i ↔ values[i]? = some x

namespace Numbering

variable {α : Type} [Ord α] [Std.TransOrd α] [Std.LawfulEqOrd α]

/-- How many values there are. -/
def size (t : Numbering α) : Nat := t.values.size

/-- The values in the order of their numbers. -/
def toList (t : Numbering α) : List α := t.values.toList

/-- The value of a number. -/
def get? (t : Numbering α) (id : Nat) : Option α := t.values[id]?

/-- The number of a value. -/
def idOf? (t : Numbering α) (x : α) : Option Nat := t.index[x]?

/-- Whether a value has a number. -/
def contains (t : Numbering α) (x : α) : Bool := t.index.contains x

/-- No values. -/
def empty : Numbering α := ⟨#[], ∅, by simp⟩

/-! ## Laws -/

theorem contains_eq_isSome (t : Numbering α) (x : α) : t.contains x = (t.idOf? x).isSome :=
  Std.ExtTreeMap.contains_eq_isSome_getElem?

/-- A value has a number exactly when the number has that value. -/
theorem idOf?_eq_some_iff {t : Numbering α} {x : α} {id : Nat} :
    t.idOf? x = some id ↔ t.get? id = some x := t.index_eq_some_iff x id

theorem contains_iff_mem {t : Numbering α} {x : α} : t.contains x = true ↔ x ∈ t.toList := by
  rw [contains_eq_isSome, Option.isSome_iff_exists]
  simp only [idOf?_eq_some_iff, get?, toList, Array.mem_toList_iff, Array.mem_iff_getElem?]

/-- No value has two numbers. -/
theorem nodup_toList (t : Numbering α) : t.toList.Nodup := by
  rw [List.nodup_iff_pairwise_ne, List.pairwise_iff_getElem]
  intro i j hi hj hij heq
  have hget : ∀ (k : Nat) (hk : k < t.toList.length), t.index[t.toList[k]]? = some k := by
    intro k hk
    rw [t.index_eq_some_iff]
    simp [toList]
  have hi' := hget i hi
  rw [heq, hget j hj, Option.some.injEq] at hi'
  omega

/-- A numbering is determined by its values. -/
theorem ext_values {t u : Numbering α} (h : t.values = u.values) : t = u := by
  obtain ⟨tv, ti, ht⟩ := t
  obtain ⟨uv, ui, hu⟩ := u
  simp only at h
  subst h
  have : ti = ui := Std.ExtTreeMap.ext_getElem? fun x => by
    apply Option.ext
    intro i
    rw [ht, hu]
  subst this
  rfl

instance [DecidableEq α] : DecidableEq (Numbering α) := fun t u =>
  decidable_of_iff (t.values = u.values) ⟨ext_values, fun h => h ▸ rfl⟩

/-! ## Adding values -/

theorem index_insert_eq_some_iff {t : Numbering α} {x : α} (h : t.contains x = false) (y : α)
    (i : Nat) :
    (t.index.insert x t.values.size)[y]? = some i ↔ (t.values.push x)[i]? = some y := by
  rw [Std.ExtTreeMap.getElem?_insert, Array.getElem?_push]
  by_cases hxy : x = y
  · subst hxy
    have hfree : t.values[i]? ≠ some x := fun hi => by
      have := (t.index_eq_some_iff x i).2 hi
      simp [contains_eq_isSome, idOf?, this] at h
    by_cases hi : i = t.values.size
    · simp [hi]
    · have hi' : ¬ t.values.size = i := fun e => hi e.symm
      simp [hi, hi', hfree]
  · have hcmp : ¬ compare x y = .eq := fun e => hxy (Std.LawfulEqCmp.compare_eq_iff_eq.1 e)
    rw [if_neg hcmp, t.index_eq_some_iff]
    by_cases hi : i = t.values.size
    · simp [hi, hxy]
    · simp [hi]

/-- Gives a value without a number the next one. -/
def push (t : Numbering α) (x : α) (h : t.contains x = false) : Numbering α :=
  let id := t.values.size
  ⟨t.values.push x, t.index.insert x id, index_insert_eq_some_iff h⟩

/-- Gives a value the next number unless it has one. -/
def insert (t : Numbering α) (x : α) : Numbering α :=
  match h : t.contains x with
  | true => t
  | false => t.push x h

/-- The values of a list in the order in which they first occur. -/
def ofList (l : List α) : Numbering α := l.foldl insert empty

theorem toList_push {t : Numbering α} {x : α} {h : t.contains x = false} :
    (t.push x h).toList = t.toList ++ [x] := by
  simp [push, toList]

/-- A value that has a number keeps it, and nothing else changes. -/
theorem insert_of_mem {t : Numbering α} {x : α} (h : x ∈ t.toList) : t.insert x = t := by
  unfold insert
  split
  · rfl
  · next hf => simp [contains_iff_mem.2 h] at hf

theorem toList_insert_of_mem {t : Numbering α} {x : α} (h : x ∈ t.toList) :
    (t.insert x).toList = t.toList := congrArg toList (insert_of_mem h)

theorem toList_insert_of_not_mem {t : Numbering α} {x : α} (h : x ∉ t.toList) :
    (t.insert x).toList = t.toList ++ [x] := by
  unfold insert
  split
  · next ht => exact absurd (contains_iff_mem.1 ht) h
  · exact toList_push

/-- An added value joins the earlier ones. -/
theorem mem_insert {t : Numbering α} {x y : α} :
    y ∈ (t.insert x).toList ↔ y ∈ t.toList ∨ y = x := by
  by_cases h : x ∈ t.toList
  · rw [toList_insert_of_mem h]
    constructor
    · exact .inl
    · rintro (hy | rfl)
      · exact hy
      · exact h
  · rw [toList_insert_of_not_mem h, List.mem_append, List.mem_singleton]

/-- Values that are added in turn are numbered in the order in which they first occur. -/
theorem toList_foldl_insert [BEq α] [LawfulBEq α] (t : Numbering α) (l : List α) :
    (l.foldl insert t).toList = (t.toList ++ l).eraseDups := by
  induction l generalizing t with
  | nil => rw [List.foldl_nil, List.append_nil, eraseDups_of_nodup t.nodup_toList]
  | cons x l ih =>
    rw [List.foldl_cons, ih]
    by_cases hx : x ∈ t.toList
    · rw [toList_insert_of_mem hx, List.eraseDups_append, List.eraseDups_append,
        List.cons_removeAll]
      simp [hx]
    · rw [toList_insert_of_not_mem hx, List.append_assoc, List.singleton_append]

theorem toList_ofList_eq [BEq α] [LawfulBEq α] (l : List α) : (ofList l).toList = l.eraseDups :=
  toList_foldl_insert empty l

/-- A list of distinct values is numbered as it stands. -/
theorem toList_ofList {l : List α} (h : l.Nodup) : (ofList l).toList = l := by
  classical
  rw [toList_ofList_eq, eraseDups_of_nodup h]

theorem length_toList (t : Numbering α) : t.toList.length = t.size := by
  simp [toList, size]

theorem getElem?_toList (t : Numbering α) (id : Nat) : t.toList[id]? = t.get? id := by
  simp [toList, get?]

/-- A value that is added has the next number, and the others keep theirs. -/
theorem get?_insert_eq_some_iff {t : Numbering α} {x y : α} {i : Nat} (h : x ∉ t.toList) :
    (t.insert x).get? i = some y ↔ t.get? i = some y ∨ i = t.size ∧ x = y := by
  rw [← getElem?_toList, toList_insert_of_not_mem h, getElem?_concat_eq_some_iff, getElem?_toList,
    length_toList]

/-- The values are those that have a number. -/
theorem mem_toList_iff {t : Numbering α} {x : α} : x ∈ t.toList ↔ ∃ id, t.get? id = some x := by
  simp only [List.mem_iff_getElem?, getElem?_toList]

/-- The numbers of values are those below the size. -/
theorem exists_get?_iff_lt_size {t : Numbering α} {id : Nat} :
    (∃ x, t.get? id = some x) ↔ id < t.size := by
  rw [← Option.isSome_iff_exists, get?, isSome_getElem?, size]

/-- No two numbers have the same value. -/
theorem eq_of_get? {t : Numbering α} {x : α} {i j : Nat} (hi : t.get? i = some x)
    (hj : t.get? j = some x) : i = j :=
  Option.some.inj ((idOf?_eq_some_iff.2 hi).symm.trans (idOf?_eq_some_iff.2 hj))

/-- Values that are added in turn join the earlier ones. -/
theorem mem_foldl_insert {l : List α} {t : Numbering α} {y : α} :
    y ∈ (l.foldl insert t).toList ↔ y ∈ t.toList ∨ y ∈ l := by
  classical
  rw [toList_foldl_insert, List.mem_eraseDups, List.mem_append]

/-- Values that are added in turn leave the numbers of the earlier ones alone. -/
theorem get?_foldl_insert {l : List α} {t : Numbering α} {id : Nat} {x : α}
    (h : t.get? id = some x) : (l.foldl insert t).get? id = some x := by
  induction l generalizing t with
  | nil => exact h
  | cons y l ih =>
    refine ih ?_
    rw [← getElem?_toList] at h ⊢
    by_cases hy : y ∈ t.toList
    · rwa [toList_insert_of_mem hy]
    · rw [toList_insert_of_not_mem hy]
      exact List.getElem?_append_left (List.getElem?_eq_some_iff.1 h).1 ▸ h

end Numbering

end Acceptors
