import Acceptors.Error

/-!
# Alphabets

An alphabet is a list of distinct symbols. A symbol is any string; its place in the list is the
column that it has in the tables of an automaton over the alphabet. The epsilon marker is no symbol:
epsilon moves are kept apart.

Results:
* `Alphabet.ofList_eq_ok_iff`: a list makes an alphabet exactly when its symbols are distinct.
* `idxOf?_eq_some_iff_getElem?`: members and places of a list without repetitions.
* `Alphabet.mem_union`: the union has the symbols of both sides.
* `Alphabet.get?_eq_some_iff`: symbols and columns determine each other.
-/

namespace Acceptors

/-! ## Repetitions -/

/-- The first member of `xs` that is also in `seen` or earlier in `xs` (the check of `new`). -/
def firstRepeat? (seen : List String) : List String → Option String
  | [] => none
  | x :: xs => if x ∈ seen then some x else firstRepeat? (x :: seen) xs

/-- Nothing repeats exactly when the list has distinct members, none of them seen before. -/
theorem firstRepeat?_eq_none_iff (seen xs : List String) :
    firstRepeat? seen xs = none ↔ xs.Nodup ∧ ∀ x ∈ xs, x ∉ seen := by
  induction xs generalizing seen with
  | nil => simp [firstRepeat?]
  | cons x xs ih =>
    by_cases h : x ∈ seen
    · simp [firstRepeat?, h]
    · simp only [firstRepeat?, h, if_false, ih, List.nodup_cons, List.mem_cons, not_or]
      constructor
      · rintro ⟨hnd, hall⟩
        exact ⟨⟨fun hx => (hall x hx).1 rfl, hnd⟩, fun y hy => by
          rcases hy with rfl | hy
          · exact h
          · exact (hall y hy).2⟩
      · rintro ⟨⟨hx, hnd⟩, hall⟩
        exact ⟨hnd, fun y hy => ⟨fun e => hx (e ▸ hy), hall y (Or.inr hy)⟩⟩

/-- In a list of distinct members, members and places determine each other. -/
theorem idxOf?_eq_some_iff_getElem? {α : Type} [DecidableEq α] {l : List α} (h : l.Nodup) {x : α}
    {i : Nat} : l.idxOf? x = some i ↔ l[i]? = some x := by
  rw [List.idxOf?, List.findIdx?_eq_some_iff_getElem]
  constructor
  · rintro ⟨hlt, hget, -⟩
    rw [List.getElem?_eq_getElem hlt]
    simpa using hget
  · intro hi
    obtain ⟨hlt, hget⟩ := List.getElem?_eq_some_iff.1 hi
    refine ⟨hlt, by simp [hget], ?_⟩
    intro j hj hjx
    have hne := (List.pairwise_iff_getElem.1 h) j i (Nat.lt_trans hj hlt) hlt hj
    exact hne (by rw [hget]; simpa using hjx)

/-- A member of a list of distinct members has one place. -/
theorem eq_of_getElem?_eq_some {α : Type} {l : List α} (h : l.Nodup) {x : α} {i j : Nat}
    (hi : l[i]? = some x) (hj : l[j]? = some x) : i = j :=
  (List.getElem?_inj (List.getElem?_eq_some_iff.1 hi).1 h).1 (hi.trans hj.symm)

/-! ## The type -/

/-- Distinct symbols in column order. -/
structure Alphabet where
  /-- The symbols, by column. -/
  symbols : List String
  /-- No symbol has two columns. -/
  nodup : symbols.Nodup
  deriving DecidableEq

namespace Alphabet

/-- The alphabet without symbols (`empty`). -/
def empty : Alphabet := ⟨[], List.nodup_nil⟩

/-- The alphabet with one symbol. -/
def single (symbol : String) : Alphabet := ⟨[symbol], by simp⟩

/-- The alphabet with the given symbols in the given order; a repetition is refused (`new`). -/
def ofList (symbols : List String) : Except Error Alphabet :=
  match h : firstRepeat? [] symbols with
  | some symbol => .error (.duplicateSymbol symbol)
  | none => .ok ⟨symbols, ((firstRepeat?_eq_none_iff [] symbols).1 h).1⟩

/-- The number of symbols (`len`). -/
def size (a : Alphabet) : Nat := a.symbols.length

/-- Whether the alphabet has no symbol (`is_empty`). -/
def isEmpty (a : Alphabet) : Bool := a.symbols.isEmpty

/-- Whether the symbol has a column (`contains`). -/
def contains (a : Alphabet) (symbol : String) : Bool := a.symbols.contains symbol

/-- The column of a symbol (`index_of`). -/
def idxOf? (a : Alphabet) (symbol : String) : Option Nat := a.symbols.idxOf? symbol

/-- The symbol of a column (`symbol`). -/
def get? (a : Alphabet) (column : Nat) : Option String := a.symbols[column]?

/-- Whether every symbol of `b` is in `a` (`is_superset`). -/
def isSupersetOf (a b : Alphabet) : Bool := b.symbols.all a.contains

/-- The symbols of `a` in order, then those that only `b` has, in its order (`union`). -/
def union (a b : Alphabet) : Alphabet where
  symbols := a.symbols ++ b.symbols.filter (· ∉ a.symbols)
  nodup := by
    rw [List.nodup_append]
    refine ⟨a.nodup, b.nodup.sublist List.filter_sublist, ?_⟩
    intro x hx y hy hxy
    simp only [List.mem_filter, decide_eq_true_eq] at hy
    exact hy.2 (hxy ▸ hx)

/-- For each column of `a`, the column that its symbol has in `b`. -/
def columnsIn (a b : Alphabet) : Array (Option Nat) := (a.symbols.map b.idxOf?).toArray

/-- Two alphabets count as equal when they have the same symbols, in whatever order. -/
instance : BEq Alphabet where
  beq a b := a.size == b.size && a.isSupersetOf b

/-! ## Laws -/

instance : Membership String Alphabet := ⟨fun a symbol => symbol ∈ a.symbols⟩

theorem mem_def {a : Alphabet} {symbol : String} : symbol ∈ a ↔ symbol ∈ a.symbols := Iff.rfl

theorem contains_iff_mem {a : Alphabet} {symbol : String} :
    a.contains symbol = true ↔ symbol ∈ a := by
  simp [contains, mem_def]

/-- A list makes an alphabet exactly when its symbols are distinct, and then it is the alphabet's
    list of symbols. -/
theorem ofList_eq_ok_iff {symbols : List String} {a : Alphabet} :
    ofList symbols = .ok a ↔ symbols.Nodup ∧ a.symbols = symbols := by
  have key := firstRepeat?_eq_none_iff [] symbols
  unfold ofList
  split
  · next s h =>
    rw [h] at key
    simp only [reduceCtorEq, false_iff] at key
    simp only [reduceCtorEq, false_iff]
    rintro ⟨hnd, -⟩
    exact key ⟨hnd, by simp⟩
  · next h =>
    constructor
    · intro e
      cases e
      exact ⟨(key.1 h).1, rfl⟩
    · rintro ⟨-, e⟩
      cases a
      cases e
      rfl

theorem mem_union {a b : Alphabet} {symbol : String} :
    symbol ∈ a.union b ↔ symbol ∈ a ∨ symbol ∈ b := by
  simp only [mem_def, union, List.mem_append, List.mem_filter, decide_eq_true_eq]
  by_cases h : symbol ∈ a.symbols <;> simp [h]

theorem isSupersetOf_iff {a b : Alphabet} :
    a.isSupersetOf b = true ↔ ∀ symbol ∈ b, symbol ∈ a := by
  simp [isSupersetOf, contains_iff_mem, mem_def]

/-- A column holds a symbol exactly when the symbol has that column. -/
theorem get?_eq_some_iff {a : Alphabet} {column : Nat} {symbol : String} :
    a.get? column = some symbol ↔ a.idxOf? symbol = some column :=
  (idxOf?_eq_some_iff_getElem? a.nodup).symm

end Alphabet

end Acceptors
