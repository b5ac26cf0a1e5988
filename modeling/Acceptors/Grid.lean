/-!
# Grids

A transition table is a grid: one row per state and one cell per symbol. Cells outside the grid do
not exist, and every operation that fills a whole grid says what it puts into each cell.

Results:
* `Grid.get?_ofFn`: the cells of a grid made from a function.
* `Grid.get?_set`: the cells of a grid after one is overwritten.
* `Grid.get?_append`, `Grid.get?_map`, `Grid.get?_padTo`: the cells of grids made from others.
* `Grid.all_iff`: a test that all cells pass.
* `Grid.HasShape.eq_of_getD`: grids of one shape are known by their cells.
-/

namespace Acceptors

/-- Rows of cells. -/
structure Grid (α : Type) where
  /-- The rows, each an array of cells. -/
  rows : Array (Array α)
  deriving DecidableEq

namespace Grid

variable {α : Type}

/-- The grid with no row. -/
def empty : Grid α := ⟨#[]⟩

/-- The grid with `r` rows and `c` columns whose cells a function gives. -/
def ofFn (r c : Nat) (f : Nat → Nat → α) : Grid α :=
  ⟨Array.ofFn fun i : Fin r => Array.ofFn fun j : Fin c => f i.val j.val⟩

/-- A cell, if it exists. -/
def get? (g : Grid α) (i j : Nat) : Option α := g.rows[i]?.bind (·[j]?)

/-- The cells of a row; none if the row does not exist. -/
def row (g : Grid α) (i : Nat) : List α := (g.rows[i]?.getD #[]).toList

/-- The grid with a row of `c` equal cells added at the end. -/
def addRow (g : Grid α) (c : Nat) (x : α) : Grid α := ⟨g.rows.push (Array.replicate c x)⟩

/-- The grid with one cell overwritten; a cell that does not exist stays away. -/
def set (g : Grid α) (i j : Nat) (x : α) : Grid α :=
  ⟨g.rows.modify i fun row => row.setIfInBounds j x⟩

/-- The rows of one grid followed by those of another. -/
def append (g h : Grid α) : Grid α := ⟨g.rows ++ h.rows⟩

/-- The grid with a function applied to every cell. -/
def map (f : α → α) (g : Grid α) : Grid α :=
  ⟨(g.rows.toList.map fun row => (row.toList.map f).toArray).toArray⟩

/-- The grid with rows of at least `c` cells: equal cells are added at the end of shorter rows. -/
def padTo (g : Grid α) (c : Nat) (x : α) : Grid α :=
  ⟨(g.rows.toList.map fun row => row ++ Array.replicate (c - row.size) x).toArray⟩

/-- Whether a test holds of every cell. -/
def all (g : Grid α) (test : α → Bool) : Bool :=
  g.rows.toList.all fun row => row.toList.all test

/-- A grid has one row per state and one cell per symbol. -/
def HasShape (g : Grid α) (r c : Nat) : Prop :=
  g.rows.size = r ∧ ∀ row ∈ g.rows, row.size = c

/-! ## Cells -/

theorem get?_ofFn {r c i j : Nat} {f : Nat → Nat → α} :
    (ofFn r c f).get? i j = if i < r ∧ j < c then some (f i j) else none := by
  by_cases hi : i < r <;> by_cases hj : j < c <;> simp [get?, ofFn, hi, hj]

theorem hasShape_ofFn {r c : Nat} {f : Nat → Nat → α} : (ofFn r c f).HasShape r c := by
  constructor
  · simp [ofFn]
  · intro row hrow
    simp only [ofFn, Array.mem_ofFn] at hrow
    obtain ⟨i, rfl⟩ := hrow
    simp

/-- A cell of a grid of known shape exists exactly when it lies inside. -/
theorem HasShape.get?_isSome {g : Grid α} {r c i j : Nat} (h : g.HasShape r c) :
    (g.get? i j).isSome = true ↔ i < r ∧ j < c := by
  obtain ⟨hr, hc⟩ := h
  unfold get?
  by_cases hi : i < r
  · rw [Array.getElem?_eq_getElem (by omega)]
    have := hc _ (Array.getElem_mem (by omega : i < g.rows.size))
    simp [hi, this]
  · rw [Array.getElem?_eq_none (by omega)]
    simp [hi]

theorem HasShape.addRow {g : Grid α} {r c : Nat} (h : g.HasShape r c) (x : α) :
    (g.addRow c x).HasShape (r + 1) c := by
  refine ⟨by simp [Grid.addRow, h.1], ?_⟩
  intro row hrow
  simp only [Grid.addRow, Array.mem_push] at hrow
  rcases hrow with hrow | rfl
  · exact h.2 row hrow
  · simp

theorem get?_addRow {g : Grid α} {r c i j : Nat} (h : g.HasShape r c) (x : α) :
    (g.addRow c x).get? i j =
      if i = r then (if j < c then some x else none) else g.get? i j := by
  obtain ⟨hr, -⟩ := h
  by_cases hi : i = r
  · subst hi
    by_cases hj : j < c <;> simp [get?, Grid.addRow, ← hr, hj]
  · simp only [get?, Grid.addRow, hi, if_false]
    rw [Array.getElem?_push]
    simp [hr, hi]

theorem get?_set {g : Grid α} {i j k l : Nat} {x : α} :
    (g.set i j x).get? k l =
      if k = i ∧ l = j then (g.get? k l).map fun _ => x else g.get? k l := by
  simp only [get?, set, Array.getElem?_modify]
  by_cases hi : i = k
  · subst hi
    cases hrow : g.rows[i]? with
    | none => simp
    | some row =>
      by_cases hj : j = l
      · subst hj
        by_cases hlt : j < row.size <;> simp [hlt]
      · have hj' : ¬ l = j := fun e => hj e.symm
        simp [hj, hj']
  · have hi' : ¬ k = i := fun e => hi e.symm
    simp [hi, hi']

theorem HasShape.set {g : Grid α} {r c : Nat} (h : g.HasShape r c) (i j : Nat) (x : α) :
    (g.set i j x).HasShape r c := by
  refine ⟨by simp [Grid.set, h.1], ?_⟩
  intro row hrow
  obtain ⟨k, hk, rfl⟩ := Array.getElem_of_mem hrow
  simp only [Grid.set, Array.size_modify] at hk
  simp only [Grid.set, Array.getElem_modify]
  split
  · simpa using h.2 _ (Array.getElem_mem hk)
  · exact h.2 _ (Array.getElem_mem hk)

theorem get?_append {g h : Grid α} {i j : Nat} :
    (g.append h).get? i j =
      if i < g.rows.size then g.get? i j else h.get? (i - g.rows.size) j := by
  simp only [get?, append, Array.getElem?_append]
  split <;> rfl

theorem get?_map {g : Grid α} {f : α → α} {i j : Nat} :
    (g.map f).get? i j = (g.get? i j).map f := by
  simp only [get?, map, List.getElem?_toArray, List.getElem?_map, Array.getElem?_toList]
  cases g.rows[i]? <;> simp

theorem get?_padTo {g : Grid α} {r k c i j : Nat} {x : α} (h : g.HasShape r k) (hk : k ≤ c) :
    (g.padTo c x).get? i j =
      if j < k then g.get? i j else if i < r ∧ j < c then some x else none := by
  obtain ⟨hr, hrows⟩ := h
  simp only [get?, padTo, List.getElem?_toArray, List.getElem?_map, Array.getElem?_toList]
  by_cases hi : i < r
  · have hsize := hrows _ (Array.getElem_mem (hr ▸ hi : i < g.rows.size))
    rw [Array.getElem?_eq_getElem (hr ▸ hi)]
    simp only [Option.map_some, Option.bind_some, Array.getElem?_append, hsize, hi, true_and,
      Array.getElem?_replicate]
    by_cases hj : j < k
    · simp [hj]
    · have : j - k < c - k ↔ j < c := by omega
      simp [hj, this]
  · rw [Array.getElem?_eq_none (by omega)]
    simp [hi]

theorem all_iff {g : Grid α} {test : α → Bool} :
    g.all test = true ↔ ∀ i j x, g.get? i j = some x → test x = true := by
  simp only [all, List.all_eq_true, Array.mem_toList_iff, Array.mem_iff_getElem?, get?,
    Option.bind_eq_some_iff]
  constructor
  · rintro h i j x ⟨row, hrow, hx⟩
    exact h row ⟨i, hrow⟩ x ⟨j, hx⟩
  · rintro h row ⟨i, hrow⟩ x ⟨j, hx⟩
    exact h i j x ⟨row, hrow, hx⟩

theorem HasShape.append {g h : Grid α} {r r' c : Nat} (hg : g.HasShape r c)
    (hh : h.HasShape r' c) : (g.append h).HasShape (r + r') c := by
  refine ⟨by simp [Grid.append, hg.1, hh.1], ?_⟩
  intro row hrow
  rcases Array.mem_append.1 hrow with hrow | hrow
  · exact hg.2 row hrow
  · exact hh.2 row hrow

theorem HasShape.map {g : Grid α} {r c : Nat} (h : g.HasShape r c) (f : α → α) :
    (g.map f).HasShape r c := by
  refine ⟨by simp [Grid.map, h.1], ?_⟩
  intro row hrow
  simp only [Grid.map, List.mem_toArray, List.mem_map, Array.mem_toList_iff] at hrow
  obtain ⟨row', hrow', rfl⟩ := hrow
  simpa using h.2 row' hrow'

theorem HasShape.padTo {g : Grid α} {r k c : Nat} (h : g.HasShape r k) (hk : k ≤ c) (x : α) :
    (g.padTo c x).HasShape r c := by
  refine ⟨by simp [Grid.padTo, h.1], ?_⟩
  intro row hrow
  simp only [Grid.padTo, List.mem_toArray, List.mem_map, Array.mem_toList_iff] at hrow
  obtain ⟨row', hrow', rfl⟩ := hrow
  have := h.2 row' hrow'
  simp only [Array.size_append, Array.size_replicate]
  omega

/-- Grids of one shape with the same cells are the same, whatever stands for the cells outside. -/
theorem HasShape.eq_of_getD {g h : Grid α} {r c : Nat} (hg : g.HasShape r c)
    (hh : h.HasShape r c) (outside : α)
    (heq : ∀ i j, (g.get? i j).getD outside = (h.get? i j).getD outside) : g = h := by
  obtain ⟨rows⟩ := g
  obtain ⟨rows'⟩ := h
  have hsize : rows.size = rows'.size := hg.1.trans hh.1.symm
  refine congrArg mk (Array.ext hsize fun i hi hi' => ?_)
  have hrow : rows[i].size = rows'[i].size :=
    (hg.2 _ (Array.getElem_mem hi)).trans (hh.2 _ (Array.getElem_mem hi')).symm
  refine Array.ext hrow fun j hj hj' => ?_
  have hcell := heq i j
  simp only [get?, Array.getElem?_eq_getElem hi, Array.getElem?_eq_getElem hi',
    Option.bind_some, Array.getElem?_eq_getElem hj, Array.getElem?_eq_getElem hj',
    Option.getD_some] at hcell
  exact hcell

end Grid

end Acceptors
