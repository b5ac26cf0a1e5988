import Acceptors.StateSet

/-!
# Search

Closure under epsilon moves, reachability, productivity and the spreading of marks over pairs of
states are one and the same search: from some nodes, follow the successors of every node met, and
mark each node once. The nodes are the numbers below the size of the array of marks; a number
outside counts as marked, so that it is never visited.

The search is driven by a supply of steps. Every step marks a node that was not marked, so as many
steps as there are nodes are enough, on cyclic graphs as well.

Results:
* `Search.leads_of_isMarked_mark`: only nodes that a node of `todo` leads to are marked.
* `Search.closed_mark`: all of them are, if there are as many steps as nodes to mark.
* `Search.mem_reach`: the nodes that are reached are those that a root leads to.
* `Search.mem_sources`: the sources of a node are the nodes that have it as a successor.
-/

namespace Acceptors

namespace Search

/-- Whether a node is marked, or is none. -/
def isMarked (marks : Array Bool) (node : Nat) : Bool := marks[node]?.getD true

/-- Marks the nodes of `todo` and all that they lead to, depth first, in at most the given number of
    steps. -/
def mark (next : Nat → List Nat) : (steps : Nat) → (marks : Array Bool) → (todo : List Nat) →
    Array Bool
  | 0, marks, _ => marks
  | steps + 1, marks, todo =>
    match todo.dropWhile (isMarked marks) with
    | [] => marks
    | node :: rest => mark next steps (marks.setIfInBounds node true) (next node ++ rest)

/-- The nodes below `size` that the nodes of `roots` lead to in any number of steps. -/
def reach (size : Nat) (next : Nat → List Nat) (roots : List Nat) : StateSet :=
  let marks := mark next size (Array.replicate size false) roots
  StateSet.below size (isMarked marks)

/-- For each node below `size`, the nodes below `size` that have it as a successor. -/
def sources (size : Nat) (next : Nat → List Nat) : Array (List Nat) :=
  (List.range size).foldl
    (fun table s => (next s).foldl (fun table t => table.modify t (s :: ·)) table)
    (Array.replicate size [])

/-! ## What is reached -/

/-- A node leads to another in any number of steps, none included. -/
inductive Leads (next : Nat → List Nat) : Nat → Nat → Prop
  | refl (a : Nat) : Leads next a a
  | step {a b c : Nat} : b ∈ next a → Leads next b c → Leads next a c

theorem Leads.trans {next : Nat → List Nat} {a b c : Nat} (hab : Leads next a b)
    (hbc : Leads next b c) : Leads next a c := by
  induction hab with
  | refl => exact hbc
  | step h _ ih => exact .step h (ih hbc)

/-- What a set closed under `next` contains, it contains with all that it leads to. -/
theorem Leads.mem_of_closed {next : Nat → List Nat} {a b : Nat} (h : Leads next a b)
    {P : Nat → Prop} (hP : ∀ x, P x → ∀ y ∈ next x, P y) (ha : P a) : P b := by
  induction h with
  | refl => exact ha
  | step h _ ih => exact ih (hP _ ha _ h)

theorem isMarked_setIfInBounds {marks : Array Bool} {x y : Nat} :
    isMarked (marks.setIfInBounds x true) y = true ↔ isMarked marks y = true ∨ y = x := by
  unfold isMarked
  rw [Array.getElem?_setIfInBounds]
  by_cases hxy : x = y
  · subst hxy
    by_cases h : x < marks.size <;> simp [h]
  · have hyx : ¬ y = x := fun e => hxy e.symm
    simp [hxy, hyx]

/-- Marking a node that is not marked leaves one node less to mark. -/
theorem count_setIfInBounds {marks : Array Bool} {x : Nat} (h : ¬ isMarked marks x = true) :
    (marks.setIfInBounds x true).count false + 1 = marks.count false := by
  have hlt : x < marks.size := by
    apply Nat.lt_of_not_le
    intro hle
    exact h (by simp [isMarked, Array.getElem?_eq_none hle])
  have hx : marks[x] = false := by
    simpa [isMarked, Array.getElem?_eq_getElem hlt] using h
  have hpos : 0 < marks.count false := Array.count_pos_iff.2 (hx ▸ Array.getElem_mem hlt)
  rw [Array.setIfInBounds, dif_pos hlt, Array.count_set hlt, hx]
  simp
  omega

/-- The members before the first one that fails a test all pass it. -/
theorem mem_or_mem_dropWhile (test : Nat → Bool) {l : List Nat} {x : Nat} (h : x ∈ l) :
    test x = true ∨ x ∈ l.dropWhile test := by
  induction l with
  | nil => cases h
  | cons y l ih =>
    cases hy : test y with
    | false =>
      right
      rw [List.dropWhile_cons, hy]
      exact h
    | true =>
      rw [List.dropWhile_cons, hy]
      rcases List.mem_cons.1 h with rfl | h
      · exact .inl hy
      · exact ih h

theorem size_mark {next : Nat → List Nat} {steps : Nat} {marks : Array Bool} {todo : List Nat} :
    (mark next steps marks todo).size = marks.size := by
  induction steps generalizing marks todo with
  | zero => rfl
  | succ steps ih =>
    rw [mark]
    split
    · rfl
    · rw [ih, Array.size_setIfInBounds]

/-- A search takes no mark back. -/
theorem isMarked_mark_of_isMarked {next : Nat → List Nat} {steps : Nat} {marks : Array Bool}
    {todo : List Nat} {x : Nat} (h : isMarked marks x = true) :
    isMarked (mark next steps marks todo) x = true := by
  induction steps generalizing marks todo with
  | zero => exact h
  | succ steps ih =>
    rw [mark]
    split
    · exact h
    · exact ih (isMarked_setIfInBounds.2 (.inl h))

/-- A search marks nothing but what its nodes lead to. -/
theorem leads_of_isMarked_mark {next : Nat → List Nat} {steps : Nat} {marks : Array Bool}
    {todo : List Nat} {x : Nat} (h : isMarked (mark next steps marks todo) x = true) :
    isMarked marks x = true ∨ ∃ r ∈ todo, Leads next r x := by
  induction steps generalizing marks todo with
  | zero => exact .inl h
  | succ steps ih =>
    rw [mark] at h
    split at h
    · exact .inl h
    · next node rest hdrop =>
      have hsub : ∀ r, r ∈ node :: rest → r ∈ todo := fun r hr =>
        (List.dropWhile_sublist _).mem (hdrop ▸ hr)
      rcases ih h with h | ⟨r, hr, h⟩
      · rcases isMarked_setIfInBounds.1 h with h | rfl
        · exact .inl h
        · exact .inr ⟨x, hsub x (by simp), .refl x⟩
      · rcases List.mem_append.1 hr with hr | hr
        · exact .inr ⟨node, hsub node (by simp), .step hr h⟩
        · exact .inr ⟨r, hsub r (by simp [hr]), h⟩

/-- With as many steps as there are nodes to mark, a search marks its nodes and, with each node that
    it marks, all successors of this node. -/
theorem closed_mark {next : Nat → List Nat} {steps : Nat} {marks : Array Bool} {todo : List Nat}
    (hsteps : marks.count false ≤ steps) :
    (∀ x ∈ todo, isMarked (mark next steps marks todo) x = true) ∧
      ∀ x, isMarked (mark next steps marks todo) x = true → ¬ isMarked marks x = true →
        ∀ y ∈ next x, isMarked (mark next steps marks todo) y = true := by
  induction steps generalizing marks todo with
  | zero =>
    have hall : ∀ x, isMarked marks x = true := by
      intro x
      apply Decidable.byContradiction
      intro hx
      have := count_setIfInBounds hx
      omega
    exact ⟨fun x _ => hall x, fun x _ hx => absurd (hall x) hx⟩
  | succ steps ih =>
    rw [mark]
    split
    · next hdrop =>
      refine ⟨?_, fun x hx hnot => absurd hx hnot⟩
      intro x hx
      rcases mem_or_mem_dropWhile (isMarked marks) hx with h | h
      · exact h
      · rw [hdrop] at h
        cases h
    · next node rest hdrop =>
      have hnode : ¬ isMarked marks node = true := by
        have := List.head?_dropWhile_not (isMarked marks) todo
        rw [hdrop] at this
        simpa using this
      have hcount := count_setIfInBounds hnode
      obtain ⟨htodo, hclosed⟩ :=
        @ih (marks.setIfInBounds node true) (next node ++ rest) (by omega)
      constructor
      · intro x hx
        rcases mem_or_mem_dropWhile (isMarked marks) hx with h | h
        · exact isMarked_mark_of_isMarked (isMarked_setIfInBounds.2 (.inl h))
        · rw [hdrop] at h
          rcases List.mem_cons.1 h with rfl | h
          · exact isMarked_mark_of_isMarked (isMarked_setIfInBounds.2 (.inr rfl))
          · exact htodo x (List.mem_append.2 (.inr h))
      · intro x hx hnot y hy
        by_cases hxn : x = node
        · subst hxn
          exact htodo y (List.mem_append.2 (.inl hy))
        · refine hclosed x hx (fun h => ?_) y hy
          rcases isMarked_setIfInBounds.1 h with h | h
          · exact hnot h
          · exact hxn h

/-- The nodes that are reached are those that a root leads to, provided that no step leaves the
    nodes. -/
theorem mem_reach {size : Nat} {next : Nat → List Nat} {roots : List Nat} {x : Nat}
    (hnext : ∀ s, s < size → ∀ t ∈ next s, t < size) (hroots : ∀ r ∈ roots, r < size) :
    x ∈ reach size next roots ↔ ∃ r ∈ roots, Leads next r x := by
  have hnot : ∀ y, y < size → ¬ isMarked (Array.replicate size false) y = true := by
    intro y hy
    simp [isMarked, hy]
  simp only [reach, StateSet.mem_below]
  constructor
  · rintro ⟨hlt, h⟩
    rcases leads_of_isMarked_mark h with h | h
    · exact absurd h (hnot x hlt)
    · exact h
  · rintro ⟨r, hr, hlead⟩
    obtain ⟨htodo, hclosed⟩ := @closed_mark next size (Array.replicate size false) roots (by simp)
    exact hlead.mem_of_closed
      (fun y (hy : y < size ∧ isMarked _ y = true) z hz =>
        ⟨hnext y hy.1 z hz, hclosed y hy.2 (hnot y hy.1) z hz⟩)
      ⟨hroots r hr, htodo r hr⟩

/-! ## Moving backwards -/

theorem size_foldl_modify {l : List Nat} {table : Array (List Nat)} {s : Nat} :
    (l.foldl (fun table t => table.modify t (s :: ·)) table).size = table.size := by
  induction l generalizing table with
  | nil => rfl
  | cons t l ih => rw [List.foldl_cons, ih, Array.size_modify]

theorem mem_foldl_modify {l : List Nat} {table : Array (List Nat)} {s r t : Nat} :
    r ∈ (l.foldl (fun table t => table.modify t (s :: ·)) table)[t]?.getD [] ↔
      r ∈ table[t]?.getD [] ∨ r = s ∧ t ∈ l ∧ t < table.size := by
  induction l generalizing table with
  | nil => simp
  | cons u l ih =>
    rw [List.foldl_cons, ih, Array.size_modify, Array.getElem?_modify]
    by_cases hu : u = t
    · subst hu
      by_cases hlt : u < table.size
      · simp only [Array.getElem?_eq_getElem hlt, hlt, Option.map_some, Option.getD_some, if_true,
          List.mem_cons, true_or, and_true]
        constructor
        · rintro ((h | h) | h)
          · exact .inr h
          · exact .inl h
          · exact .inr h.1
        · rintro (h | h)
          · exact .inl (.inr h)
          · exact .inl (.inl h)
      · simp [hlt]
    · have hu' : ¬ t = u := fun e => hu e.symm
      simp [hu, hu']

/-- The sources of a node are the nodes that have it as a successor. -/
theorem mem_sources {size s t : Nat} {next : Nat → List Nat} :
    s ∈ (sources size next)[t]?.getD [] ↔ s < size ∧ t < size ∧ t ∈ next s := by
  have key : ∀ (l : List Nat) (table : Array (List Nat)), table.size = size →
      (s ∈ (l.foldl (fun table r => (next r).foldl
        (fun table t => table.modify t (r :: ·)) table) table)[t]?.getD [] ↔
        s ∈ table[t]?.getD [] ∨ s ∈ l ∧ t ∈ next s ∧ t < size) := by
    intro l
    induction l with
    | nil => simp
    | cons r l ih =>
      intro table hsize
      rw [List.foldl_cons, ih _ (by rw [size_foldl_modify, hsize]), mem_foldl_modify, hsize,
        List.mem_cons]
      constructor
      · rintro ((h | ⟨rfl, h⟩) | ⟨hs, h⟩)
        · exact .inl h
        · exact .inr ⟨.inl rfl, h⟩
        · exact .inr ⟨.inr hs, h⟩
      · rintro (h | ⟨rfl | hs, h⟩)
        · exact .inl (.inl h)
        · exact .inl (.inr ⟨rfl, h⟩)
        · exact .inr ⟨hs, h⟩
  rw [sources, key _ _ (by simp), List.mem_range]
  have hnot : s ∉ (Array.replicate size ([] : List Nat))[t]?.getD [] := by
    by_cases ht : t < size <;> simp [ht]
  constructor
  · rintro (h | ⟨hs, ht, hlt⟩)
    · exact absurd h hnot
    · exact ⟨hs, hlt, ht⟩
  · rintro ⟨hs, hlt, ht⟩
    exact .inr ⟨hs, ht, hlt⟩

end Search

end Acceptors
