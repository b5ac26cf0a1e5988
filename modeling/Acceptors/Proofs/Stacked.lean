import Mathlib.Data.Finset.Card
import Mathlib.Data.Finset.Range
import Acceptors.Search

/-!
# Search with a stack

A search can keep the nodes that it has met as a set, and those whose successors it has not looked
at yet on a stack. A node is put on the stack when it is met for the first time, so that it is taken
off once at most, and the stack is empty after as many steps as there are nodes, on cyclic graphs as
well. Then the nodes that are met are those that the first ones lead to.

Results:
* `Search.walk`: the search.
* `Search.Explored`, `Search.Explored.step`: what is known of the nodes that are met.
* `Search.walk_eq_reach`, `Search.walk_members_eq_reach`: the search ends, and what it finds.
-/

namespace Acceptors

namespace Search

/-! ## The loop -/

/-- Meets a node: the first time, it is put on the stack. -/
def meet (found : StateSet × List Nat) (node : Nat) : StateSet × List Nat :=
  if node ∈ found.1 then found else (found.1.insert node, node :: found.2)

/-- Takes nodes off the stack and meets their successors until the stack is empty (the loops of
    `reachable` and `productive`). There is no result if the steps do not suffice. -/
def walk (next : Nat → List Nat) : (steps : Nat) → (met : StateSet) → (stack : List Nat) →
    Option StateSet
  | _, met, [] => some met
  | 0, _, _ :: _ => none
  | steps + 1, met, node :: stack =>
    let found := (next node).foldl meet (met, stack)
    walk next steps found.1 found.2

variable {next : Nat → List Nat} {size steps x y : Nat} {met : StateSet} {roots stack l : List Nat}
variable {found : StateSet × List Nat}

/-! ## Meeting nodes -/

theorem mem_met_foldl_meet : x ∈ (l.foldl meet found).1 ↔ x ∈ found.1 ∨ x ∈ l := by
  induction l generalizing found with
  | nil => simp
  | cons y l ih =>
    rw [List.foldl_cons, ih, List.mem_cons, meet]
    split
    · next hy =>
      constructor
      · exact Or.imp_right .inr
      · rintro (h | rfl | h)
        · exact .inl h
        · exact .inl hy
        · exact .inr h
    · rw [StateSet.mem_insert, or_assoc]

theorem mem_stack_foldl_meet :
    x ∈ (l.foldl meet found).2 ↔ x ∈ found.2 ∨ x ∈ l ∧ x ∉ found.1 := by
  induction l generalizing found with
  | nil => simp
  | cons y l ih =>
    rw [List.foldl_cons, ih, List.mem_cons, meet]
    split
    · next hy =>
      refine or_congr_right (and_congr_left fun hx => ?_)
      rw [or_iff_right]
      rintro rfl
      exact hx hy
    · next hy =>
      simp only [List.mem_cons, StateSet.mem_insert, not_or]
      by_cases hxy : x = y
      · subst hxy
        simp [hy]
      · simp [hxy]

/-- The number of nodes that are not met yet. -/
def unmet (size : Nat) (met : StateSet) : Nat := ((Finset.range size).filter (· ∉ met)).card

/-- A node that is met is one less to be met. -/
theorem unmet_insert (hx : x < size) (hnot : x ∉ met) :
    unmet size (met.insert x) + 1 = unmet size met := by
  have herase : (Finset.range size).filter (· ∉ met.insert x) =
      ((Finset.range size).filter (· ∉ met)).erase x := by
    ext y
    simp only [Finset.mem_erase, Finset.mem_filter, StateSet.mem_insert, not_or]
    tauto
  rw [unmet, herase]
  exact Finset.card_erase_add_one (Finset.mem_filter.2 ⟨Finset.mem_range.2 hx, hnot⟩)

/-- Each node that is met goes from the nodes to be met to the stack. -/
theorem unmet_foldl_meet (hl : ∀ y ∈ l, y < size) :
    unmet size (l.foldl meet found).1 + (l.foldl meet found).2.length =
      unmet size found.1 + found.2.length := by
  induction l generalizing found with
  | nil => rfl
  | cons y l ih =>
    obtain ⟨hy, hl⟩ := List.forall_mem_cons.1 hl
    rw [List.foldl_cons, ih hl, meet]
    split
    · rfl
    · next hnot =>
      show unmet size (found.1.insert y) + (found.2.length + 1) = _
      rw [← unmet_insert hy hnot]
      omega

/-! ## What is known of the nodes that are met -/

/-- The nodes that are met are among those that the first ones lead to. They hold the first ones,
    and with each node that is not on the stack its successors. -/
structure Explored (next : Nat → List Nat) (roots : List Nat) (met : StateSet) (stack : List Nat) :
    Prop where
  sound : ∀ x ∈ met, ∃ r ∈ roots, Leads next r x
  roots : ∀ r ∈ roots, r ∈ met
  stacked : ∀ x ∈ stack, x ∈ met
  closed : ∀ x ∈ met, x ∉ stack → ∀ y ∈ next x, y ∈ met

/-- In the beginning all nodes that are met are on the stack. -/
theorem Explored.initial (h : ∀ x, x ∈ met ↔ x ∈ stack) : Explored next stack met stack where
  sound x hx := ⟨x, (h x).1 hx, .refl x⟩
  roots x := (h x).2
  stacked x := (h x).2
  closed x hx hnot := absurd ((h x).1 hx) hnot

/-- The successors of a node that is taken off the stack are met. -/
theorem Explored.step (h : Explored next roots met (x :: stack)) :
    Explored next roots ((next x).foldl meet (met, stack)).1
      ((next x).foldl meet (met, stack)).2 where
  sound y hy := by
    rcases mem_met_foldl_meet.1 hy with hy | hy
    · exact h.sound y hy
    · obtain ⟨r, hr, hlead⟩ := h.sound x (h.stacked x List.mem_cons_self)
      exact ⟨r, hr, hlead.trans (.step hy (.refl y))⟩
  roots r hr := mem_met_foldl_meet.2 (.inl (h.roots r hr))
  stacked y hy := by
    refine mem_met_foldl_meet.2 ((mem_stack_foldl_meet.1 hy).imp ?_ And.left)
    exact fun hy => h.stacked y (List.mem_cons_of_mem _ hy)
  closed y hy hnot z hz := by
    obtain ⟨hstack, hnew⟩ := not_or.1 (mt mem_stack_foldl_meet.2 hnot)
    refine mem_met_foldl_meet.2 ?_
    by_cases hyx : y = x
    · exact .inr (hyx ▸ hz)
    · -- what is met by this step alone is on the stack
      have hmet : y ∈ met := by
        rcases mem_met_foldl_meet.1 hy with hy | hy
        · exact hy
        · exact not_not.1 fun hfresh => hnew ⟨hy, hfresh⟩
      exact .inl (h.closed y hmet (by simp [hyx, hstack]) z hz)

/-- When the stack is empty, all nodes are met that the first ones lead to. -/
theorem Explored.mem_iff (h : Explored next roots met []) :
    x ∈ met ↔ ∃ r ∈ roots, Leads next r x := by
  refine ⟨h.sound x, ?_⟩
  rintro ⟨r, hr, hlead⟩
  exact hlead.mem_of_closed (P := (· ∈ met)) (fun y hy => h.closed y hy List.not_mem_nil)
    (h.roots r hr)

/-- The search ends if there is a step for each node that is on the stack or not met yet. -/
theorem Explored.exists_walk_eq (hnext : ∀ s < size, ∀ t ∈ next s, t < size)
    (h : Explored next roots met stack) (hstack : ∀ x ∈ stack, x < size)
    (hsteps : unmet size met + stack.length ≤ steps) :
    ∃ X, walk next steps met stack = some X ∧ Explored next roots X [] := by
  induction steps generalizing met stack with
  | zero =>
    cases stack with
    | nil => exact ⟨met, rfl, h⟩
    | cons x stack =>
      rw [List.length_cons] at hsteps
      omega
  | succ steps ih =>
    cases stack with
    | nil => exact ⟨met, rfl, h⟩
    | cons x stack =>
      obtain ⟨hx, hstack⟩ := List.forall_mem_cons.1 hstack
      have hcount : unmet size ((next x).foldl meet (met, stack)).1 +
          ((next x).foldl meet (met, stack)).2.length = unmet size met + stack.length :=
        unmet_foldl_meet (hnext x hx)
      rw [List.length_cons] at hsteps
      rw [walk]
      refine ih h.step (fun y hy => ?_) (by omega)
      rcases mem_stack_foldl_meet.1 hy with hy | ⟨hy, -⟩
      · exact hstack y hy
      · exact hnext x hx y hy

/-- There are at least as many nodes met as there are different ones on the stack. -/
theorem unmet_add_length_le (hmet : ∀ x ∈ stack, x ∈ met) (hstack : ∀ x ∈ stack, x < size)
    (hnodup : stack.Nodup) : unmet size met + stack.length ≤ size := by
  have hdisjoint : Disjoint ((Finset.range size).filter (· ∉ met)) stack.toFinset := by
    refine Finset.disjoint_left.2 fun x hx hmem => (Finset.mem_filter.1 hx).2 ?_
    exact hmet x (List.mem_toFinset.1 hmem)
  have hsub : (Finset.range size).filter (· ∉ met) ∪ stack.toFinset ⊆ Finset.range size := by
    refine Finset.union_subset (Finset.filter_subset _ _) fun x hx => ?_
    exact Finset.mem_range.2 (hstack x (List.mem_toFinset.1 hx))
  have hle := Finset.card_le_card hsub
  rwa [Finset.card_union_of_disjoint hdisjoint, List.toFinset_card_of_nodup hnodup,
    Finset.card_range] at hle

/-- A search from distinct nodes ends after as many steps as there are nodes. It finds the nodes
    that are reached. -/
theorem walk_eq_reach (hnext : ∀ s < size, ∀ t ∈ next s, t < size)
    (hmet : ∀ x, x ∈ met ↔ x ∈ stack) (hstack : ∀ x ∈ stack, x < size) (hnodup : stack.Nodup)
    (hsteps : size ≤ steps) : walk next steps met stack = some (reach size next stack) := by
  have hle : unmet size met + stack.length ≤ size :=
    unmet_add_length_le (fun x => (hmet x).2) hstack hnodup
  obtain ⟨X, hwalk, hX⟩ :=
    (Explored.initial hmet).exists_walk_eq hnext hstack (hle.trans hsteps)
  have hreach : X = reach size next stack := by
    apply StateSet.ext
    intro x
    rw [hX.mem_iff, mem_reach hnext hstack]
  rw [hwalk, hreach]

/-- The same for the search from the members of a set, of which the highest is on top of the
    stack. -/
theorem walk_members_eq_reach {X : StateSet} (hnext : ∀ s < size, ∀ t ∈ next s, t < size)
    (hX : ∀ x ∈ X, x < size) (hsteps : size ≤ steps) :
    walk next steps X X.members.reverse = some (reach size next X.members) := by
  have hmet : ∀ x, x ∈ X ↔ x ∈ X.members.reverse := fun x => by
    rw [List.mem_reverse, StateSet.mem_members]
  have hstack : ∀ x ∈ X.members.reverse, x < size := fun x hx => hX x ((hmet x).2 hx)
  have hroots : ∀ x ∈ X.members, x < size := fun x hx => hX x (StateSet.mem_members.1 hx)
  have hnodup : X.members.reverse.Nodup :=
    List.nodup_reverse.2 (StateSet.members_pairwise X).nodup
  rw [walk_eq_reach hnext hmet hstack hnodup hsteps]
  refine congrArg some (StateSet.ext fun x => ?_)
  simp only [mem_reach hnext hstack, mem_reach hnext hroots, List.mem_reverse]

end Search

end Acceptors
