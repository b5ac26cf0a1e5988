import Mathlib.Tactic.Common
import Acceptors.Proofs.Nfa.Shape

/-!
# Automata side by side

When two automata are joined, the states of the left one keep their numbers and those of the right
one move up by the number of states on the left. Within its block each automaton moves as before,
and no move leads from one block to the other. Whatever symbols the two share and in whatever order,
moves are compared by the text of their symbols.

Results:
* `Nfa.WellFormed.join`, `Nfa.size_join`: the joined automaton is well-formed and has all states.
* `Nfa.WellFormed.moves_join_left`, `Nfa.WellFormed.moves_join_right`: its moves.
* `Nfa.WellFormed.epsilonTargets_join_left`, `Nfa.WellFormed.epsilonTargets_join_right`: its epsilon
  moves.
-/

namespace Acceptors

theorem Alphabet.size_le_size_union (a b : Alphabet) : a.size ≤ (a.union b).size := by
  simp [size, union]

namespace Nfa

variable {l r : Nfa} {s t : Nat} {a : String}

theorem size_join : (l.join r).size = l.size + r.size := by
  rw [size, join, StateNames.size_insertAll, StateNames.length_toList]
  rfl

/-! ## Moves -/

theorem WellFormed.moves_join_left (hl : l.WellFormed) (hs : s < l.size) :
    (l.join r).Moves s a t ↔ l.Moves s a t := by
  constructor
  · rintro ⟨c, hc, ht⟩
    rw [targets_join hl, if_pos hs] at ht
    have hlt := (hl.lt_of_mem_targets ht).2
    exact ⟨c, (Alphabet.idxOf?_union_eq_some_iff hlt).1 hc, ht⟩
  · rintro ⟨c, hc, ht⟩
    refine ⟨c, ?_, ?_⟩
    · exact (Alphabet.idxOf?_union_eq_some_iff (Alphabet.lt_size_of_idxOf? hc)).2 hc
    · rwa [targets_join hl, if_pos hs]

theorem WellFormed.moves_join_right (hl : l.WellFormed) (hr : r.WellFormed) (hs : l.size ≤ s) :
    (l.join r).Moves s a t ↔ l.size ≤ t ∧ r.Moves (s - l.size) a (t - l.size) := by
  have hsub : ∀ x ∈ r.alphabet, x ∈ l.alphabet.union r.alphabet :=
    fun x hx => Alphabet.mem_union.2 (.inr hx)
  rw [← hr.moves_widen hsub]
  simp only [Moves, targets_join hl, if_neg (Nat.not_lt.2 hs), StateSet.mem_shift]
  constructor
  · rintro ⟨c, hc, hle, ht⟩
    exact ⟨hle, c, hc, ht⟩
  · rintro ⟨hle, c, hc, ht⟩
    exact ⟨c, hc, hle, ht⟩

theorem toList_epsilon_join :
    (l.join r).epsilon.toList = l.epsilon.toList ++ r.epsilon.toList.map (·.shift l.size) :=
  Array.toList_appendList

theorem WellFormed.epsilonTargets_join_left (hl : l.WellFormed) (hs : s < l.size) :
    (l.join r).epsilonTargets s = l.epsilonTargets s := by
  have hs' : s < l.epsilon.toList.length := by rwa [Array.length_toList, hl.epsilon_size]
  rw [epsilonTargets, ← Array.getElem?_toList, toList_epsilon_join, List.getElem?_append_left hs',
    Array.getElem?_toList, epsilonTargets]

theorem WellFormed.epsilonTargets_join_right (hl : l.WellFormed) (hs : l.size ≤ s) :
    (l.join r).epsilonTargets s = (r.epsilonTargets (s - l.size)).shift l.size := by
  have hlen : l.epsilon.toList.length = l.size := by rw [Array.length_toList, hl.epsilon_size]
  rw [epsilonTargets, ← Array.getElem?_toList, toList_epsilon_join,
    List.getElem?_append_right (by rwa [hlen]), hlen, List.getElem?_map, Array.getElem?_toList,
    epsilonTargets]
  cases r.epsilon[s - l.size]? <;> rfl

/-! ## Moves of the operands -/

theorem WellFormed.mem_epsilonTargets_join_left (hl : l.WellFormed) (h : t ∈ l.epsilonTargets s) :
    t ∈ (l.join r).epsilonTargets s := by
  rwa [hl.epsilonTargets_join_left (hl.lt_of_mem_epsilonTargets h)]

theorem WellFormed.mem_epsilonTargets_join_right (hl : l.WellFormed) (h : t ∈ r.epsilonTargets s) :
    t + l.size ∈ (l.join r).epsilonTargets (s + l.size) := by
  rw [hl.epsilonTargets_join_right (Nat.le_add_left _ _), StateSet.mem_shift]
  simpa using h

theorem WellFormed.moves_join_of_left (hl : l.WellFormed) (h : l.Moves s a t) :
    (l.join r).Moves s a t := by
  rwa [hl.moves_join_left (hl.lt_of_moves h)]

theorem WellFormed.moves_join_of_right (hl : l.WellFormed) (hr : r.WellFormed)
    (h : r.Moves s a t) : (l.join r).Moves (s + l.size) a (t + l.size) := by
  rw [hl.moves_join_right hr (Nat.le_add_left _ _)]
  simpa using h

/-! ## Shape -/

theorem WellFormed.join (hl : l.WellFormed) (hr : r.WellFormed) : (l.join r).WellFormed where
  shape := by
    rw [size_join]
    have hleft := hl.shape.padTo (Alphabet.size_le_size_union l.alphabet r.alphabet) ∅
    exact hleft.append ((hr.widen (l.alphabet.union r.alphabet)).shape.map _)
  epsilon_size := by
    rw [size_join, ← Array.length_toList, toList_epsilon_join, List.length_append, List.length_map,
      Array.length_toList, Array.length_toList, hl.epsilon_size, hr.epsilon_size]
  start_lt := by
    rw [size_join]
    exact Nat.lt_add_right _ hl.start_lt
  accepting_lt s hs := by
    rw [size_join]
    exact Nat.lt_add_right _ (hl.accepting_lt s hs)
  targets_lt s c t ht := by
    rw [size_join]
    rw [targets_join hl] at ht
    split at ht
    · exact Nat.lt_add_right _ (hl.targets_lt s c t ht)
    · obtain ⟨hle, ht⟩ := StateSet.mem_shift.1 ht
      have hlt : t - l.size < r.size := (hr.widen _).targets_lt _ _ _ ht
      omega
  epsilonTargets_lt s t ht := by
    rw [size_join]
    rcases Nat.lt_or_ge s l.size with hs | hs
    · rw [hl.epsilonTargets_join_left hs] at ht
      exact Nat.lt_add_right _ (hl.epsilonTargets_lt s t ht)
    · rw [hl.epsilonTargets_join_right hs] at ht
      obtain ⟨hle, ht⟩ := StateSet.mem_shift.1 ht
      have := hr.epsilonTargets_lt _ _ ht
      omega

end Nfa

end Acceptors
