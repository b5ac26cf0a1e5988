import Acceptors.Proofs.Dfa.Restricted
import Acceptors.Proofs.Dfa.Subsets
import Acceptors.Proofs.Minimal.Merged

/-!
# Reads within the tables

The operations read the tables of an automaton by numbers: of states, of columns, of subsets, of
pairs of states and of classes. In a well-formed automaton each of these numbers has an entry where
it is used. A read therefore finds the cell that is meant, and never the value that stands for a
missing one.

Results:
* `Nfa.WellFormed.inRange`: what simulations, epsilon elimination and subset construction read.
* `Dfa.WellFormed.inRange`: what runs, restriction and minimization read.
-/

namespace Acceptors

/-! ## Nondeterministic automata -/

namespace Nfa

variable {n : Nfa} {X : StateSet} {s c : Nat}

/-- Whatever number the operations look up is the number of an entry. -/
structure InRange (n : Nfa) : Prop where
  /-- Every state has a name. -/
  name : ∀ s < n.size, n.names.toList[s]? = some (n.name s)
  /-- Every column has a symbol. -/
  symbol : ∀ c < n.alphabet.size, ∃ x, n.alphabet.get? c = some x
  /-- A symbol that is found has a column. -/
  column : ∀ x c, n.alphabet.idxOf? x = some c → c < n.alphabet.size
  /-- Every state has targets in every column. -/
  targets : ∀ s < n.size, ∀ c < n.alphabet.size, n.moves.get? s c = some (n.targets s c)
  /-- Every state has targets of epsilon moves. -/
  epsilonTargets : ∀ s < n.size, n.epsilon[s]? = some (n.epsilonTargets s)
  /-- Every state has a closure. -/
  closures : ∀ s < n.size, n.closures[s]? = some (n.closure (.single s))
  /-- Epsilon moves and symbols lead from states to states. -/
  path : ∀ s < n.size, ∀ w t, n.Path s w t → t < n.size
  /-- The subsets that are found are sets of states. -/
  subsets : ∀ X ∈ n.subsets.toList, ∀ s ∈ X, s < n.size
  /-- A symbol leads from a subset to no state or to a subset that is found. -/
  expanded : ∀ X ∈ n.subsets.toList, ∀ c < n.alphabet.size, (n.step X c).isEmpty = false →
    ∃ i < n.subsets.size, n.subsets.idOf? (n.step X c) = some i

theorem WellFormed.get?_moves (hn : n.WellFormed) (hs : s < n.size) (hc : c < n.alphabet.size) :
    n.moves.get? s c = some (n.targets s c) := by
  obtain ⟨X, hX⟩ := Option.isSome_iff_exists.1 (hn.shape.get?_isSome.2 ⟨hs, hc⟩)
  rw [targets, hX, Option.getD_some]

theorem WellFormed.getElem?_epsilon (hn : n.WellFormed) (hs : s < n.size) :
    n.epsilon[s]? = some (n.epsilonTargets s) := by
  have hlt : s < n.epsilon.size := by rwa [hn.epsilon_size]
  rw [epsilonTargets, Array.getElem?_eq_getElem hlt, Option.getD_some]

theorem WellFormed.exists_idOf?_step (hn : n.WellFormed) (hX : X ∈ n.subsets.toList)
    (hc : c < n.alphabet.size) (hstep : (n.step X c).isEmpty = false) :
    ∃ i < n.subsets.size, n.subsets.idOf? (n.step X c) = some i := by
  obtain ⟨i, hi⟩ := Numbering.mem_toList_iff.1 (hn.step_mem_subsets hX hc hstep)
  exact ⟨i, lt_size_of_get?_subsets hi, Numbering.idOf?_eq_some_iff.2 hi⟩

theorem WellFormed.inRange (hn : n.WellFormed) : n.InRange where
  name _ hs := StateNames.getElem?_toList hs
  symbol _ hc := ⟨_, List.getElem?_eq_getElem hc⟩
  column _ _ h := Alphabet.lt_size_of_idxOf? h
  targets _ hs _ hc := hn.get?_moves hs hc
  epsilonTargets _ hs := hn.getElem?_epsilon hs
  closures _ hs := getElem?_closures hs
  path _ hs _ _ h := hn.path_lt hs h
  subsets := hn.lt_of_mem_subsets
  expanded _ hX _ hc hstep := hn.exists_idOf?_step hX hc hstep

end Nfa

/-! ## Deterministic automata -/

namespace Dfa

open PairTable

variable {d : Dfa} {s c : Nat}

/-- Whatever number the operations look up is the number of an entry. -/
structure InRange (d : Dfa) : Prop where
  /-- Every state has a name. -/
  name : ∀ s < d.size, d.names.toList[s]? = some (d.name s)
  /-- Every column has a symbol. -/
  symbol : ∀ c < d.alphabet.size, ∃ x, d.alphabet.get? c = some x
  /-- A symbol that is found has a column. -/
  column : ∀ x c, d.alphabet.idxOf? x = some c → c < d.alphabet.size
  /-- Every state has a target, or none, in every column. -/
  move : ∀ s < d.size, ∀ c < d.alphabet.size, d.moves.get? s c = some (d.move s c)
  /-- Words lead from states to states. -/
  run : ∀ s < d.size, ∀ w t, d.run s w = some t → t < d.size
  /-- What has a successor is a state, and so is the successor. -/
  successors : ∀ s, ∀ t ∈ d.successors s, s < d.size ∧ t < d.size
  /-- A restriction has an old state for every new number, and the start state for the new one. -/
  kept : ∀ keep, d.start ∈ keep → (d.kept keep)[(d.restrict keep).start]? = some d.start ∧
    ∀ i < (d.restrict keep).size, ∃ s < d.size, (d.kept keep)[i]? = some s
  /-- The table of pairs has an entry for any two states. -/
  pairs : ∀ s < d.size, ∀ t < d.size, pairOf d.size s t < (fill d).marked.size
  /-- The table of pairs has an entry for any two successors. -/
  nextPairs : ∀ s t, ∀ p ∈ nextPairs d s t, p < (fill d).marked.size
  /-- The classes of a complete automaton are a forest of its states. -/
  parents : d.isComplete = true →
    d.classes.parent.size = d.size ∧ ∀ s < d.size, d.classes.parentOf s < d.size
  /-- In a complete automaton, every state has a root and a merged state. -/
  roots : d.isComplete = true →
    ∀ s < d.size, (d.classes.find s).1 < d.size ∧ ∃ i < d.merge.size, d.classOf s = some i

theorem WellFormed.get?_moves (hd : d.WellFormed) (hs : s < d.size) (hc : c < d.alphabet.size) :
    d.moves.get? s c = some (d.move s c) := by
  obtain ⟨t, ht⟩ := Option.isSome_iff_exists.1 (hd.shape.get?_isSome.2 ⟨hs, hc⟩)
  rw [move, ht, Option.join_some]

theorem WellFormed.size_marked_fill (hd : d.WellFormed) :
    (fill d).marked.size = d.size * d.size :=
  (visit_all hd (fun _ _ => mem_pairs_iff.1) Sound.initial Settled.initial).2.size_marked

theorem WellFormed.exists_classOf (hd : d.WellFormed) (hcomplete : d.isComplete = true)
    (hs : s < d.size) : ∃ i < d.merge.size, d.classOf s = some i := by
  obtain ⟨i, hi⟩ := hd.exists_stands hcomplete hs
  refine ⟨i, ?_, (hd.classOf_eq_some_iff hcomplete hs).2 hi⟩
  rw [size_merge]
  exact (List.getElem?_eq_some_iff.1 hi.2).1

theorem WellFormed.inRange (hd : d.WellFormed) : d.InRange where
  name _ hs := StateNames.getElem?_toList hs
  symbol _ hc := ⟨_, List.getElem?_eq_getElem hc⟩
  column _ _ h := Alphabet.lt_size_of_idxOf? h
  move _ hs _ hc := hd.get?_moves hs hc
  run _ hs _ _ h := hd.run_lt hs h
  successors s t ht := by
    obtain ⟨x, hx⟩ := hd.mem_successors_iff.1 ht
    exact ⟨hd.lt_of_next hx, hd.next_lt hx⟩
  kept keep hstart := by
    refine ⟨hd.getElem?_kept_start hstart, fun i hi => ?_⟩
    obtain ⟨s, hs⟩ := getElem?_kept_of_lt hi
    exact ⟨s, (mem_keep_of_getElem?_kept hs).1, hs⟩
  pairs s hs t ht := by
    rw [hd.size_marked_fill]
    exact pairOf_lt hs ht
  nextPairs s t p hp := by
    rw [hd.size_marked_fill]
    exact nextPairs_lt hd p hp
  parents hcomplete :=
    ⟨(hd.classes hcomplete).size, fun s hs =>
      Nat.lt_of_le_of_lt ((hd.classes hcomplete).ordered s) hs⟩
  roots hcomplete s hs := by
    refine ⟨?_, hd.exists_classOf hcomplete hs⟩
    rw [((hd.classes hcomplete).ordered.find s).1]
    exact hd.root_classes_lt hcomplete hs

end Dfa

end Acceptors
