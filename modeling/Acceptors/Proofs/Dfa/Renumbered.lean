import Acceptors.Proofs.Dfa.Language

/-!
# Automata over some states of another

Restricting an automaton and merging its states have one form. Some states of the old automaton, put
in order, are the states of the new one, and each moves and accepts as it did, except that a number
is given to the state to which a move leads, or none.

Results:
* `Dfa.next_renumber`, `Dfa.isAccepting_renumber`: how the states of the new automaton move and
  accept.
* `Dfa.wellFormed_renumber`: the new automaton is well-formed if no number is out of range.
-/

namespace Acceptors

namespace Dfa

/-- The automaton whose state `i` is the state `old[i]` of `d`, and in which a move leads to the
    number of its target. -/
def renumber (d : Dfa) (names : StateNames) (old : List Nat) (number : Nat → Option Nat)
    (start : Nat) : Dfa :=
  ofFn d.alphabet names (fun i c => (old.toArray[i]?.bind fun s => d.move s c).bind number) start
    (.below old.toArray.size fun i => old.toArray[i]?.any d.isAccepting)

variable {d : Dfa} {names : StateNames} {old : List Nat} {number : Nat → Option Nat}
variable {start s i : Nat} {a : String} (hsize : names.size = old.length)

include hsize

theorem next_renumber (hi : old[i]? = some s) :
    (d.renumber names old number start).next i a = (d.next s a).bind number := by
  have hlt : i < names.size := by
    rw [hsize]
    exact (List.getElem?_eq_some_iff.1 hi).1
  have hold : old.toArray[i]? = some s := by rwa [List.getElem?_toArray]
  rw [renumber, next_ofFn hlt, next, Option.bind_assoc]
  simp only [hold, Option.bind_some]

omit hsize in
theorem isAccepting_renumber (hi : old[i]? = some s) :
    (d.renumber names old number start).isAccepting i = d.isAccepting s := by
  have hold : old.toArray[i]? = some s := by rwa [List.getElem?_toArray]
  have hlt : i < old.toArray.size := (Array.getElem?_eq_some_iff.1 hold).1
  rw [Bool.eq_iff_iff]
  show i ∈ StateSet.below old.toArray.size (fun i => old.toArray[i]?.any d.isAccepting) ↔ _
  rw [StateSet.mem_below, and_iff_right hlt, hold]
  rfl

theorem wellFormed_renumber (hstart : start < old.length)
    (hnumber : ∀ t j, number t = some j → j < old.length) :
    (d.renumber names old number start).WellFormed := by
  refine .ofFn ?_ ?_ ?_ <;> rw [hsize]
  · exact hstart
  · intro i hi
    exact (StateSet.mem_below.1 hi).1
  · intro i c j _ hj
    obtain ⟨t, -, ht⟩ := Option.bind_eq_some_iff.1 hj
    exact hnumber t j ht

end Dfa

end Acceptors
