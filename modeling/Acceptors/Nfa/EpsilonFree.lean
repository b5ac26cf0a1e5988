import Acceptors.Nfa.Run

/-!
# Doing without epsilon moves

An automaton can be freed of its epsilon moves without touching its states: a state takes over the
moves of all states in its closure, a move leads to the closure of its target, and a state accepts
if its closure does.

Results:
* `Nfa.targets_eliminateEpsilon`: a move after the elimination is a step from a closure to closures.
-/

namespace Acceptors

namespace Nfa

/-- The same automaton without epsilon moves: states, names, start and alphabet are kept
    (`eliminate_epsilon`). -/
def eliminateEpsilon (n : Nfa) : Nfa :=
  let closures := n.closures
  let closureOf := fun s => closures[s]?.getD ∅
  let lists := n.moveLists
  let rows := (closures.toList.map (n.stepRow lists)).toArray
  ofFn n.alphabet n.names
    (fun s c => ((rows[s]?.bind (·[c]?)).getD ∅).biUnion closureOf) (fun _ => ∅)
    n.start (.below n.size fun s => n.anyAccepting (closureOf s))

/-- The automaton itself if it has no epsilon move, and otherwise its form without them (the first
    step of `determinize`). -/
def epsilonFree (n : Nfa) : Nfa := if n.hasEpsilonMoves then n.eliminateEpsilon else n

/-! ## What the moves lead to -/

/-- The targets of a state after elimination: a step from its closure, and the closures of what the
step leads to. -/
theorem targets_eliminateEpsilon {n : Nfa} (hn : n.WellFormed) {s c : Nat} (hs : s < n.size)
    (hc : c < n.alphabet.size) :
    n.eliminateEpsilon.targets s c =
      (n.step (n.closure (.single s)) c).biUnion fun t => n.closure (.single t) := by
  have hclosure : ∀ t, t < n.size → n.closures[t]?.getD ∅ = n.closure (.single t) := by
    intro t ht
    rw [getElem?_closures ht, Option.getD_some]
  have hrow : ((n.closures.toList.map (n.stepRow n.moveLists)).toArray[s]?.bind (·[c]?)).getD ∅ =
      n.step (n.closure (.single s)) c := by
    simp [getElem?_closures hs, stepRow_eq, hc]
  rw [eliminateEpsilon, targets_ofFn, if_pos ⟨hs, hc⟩]
  simp only [hrow]
  apply StateSet.ext
  intro u
  simp only [StateSet.mem_biUnion, step]
  constructor
  · rintro ⟨t, ⟨r, hr, ht⟩, hu⟩
    exact ⟨t, ⟨r, hr, ht⟩, hclosure t (hn.targets_lt r c t ht) ▸ hu⟩
  · rintro ⟨t, ⟨r, hr, ht⟩, hu⟩
    exact ⟨t, ⟨r, hr, ht⟩, (hclosure t (hn.targets_lt r c t ht)).symm ▸ hu⟩

end Nfa

end Acceptors
