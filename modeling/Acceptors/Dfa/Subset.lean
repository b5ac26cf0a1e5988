import Acceptors.Config
import Acceptors.Dfa.Embed
import Acceptors.Nfa.EpsilonFree
import Acceptors.Numbering

/-!
# Subset construction

A nondeterministic automaton is made deterministic by taking sets of its states as states. The sets
are found breadth first from the set of the start state, the symbols in column order, and numbered
as they are found. The empty set is no state: a move to it stays undefined.
-/

namespace Acceptors

namespace Nfa

/-- Expands the sets found so far from the `i`-th on, in at most the given number of steps: each
    step adds the sets to which the symbols lead from one set, in column order, if they are new and
    not empty (the worklist of `determinize`). -/
def discover (stepRow : StateSet → Array StateSet) :
    (steps : Nat) → (i : Nat) → (found : Numbering StateSet) → Numbering StateSet
  | 0, _, found => found
  | steps + 1, i, found =>
    match found.get? i with
    | none => found
    | some X =>
      discover stepRow steps (i + 1)
        (((stepRow X).toList.filter (!·.isEmpty)).foldl .insert found)

/-- The sets that words lead to, in the order in which they are found. There are no more sets than
    the states have subsets, which bounds the number of steps. -/
def subsets (n : Nfa) : Numbering StateSet :=
  discover (n.stepRow n.moveLists) (1 <<< n.size) 0 (.insert .empty (.single n.start))

/-- The deterministic automaton whose states are the sets found (`determinize`). Epsilon moves are
    eliminated first. -/
def determinize (config : Config) (n : Nfa) : Dfa :=
  let n := n.epsilonFree
  let found := n.subsets
  let lists := n.moveLists
  let rows := (found.toList.map (n.stepRow lists)).toArray
  .ofFn n.alphabet (.numbered config.dfaPrefix found.size)
    (fun i c => (rows[i]?.bind (·[c]?)).bind found.idOf?) 0
    (.below found.size fun i => (found.get? i).any n.anyAccepting)

/-- A deterministic form of the automaton: the automaton itself if it is deterministic already, and
    otherwise its subset construction (`to_dfa`). -/
def toDfa (config : Config) (n : Nfa) : Dfa :=
  match n.toDfa? with
  | .ok d => d
  | .error _ => n.determinize config

end Nfa

end Acceptors
