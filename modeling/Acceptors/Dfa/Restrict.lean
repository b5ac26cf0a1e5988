import Acceptors.Dfa.Basic
import Acceptors.Search

/-!
# Reachable and productive states, and restriction to a set of states

A state is reachable if some word leads to it from the start, and productive if some word leads from
it to an accepting state. Restricting an automaton to a set of states drops the others: the kept
ones are numbered anew in their old order, and a move into a dropped state becomes undefined.
-/

namespace Acceptors

namespace Dfa

/-- The states to which some word leads (`reachable`). -/
def reachable (d : Dfa) : StateSet := Search.reach d.size d.successors [d.start]

/-- The states from which some word leads to an accepting state (`productive`). -/
def productive (d : Dfa) : StateSet :=
  let sources := Search.sources d.size d.successors
  Search.reach d.size (fun s => sources[s]?.getD []) d.accepting.members

/-- The automaton with the states of `keep` alone, numbered in their order (`retain`). The start
    state has to be among them. -/
def restrict (d : Dfa) (keep : StateSet) : Dfa :=
  let kept := (List.range d.size).filter keep.contains
  let old := kept.toArray
  ofFn d.alphabet (d.names.restrict keep)
    (fun i c => (old[i]?.bind fun s => d.move s c).bind kept.idxOf?)
    ((kept.idxOf? d.start).getD 0)
    (.below old.size fun i => old[i]?.any d.isAccepting)

end Dfa

end Acceptors
