import Acceptors.Dfa.Complete
import Acceptors.Dfa.Restrict
import Acceptors.Minimal.DisjointSets
import Acceptors.Minimal.PairTable

/-!
# Minimal automata

A deterministic automaton is made minimal in four steps: a sink completes it, the states that no
word reaches are dropped, the states that cannot be told apart are merged, and the states that no
accepting state follows are dropped. An automaton that accepts nothing keeps its start state alone.
-/

namespace Acceptors

namespace Dfa

/-- The classes of the states that cannot be told apart (the first loop of `merge_equivalent`). -/
def classes (d : Dfa) : DisjointSets :=
  let table := PairTable.fill d
  (PairTable.pairs d.size).foldl
    (fun sets (a, b) => if table.equivalent a b then sets.union a b else sets)
    (.singletons d.size)

/-- Merges each class into one state (`merge_equivalent`). Classes are numbered by their smallest
    members and named by their members' names in order; a name that an earlier class has is
    changed. -/
def merge (d : Dfa) : Dfa :=
  let sets := d.classes
  let roots := Array.ofFn fun s : Fin d.size => (sets.find s.val).1
  let membersOf := fun r => (List.range d.size).filter fun s => roots[s]? = some r
  let smallest := (List.range d.size).filter fun s => roots[s]? = some s
  let classOf := fun s => roots[s]?.bind smallest.idxOf?
  let old := smallest.toArray
  ofFn d.alphabet (.ofList (smallest.map fun r => String.join ((membersOf r).map d.name)))
    (fun i c => (old[i]?.bind fun s => d.move s c).bind classOf)
    ((classOf d.start).getD 0)
    (.below old.size fun i => old[i]?.any d.isAccepting)

/-- Drops the states from which no accepting state can be reached; a start state is kept
    (`prune_dead`). -/
def prune (d : Dfa) : Dfa :=
  let live := d.productive
  if d.start ∈ live then d.restrict live else new d.alphabet (d.name d.start)

/-- The smallest automaton that accepts the same words (`minimize`). -/
def minimize (config : Config) (d : Dfa) : Dfa :=
  let complete := d.complete config.sinkName
  (complete.restrict complete.reachable).merge.prune

end Dfa

end Acceptors
