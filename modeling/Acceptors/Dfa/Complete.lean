import Acceptors.Config
import Acceptors.Dfa.Basic

/-!
# Completion and complement

A deterministic automaton is completed by a sink: a new state to which every undefined move leads
and which leads to itself. Once every move is defined, the complement only swaps accepting and other
states.
-/

namespace Acceptors

namespace Dfa

/-- The automaton with every undefined move leading to a sink of the given name (`complete`). An
    automaton without undefined moves stays as it is and gets no sink. -/
def complete (d : Dfa) (sinkName : String) : Dfa :=
  if d.isComplete then d
  else
    ofFn d.alphabet (d.names.insert sinkName) (fun s c => some ((d.move s c).getD d.size)) d.start
      d.accepting

/-- Swaps accepting and other states (the loop of `complement`). -/
def flip (d : Dfa) : Dfa := { d with accepting := .below d.size fun s => !d.isAccepting s }

/-- Accepts the words over the alphabet that the automaton rejects (`complement`). -/
def complement (config : Config) (d : Dfa) : Dfa := (d.complete config.sinkName).flip

/-- The same automaton over another alphabet: symbols are matched by their text, and a symbol that
    the automaton does not know has no move (`with_alphabet`). -/
def widen (d : Dfa) (alphabet : Alphabet) : Dfa :=
  let columns := alphabet.columnsIn d.alphabet
  { d with
    alphabet := alphabet
    moves := Grid.ofFn d.size alphabet.size fun s c => (columns[c]?.join).bind (d.move s) }

end Dfa

end Acceptors
