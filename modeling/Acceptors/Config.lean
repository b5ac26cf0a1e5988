/-!
# Names that the algebra gives

Several operations create states of their own. The settings below say how such states are called
and which token stands for an epsilon move in written automata; none of them changes the words that
an operation's result accepts.
-/

namespace Acceptors

/-- The names of created states, and the epsilon marker of the text formats. -/
structure Config where
  /-- The token that stands for an epsilon move in a text. -/
  epsilon : String := "e"
  /-- The name of the sink that completes a deterministic automaton. -/
  sinkName : String := "SINK"
  /-- Subset construction names its `n`-th subset with this text followed by `n`. -/
  dfaPrefix : String := "DFA"
  /-- The states of the symbols of a pattern are named with this text followed by a number. -/
  statePrefix : String := "q"
  /-- The name of the start state that union and star add. -/
  startName : String := "S"
  /-- The name of the accepting state that union, star and grammars add. -/
  finalName : String := "F"
  deriving DecidableEq

end Acceptors
