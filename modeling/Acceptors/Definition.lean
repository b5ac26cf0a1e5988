import Acceptors.Config
import Acceptors.Listing
import Acceptors.SourceError

/-!
# Automata spelled out

A definition lists the parts of an automaton by name. Transitions on the epsilon marker are epsilon
moves, and the marker does not count as a symbol. States need no declaration: they are the names
that are mentioned.
-/

namespace Acceptors

/-- A transition of a definition. -/
structure Transition where
  /-- The state that is left. -/
  source : String
  /-- The symbol, or the epsilon marker. -/
  symbol : String
  /-- The state that is entered. -/
  target : String
  deriving DecidableEq

/-- An automaton spelled out. -/
structure Definition where
  /-- The symbols; the epsilon marker among them is skipped. -/
  alphabet : List String
  /-- The initial state. -/
  initial : String
  /-- The accepting states. -/
  finals : List String
  /-- The transitions. -/
  transitions : List Transition
  deriving DecidableEq

namespace Definition

/-- The move of a transition; a symbol outside the alphabet is refused (the transition loop of
    `into_nfa`). -/
def edge (marker : String) (alphabet : Alphabet) (t : Transition) : Except Error Edge :=
  if t.symbol = marker then .ok ⟨t.source, none, t.target⟩
  else
    match alphabet.idxOf? t.symbol with
    | some column => .ok ⟨t.source, some column, t.target⟩
    | none => .error (.unknownSymbol t.symbol)

/-- The automaton that is spelled out (`into_nfa`). Its states are numbered by first mention: the
    initial state, then the two states of each transition, then the accepting states. -/
def toNfa (config : Config) (d : Definition) : Except Error Nfa := do
  let alphabet ← Alphabet.ofList (d.alphabet.filter (· ≠ config.epsilon))
  let edges ← d.transitions.mapM (edge config.epsilon alphabet)
  return Listing.toNfa
    { alphabet := alphabet
      start := d.initial
      mentions := d.transitions.flatMap (fun t => [t.source, t.target]) ++ d.finals
      edges := edges
      accepting := d.finals }

end Definition

end Acceptors
