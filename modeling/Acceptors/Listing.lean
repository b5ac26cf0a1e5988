import Acceptors.Nfa.Basic

/-!
# Automata listed by name

Tables, grammars and definitions all describe an automaton by names: a start state, moves between
named states and accepting states. The states are the distinct names in the order in which they are
first mentioned, the start state first, and none is renamed.
-/

namespace Acceptors

/-- A move between named states: on the symbol of a column, or an epsilon move. -/
structure Edge where
  /-- The state that is left. -/
  source : String
  /-- The column of the symbol; epsilon moves have none. -/
  column : Option Nat
  /-- The state that is entered. -/
  target : String
  deriving DecidableEq

/-- An automaton described by names. -/
structure Listing where
  /-- The symbols. -/
  alphabet : Alphabet
  /-- The start state. -/
  start : String
  /-- The other mentions of states, in order. -/
  mentions : List String
  /-- The moves. -/
  edges : List Edge
  /-- The accepting states. -/
  accepting : List String
  deriving DecidableEq

namespace Listing

/-- The states, numbered by first mention. -/
def names (l : Listing) : StateNames := .ofMentions (l.start :: l.mentions)

/-- The automaton that is described. Names that are not mentioned play no part. -/
def toNfa (l : Listing) : Nfa :=
  let names := l.names
  let edges := l.edges.filterMap fun e =>
    match names.idOf? e.source, names.idOf? e.target with
    | some s, some t => some (s, e.column, t)
    | _, _ => none
  let targetsOn := fun s column =>
    StateSet.ofList (edges.filterMap fun (source, on, target) =>
      if source = s ∧ on = column then some target else none)
  .ofFn l.alphabet names (fun s c => targetsOn s (some c)) (fun s => targetsOn s none) 0
    (.ofList (l.accepting.filterMap names.idOf?))

end Listing

end Acceptors
