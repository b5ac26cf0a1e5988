import Acceptors.Dfa.Subset
import Acceptors.Minimal.Minimize
import Acceptors.Nfa.Combine

/-!
# Automata of either kind

The operations of the algebra take automata of either kind and in any mixture. Those that need sets
of targets see a deterministic automaton as a nondeterministic one; those that need single targets
make a nondeterministic automaton deterministic, by subset construction only where they must.
-/

namespace Acceptors

/-- An automaton of either kind (`FiniteAutomaton`). -/
inductive Automaton where
  /-- A nondeterministic automaton. -/
  | nfa (n : Nfa)
  /-- A deterministic automaton. -/
  | dfa (d : Dfa)
  deriving DecidableEq

namespace Automaton

instance : Coe Nfa Automaton := ⟨nfa⟩

instance : Coe Dfa Automaton := ⟨dfa⟩

/-! ## Reading -/

/-- The symbols (`alphabet`). -/
def alphabet : Automaton → Alphabet
  | nfa n => n.alphabet
  | dfa d => d.alphabet

/-- The names of the states. -/
def names : Automaton → StateNames
  | nfa n => n.names
  | dfa d => d.names

/-- The start state (`start`). -/
def start : Automaton → Nat
  | nfa n => n.start
  | dfa d => d.start

/-- Whether a state accepts (`is_accepting`). -/
def isAccepting : Automaton → Nat → Bool
  | nfa n => n.isAccepting
  | dfa d => d.isAccepting

/-- Whether the automaton accepts a word, given as a list of symbols (`accepts`). -/
def accepts : Automaton → List String → Bool
  | nfa n => n.accepts
  | dfa d => d.accepts

/-- Whether the automaton accepts a text, each character of it being a symbol (`is_match`). -/
def isMatch (a : Automaton) (text : String) : Bool := a.accepts (text.toList.map String.singleton)

/-- The automaton as a nondeterministic one (`to_nfa`). -/
def toNfa : Automaton → Nfa
  | nfa n => n
  | dfa d => d.toNfa

/-- The automaton as a deterministic one (`to_dfa`). -/
def toDfa (config : Config) : Automaton → Dfa
  | nfa n => n.toDfa config
  | dfa d => d

/-! ## Operations -/

/-- Accepts the words over the automaton's own alphabet that it rejects (`complement`). -/
def complement (config : Config) (a : Automaton) : Dfa := (a.toDfa config).complement config

/-- Accepts the words of either automaton (`union`). -/
def union (config : Config) (a b : Automaton) : Nfa := a.toNfa.union config b.toNfa

/-- Accepts a word of the left automaton followed by one of the right (`concatenate`). -/
def concat (a b : Automaton) : Nfa := a.toNfa.concat b.toNfa

/-- Accepts any number of words of the automaton one after the other (`star`). -/
def star (config : Config) (a : Automaton) : Nfa := a.toNfa.star config

/-- Accepts the words that both automata accept: what neither rejects, complements being taken over
    the joint alphabet (`intersection`). -/
def inter (config : Config) (a b : Automaton) : Dfa :=
  let alphabet := a.alphabet.union b.alphabet
  let left := ((a.toDfa config).widen alphabet).complement config
  let right := ((b.toDfa config).widen alphabet).complement config
  complement config (union config left right)

/-- The smallest deterministic automaton that accepts the same words (`minimize`). -/
def minimize (config : Config) (a : Automaton) : Dfa := (a.toDfa config).minimize config

end Automaton

end Acceptors
