import Acceptors.Alphabet
import Acceptors.Grid
import Acceptors.StateNames

/-!
# Nondeterministic automata

A nondeterministic automaton has for each state and each symbol a set of targets, and for each state
a set of targets of epsilon moves. An empty set means that there is no move, which is not the same
as a loop. States are numbered from zero in the order in which they were added.
-/

namespace Acceptors

/-- A nondeterministic automaton with epsilon moves. -/
structure Nfa where
  /-- The symbols, which are the columns of `moves`. -/
  alphabet : Alphabet
  /-- The names of the states. -/
  names : StateNames
  /-- The targets of each state on each symbol. -/
  moves : Grid StateSet
  /-- The targets of the epsilon moves of each state. -/
  epsilon : Array StateSet
  /-- The start state. -/
  start : Nat
  /-- The accepting states. -/
  accepting : StateSet
  deriving DecidableEq

namespace Nfa

/-! ## Reading -/

/-- The number of states (`len`). -/
def size (n : Nfa) : Nat := n.names.size

/-- The targets of a state on the symbol of a column (`targets`). -/
def targets (n : Nfa) (state column : Nat) : StateSet := (n.moves.get? state column).getD ∅

/-- The targets of the epsilon moves of a state (`epsilon_targets`). -/
def epsilonTargets (n : Nfa) (state : Nat) : StateSet := n.epsilon[state]?.getD ∅

/-- The name of a state (`name`). -/
def name (n : Nfa) (state : Nat) : String := n.names.name state

/-- The state of a name (`state_id`). -/
def idOf? (n : Nfa) (name : String) : Option Nat := n.names.idOf? name

/-- Whether a state accepts (`is_accepting`). -/
def isAccepting (n : Nfa) (state : Nat) : Bool := n.accepting.contains state

/-- Whether some state has an epsilon move (`has_epsilon_moves`). -/
def hasEpsilonMoves (n : Nfa) : Bool := n.epsilon.toList.any (!·.isEmpty)

/-- Whether no state has an epsilon move or two targets on one symbol (`is_deterministic`). -/
def isDeterministic (n : Nfa) : Bool :=
  !n.hasEpsilonMoves && n.moves.all fun X => X.members.length ≤ 1

/-! ## Building -/

/-- The automaton of one state, which starts and does not accept (`new`). -/
def new (alphabet : Alphabet) (startName : String) : Nfa where
  alphabet := alphabet
  names := StateNames.empty.insert startName
  moves := Grid.empty.addRow alphabet.size ∅
  epsilon := #[∅]
  start := 0
  accepting := ∅

/-- Adds a state without moves, renamed if the name is taken; it gets the next number
    (`add_state`). -/
def addState (n : Nfa) (name : String) : Nfa :=
  { n with
    names := n.names.insert name
    moves := n.moves.addRow n.alphabet.size ∅
    epsilon := n.epsilon.push ∅ }

/-- Adds a move on the symbol of a column (`add_transition`). -/
def addMove (n : Nfa) (source column target : Nat) : Nfa :=
  { n with moves := n.moves.set source column ((n.targets source column).insert target) }

/-- Adds an epsilon move (`add_epsilon`). -/
def addEpsilon (n : Nfa) (source target : Nat) : Nfa :=
  { n with epsilon := n.epsilon.modify source (·.insert target) }

/-- Makes a state the start state (`set_start`). -/
def setStart (n : Nfa) (state : Nat) : Nfa := { n with start := state }

/-- Makes a state accept, or not (`set_accepting`). -/
def setAccepting (n : Nfa) (state : Nat) (accepts : Bool) : Nfa :=
  { n with accepting := if accepts then n.accepting.insert state else n.accepting.erase state }

/-- The automaton whose tables the given functions fill: `targets state column` and
    `epsilon state`. -/
def ofFn (alphabet : Alphabet) (names : StateNames) (targets : Nat → Nat → StateSet)
    (epsilon : Nat → StateSet) (start : Nat) (accepting : StateSet) : Nfa where
  alphabet := alphabet
  names := names
  moves := Grid.ofFn names.size alphabet.size targets
  epsilon := Array.ofFn fun s : Fin names.size => epsilon s.val
  start := start
  accepting := accepting

/-- Adds epsilon moves, to `extra state` from each state. -/
def addEpsilons (n : Nfa) (extra : Nat → StateSet) : Nfa :=
  { n with
    epsilon := Array.ofFn fun s : Fin n.size => (n.epsilonTargets s.val).union (extra s.val) }

/-- Two automata count as equal when their moves, starts and accepting states are the same, number
    by number, and their symbols and names are the same as sets. -/
instance : BEq Nfa where
  beq a b := a.alphabet == b.alphabet && a.names == b.names && a.moves = b.moves &&
    a.epsilon = b.epsilon && a.start == b.start && a.accepting = b.accepting

/-! ## Shape -/

/-- The tables have one row per state and one column per symbol, and every state that is mentioned
    exists. -/
structure WellFormed (n : Nfa) : Prop where
  shape : n.moves.HasShape n.size n.alphabet.size
  epsilon_size : n.epsilon.size = n.size
  start_lt : n.start < n.size
  accepting_lt : ∀ s ∈ n.accepting, s < n.size
  targets_lt : ∀ s c, ∀ t ∈ n.targets s c, t < n.size
  epsilonTargets_lt : ∀ s, ∀ t ∈ n.epsilonTargets s, t < n.size

/-! ## Tables made from functions -/

theorem targets_ofFn {alphabet : Alphabet} {names : StateNames} {targets : Nat → Nat → StateSet}
    {epsilon : Nat → StateSet} {start : Nat} {accepting : StateSet} {s c : Nat} :
    (ofFn alphabet names targets epsilon start accepting).targets s c =
      if s < names.size ∧ c < alphabet.size then targets s c else ∅ := by
  simp only [Nfa.targets, ofFn, Grid.get?_ofFn]
  split <;> rfl

theorem epsilonTargets_ofFn {alphabet : Alphabet} {names : StateNames}
    {targets : Nat → Nat → StateSet} {epsilon : Nat → StateSet} {start : Nat}
    {accepting : StateSet} {s : Nat} :
    (ofFn alphabet names targets epsilon start accepting).epsilonTargets s =
      if s < names.size then epsilon s else ∅ := by
  by_cases h : s < names.size <;> simp [epsilonTargets, ofFn, h]

end Nfa

end Acceptors
