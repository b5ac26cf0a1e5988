import Acceptors.Alphabet
import Acceptors.Grid
import Acceptors.StateNames

/-!
# Deterministic automata

A deterministic automaton has at most one move for each state and each symbol; a move may be
undefined. Running it needs no sets: a word leads to one state or to none.
-/

namespace Acceptors

/-- A deterministic automaton, possibly with undefined moves. -/
structure Dfa where
  /-- The symbols, which are the columns of `moves`. -/
  alphabet : Alphabet
  /-- The names of the states. -/
  names : StateNames
  /-- The target of each state on each symbol, if there is one. -/
  moves : Grid (Option Nat)
  /-- The start state. -/
  start : Nat
  /-- The accepting states. -/
  accepting : StateSet
  deriving DecidableEq

namespace Dfa

/-! ## Reading -/

/-- The number of states (`len`). -/
def size (d : Dfa) : Nat := d.names.size

/-- The target of a state on the symbol of a column, if the move is defined (`transition`). -/
def move (d : Dfa) (state column : Nat) : Option Nat := (d.moves.get? state column).join

/-- The targets of the defined moves of a state, by column. -/
def successors (d : Dfa) (state : Nat) : List Nat := (d.moves.row state).filterMap id

/-- The name of a state (`name`). -/
def name (d : Dfa) (state : Nat) : String := d.names.name state

/-- The state of a name (`state_id`). -/
def idOf? (d : Dfa) (name : String) : Option Nat := d.names.idOf? name

/-- Whether a state accepts (`is_accepting`). -/
def isAccepting (d : Dfa) (state : Nat) : Bool := d.accepting.contains state

/-- Whether every state has a move on every symbol (`is_complete`). -/
def isComplete (d : Dfa) : Bool := d.moves.all Option.isSome

/-! ## Running -/

/-- The state to which a word leads from the given one (the loop of `accepts`). A symbol that the
    alphabet lacks leads nowhere. -/
def run (d : Dfa) (state : Nat) : List String → Option Nat
  | [] => some state
  | symbol :: word =>
    match (d.alphabet.idxOf? symbol).bind (d.move state) with
    | none => none
    | some target => d.run target word

/-- Whether a word leads from the given state to an accepting one. -/
def acceptsFrom (d : Dfa) (state : Nat) (word : List String) : Bool :=
  (d.run state word).any d.isAccepting

/-- Whether the automaton accepts a word (`accepts`). -/
def accepts (d : Dfa) (word : List String) : Bool := d.acceptsFrom d.start word

/-! ## Building -/

/-- The automaton of one state, which starts and does not accept (`new`). -/
def new (alphabet : Alphabet) (startName : String) : Dfa where
  alphabet := alphabet
  names := StateNames.empty.insert startName
  moves := Grid.empty.addRow alphabet.size none
  start := 0
  accepting := ∅

/-- Adds a state without moves, renamed if the name is taken; it gets the next number
    (`add_state`). -/
def addState (d : Dfa) (name : String) : Dfa :=
  { d with names := d.names.insert name, moves := d.moves.addRow d.alphabet.size none }

/-- Defines the move on the symbol of a column, or makes it undefined (`set_transition`). -/
def setMove (d : Dfa) (source column : Nat) (target : Option Nat) : Dfa :=
  { d with moves := d.moves.set source column target }

/-- Makes a state the start state (`set_start`). -/
def setStart (d : Dfa) (state : Nat) : Dfa := { d with start := state }

/-- Makes a state accept, or not (`set_accepting`). -/
def setAccepting (d : Dfa) (state : Nat) (accepts : Bool) : Dfa :=
  { d with accepting := if accepts then d.accepting.insert state else d.accepting.erase state }

/-- The automaton whose table the given function fills: `move state column`. -/
def ofFn (alphabet : Alphabet) (names : StateNames) (move : Nat → Nat → Option Nat) (start : Nat)
    (accepting : StateSet) : Dfa where
  alphabet := alphabet
  names := names
  moves := Grid.ofFn names.size alphabet.size move
  start := start
  accepting := accepting

/-- Two automata count as equal when their moves, starts and accepting states are the same, number
    by number, and their symbols and names are the same as sets. -/
instance : BEq Dfa where
  beq a b := a.alphabet == b.alphabet && a.names == b.names && a.moves = b.moves &&
    a.start == b.start && a.accepting = b.accepting

/-! ## Shape -/

/-- The table has one row per state and one column per symbol, and every state that is mentioned
    exists. -/
structure WellFormed (d : Dfa) : Prop where
  shape : d.moves.HasShape d.size d.alphabet.size
  start_lt : d.start < d.size
  accepting_lt : ∀ s ∈ d.accepting, s < d.size
  move_lt : ∀ s c t, d.move s c = some t → t < d.size

/-! ## Tables made from functions -/

theorem move_ofFn {alphabet : Alphabet} {names : StateNames} {move : Nat → Nat → Option Nat}
    {start : Nat} {accepting : StateSet} {s c : Nat} :
    (ofFn alphabet names move start accepting).move s c =
      if s < names.size ∧ c < alphabet.size then move s c else none := by
  simp only [Dfa.move, ofFn, Grid.get?_ofFn]
  split <;> rfl

end Dfa

end Acceptors
