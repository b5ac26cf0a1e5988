import Acceptors.SourceError
import Acceptors.Table.Basic
import Acceptors.Text.Name

/-!
# Writing tables

An automaton is written with one row per state, in order. A column for epsilon moves is added at the
end if there is any such move. An automaton is refused if one of its symbols is the epsilon marker,
or if a symbol or a state has a name that could not be read back.
-/

namespace Acceptors

/-- Checks that the symbols and the states of an automaton can be written: that no symbol is the
    epsilon marker, and that all symbols and then all states pass the test for names (the checks of
    `render` and `from_automaton`). -/
def checkWritable (isName : String → Bool) (config : Config) (n : Nfa) : Except SourceError Unit :=
  match n.alphabet.symbols.find? fun symbol => symbol = config.epsilon || !isName symbol with
  | some symbol =>
    .error (if symbol = config.epsilon then .reservedSymbol symbol else .invalidSymbol symbol)
  | none =>
    match n.names.toList.find? (!isName ·) with
    | some name => .error (.invalidStateName name)
    | none => .ok ()

namespace Table

/-- The table of an automaton (what `render` writes). -/
def ofNfa (config : Config) (n : Nfa) : Table where
  alphabet := n.alphabet
  header := n.alphabet.symbols ++ if n.hasEpsilonMoves then [config.epsilon] else []
  initial := n.name n.start
  rows := (List.range n.size).map fun s =>
    let targets := (List.range n.alphabet.size).map (n.targets s)
    { name := n.name s
      accepting := n.isAccepting s
      cells := (targets ++ if n.hasEpsilonMoves then [n.epsilonTargets s] else []).map
        fun X => X.members.map n.name }

/-- A set of targets between braces, after a comma (`push_set`). -/
def writeCell (targets : List String) : String :=
  ",\x7b" ++ String.intercalate "," targets ++ "\x7d"

/-- The line of a row (the row loop of `render`). -/
def writeRow (row : Row) : String :=
  (if row.accepting then "[" ++ row.name ++ "]" else row.name) ++
    String.join (row.cells.map writeCell) ++ "\n"

/-- The text of a table. -/
def write (t : Table) : String :=
  String.intercalate "," t.header ++ "\n" ++ t.initial ++ "\n" ++ String.join (t.rows.map writeRow)

/-- Writes an automaton as a table (`render`). -/
def render (config : Config) (a : Automaton) : Except SourceError String :=
  (checkWritable Text.isName config a.toNfa).map fun _ => (ofNfa config a.toNfa).write

end Table

end Acceptors
