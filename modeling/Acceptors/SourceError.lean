import Acceptors.Error
import Acceptors.Text.Quoted

/-!
# What can go wrong between texts and automata

Reading a table or a grammar stops at the first line that is at fault and says which line and why.
Writing refuses an automaton whose symbols or names would not be read back. Building from a source
also fails if the number of sources is not one, or if the algebra refuses what the source says.
-/

namespace Acceptors

open Text (quote)

/-- Why a line of a table is refused (the messages of `parse` and `parse_row`). -/
inductive TableFault where
  /-- There is no line of symbols. -/
  | noAlphabet
  /-- The line of symbols has the epsilon marker twice. -/
  | markerTwice
  /-- The line of symbols makes no alphabet. -/
  | badAlphabet (cause : Error)
  /-- There is no line with the initial state. -/
  | noInitial
  /-- The initial state is no name. -/
  | badInitial (text : String)
  /-- A row begins with an accepting marker that does not end. -/
  | openMarker (head : String)
  /-- The state of a row or a target is no name. -/
  | badState (text : String)
  /-- Something else stands where a set of targets should begin. -/
  | noSet (rest : String)
  /-- A set of targets does not end. -/
  | openSet
  /-- A row has not as many sets as there are columns. -/
  | setCount (expected found : Nat)
  /-- A state has two rows. -/
  | rowTwice (state : String)
  deriving DecidableEq

/-- The sentence shown to the user. -/
def TableFault.message : TableFault → String
  | noAlphabet => "missing alphabet line"
  | markerTwice => "epsilon marker listed twice"
  | badAlphabet cause => cause.message
  | noInitial => "missing initial state line"
  | badInitial text => "invalid initial state " ++ quote text
  | openMarker head => "unterminated accepting marker in " ++ quote head
  | badState text => "invalid state name " ++ quote text
  | noSet rest => "expected '\x7b' at " ++ quote rest
  | openSet => "unterminated '\x7b'"
  | setCount expected found => s!"expected {expected} transition sets, found {found}"
  | rowTwice state => "state " ++ quote state ++ " is defined twice"

/-- The two kinds of names in a grammar. -/
inductive NameKind where
  /-- A symbol of the generated words. -/
  | terminal
  /-- A variable, which rules replace. -/
  | nonterminal
  deriving DecidableEq

/-- The word for a kind of names. -/
def NameKind.word : NameKind → String
  | terminal => "terminal"
  | nonterminal => "variable"

/-- Why a line of a grammar is refused (the messages of `parse` and `parse_rule`). -/
inductive GrammarFault where
  /-- There is no line of terminals or of variables. -/
  | noNames (kind : NameKind)
  /-- A terminal or a variable is no grammar name. -/
  | badName (kind : NameKind) (text : String)
  /-- A terminal or a variable is declared twice. -/
  | nameTwice (kind : NameKind) (text : String)
  /-- The epsilon marker is declared as a terminal. -/
  | terminalIsMarker (marker : String)
  /-- There is no line with the start variable. -/
  | noStart
  /-- The start variable is not declared. -/
  | badStart (text : String)
  /-- A rule has no arrow. -/
  | noArrow
  /-- Nothing stands before the arrow of a rule. -/
  | noVariable
  /-- Nothing stands after the arrow of a rule. -/
  | noProduction
  /-- What stands after the arrow has its parentheses in wrong places. -/
  | badProduction (text : String)
  /-- A rule uses a terminal or a variable that is not declared. -/
  | undeclared (kind : NameKind) (text : String)
  deriving DecidableEq

/-- The sentence shown to the user. -/
def GrammarFault.message : GrammarFault → String
  | noNames kind => "missing " ++ kind.word ++ "s line"
  | badName kind text => "invalid " ++ kind.word ++ " " ++ quote text
  | nameTwice kind text => kind.word ++ " " ++ quote text ++ " is declared twice"
  | terminalIsMarker marker => "terminal " ++ quote marker ++ " is the epsilon marker"
  | noStart => "missing start variable line"
  | badStart text => "start variable " ++ quote text ++ " is not declared"
  | noArrow => "expected '->'"
  | noVariable => "rule has no variable"
  | noProduction => "rule has no production"
  | badProduction text => "malformed production " ++ quote text
  | undeclared kind text => "unknown " ++ kind.word ++ " " ++ quote text

/-- The reasons for which a text is not read, an automaton not written or a source not used
    (`Error`). -/
inductive SourceError where
  /-- A line of a table is at fault. -/
  | table (line : Nat) (fault : TableFault)
  /-- A line of a grammar is at fault. -/
  | grammar (line : Nat) (fault : GrammarFault)
  /-- A file cannot be read, or is no text. -/
  | unreadable
  /-- The algebra refuses what the source says. -/
  | automaton (cause : Error)
  /-- The symbol to be written is the epsilon marker. -/
  | reservedSymbol (symbol : String)
  /-- The symbol to be written would not be read back. -/
  | invalidSymbol (symbol : String)
  /-- The name to be written would not be read back. -/
  | invalidStateName (name : String)
  /-- There is more than one source. -/
  | conflictingSources
  /-- There is no source. -/
  | missingSource
  deriving DecidableEq

/-- The sentence shown to the user (`fmt`). -/
def SourceError.message : SourceError → String
  | table line fault => s!"line {line}: " ++ fault.message
  | grammar line fault => s!"line {line}: " ++ fault.message
  | unreadable => "failed to read automaton source"
  | automaton cause => cause.message
  | reservedSymbol symbol => "symbol " ++ quote symbol ++ " is reserved for epsilon moves"
  | invalidSymbol symbol => "symbol " ++ quote symbol ++ " cannot be written out"
  | invalidStateName name => "state name " ++ quote name ++ " cannot be written out"
  | conflictingSources => "more than one automaton source was given"
  | missingSource => "no automaton source was given"

end Acceptors
