import Acceptors.Grammar.Basic

/-!
# Writing grammars

A grammar is written as it is read: a line of terminals, a line of variables, the start variable,
and one line per rule.
-/

namespace Acceptors

namespace Grammar

/-- A production as it stands after the arrow. -/
def writeProduction (marker : String) : Production → String
  | .step terminal next => terminal ++ "(" ++ next ++ ")"
  | .terminal terminal => terminal
  | .empty => marker
  | .unit next => "(" ++ next ++ ")"

/-- The line of a rule (the loop of `fmt`). -/
def writeRule (marker : String) (rule : Rule) : String :=
  rule.head ++ " -> " ++ writeProduction marker rule.production ++ "\n"

/-- The text of a grammar (`fmt`). -/
def write (g : Grammar) : String :=
  String.intercalate "," g.terminals ++ "\n" ++ String.intercalate "," g.nonterminals ++ "\n" ++
    g.start ++ "\n" ++ String.join (g.rules.map (writeRule g.epsilon))

end Grammar

end Acceptors
