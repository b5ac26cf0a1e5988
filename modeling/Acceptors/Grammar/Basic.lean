/-!
# Right-linear grammars

A grammar replaces variables by terminals. Its rules read at most one terminal and continue in at
most one variable, so that a grammar is an automaton written differently: variables are states and
rules are moves.
-/

namespace Acceptors

namespace Grammar

/-- What a variable may be replaced by. -/
inductive Production where
  /-- A terminal, and then what the next variable stands for. -/
  | step (terminal next : String)
  /-- A terminal. -/
  | terminal (terminal : String)
  /-- Nothing. -/
  | empty
  /-- What the next variable stands for. -/
  | unit (next : String)
  deriving DecidableEq

/-- A rule: a variable and one of its productions. -/
structure Rule where
  /-- The variable that is replaced. -/
  head : String
  /-- What it is replaced by. -/
  production : Production
  deriving DecidableEq

end Grammar

/-- A right-linear grammar. -/
structure Grammar where
  /-- The symbols of the generated words. -/
  terminals : List String
  /-- The variables. -/
  nonterminals : List String
  /-- The variable from which words are generated. -/
  start : String
  /-- The rules, in order. -/
  rules : List Grammar.Rule
  /-- The text that stands for the empty production. -/
  epsilon : String
  deriving DecidableEq

end Acceptors
