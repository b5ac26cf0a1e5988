import Acceptors.Automaton
import Acceptors.Grammar.Basic
import Acceptors.Listing
import Acceptors.SourceError
import Acceptors.Table.Writer
import Acceptors.Text.Name

/-!
# Grammars and automata

The automaton of a grammar has the variables as states. A rule that ends in a variable is a move to
it; a rule that ends in a terminal is a move to one more state, which accepts and is added only if
there is such a rule; a variable with the empty production accepts.

The grammar of an automaton has the states as variables and the moves as rules. Epsilon moves are
eliminated first, and a state that accepts gets the empty production after its other rules.
-/

namespace Acceptors

namespace Grammar

/-! ## From grammars to automata -/

/-- The move of a rule, where `final` is the state that a final terminal leads to (the rule loop of
    `to_nfa`). The empty production is no move. A name that is not declared is refused. -/
def Rule.edge (alphabet : Alphabet) (nonterminals : List String) (final : String) (rule : Rule) :
    Except SourceError (Option Edge) := do
  let state := fun name =>
    if name ∈ nonterminals then Except.ok name else throw (SourceError.invalidStateName name)
  let column := fun symbol =>
    match alphabet.idxOf? symbol with
    | some column => Except.ok column
    | none => throw (SourceError.automaton (.unknownSymbol symbol))
  let source ← state rule.head
  match rule.production with
  | .step terminal next =>
    let column ← column terminal
    return some ⟨source, some column, ← state next⟩
  | .terminal terminal => return some ⟨source, some (← column terminal), final⟩
  | .empty => return none
  | .unit next => return some ⟨source, none, ← state next⟩

/-- Whether the production is a terminal alone. -/
def Production.isTerminal : Production → Bool
  | terminal _ => true
  | step _ _ | empty | unit _ => false

/-- The automaton that accepts the generated words (`to_nfa`). -/
def toNfa (config : Config) (g : Grammar) : Except SourceError Nfa := do
  let alphabet ← (Alphabet.ofList g.terminals).mapError .automaton
  let states := StateNames.ofMentions (g.start :: g.nonterminals)
  let final := states.fresh config.finalName
  let edges ← g.rules.mapM (Rule.edge alphabet states.toList final)
  let finals := if g.rules.any (·.production.isTerminal) then [final] else []
  let empties := g.rules.filter (·.production = .empty)
  return Listing.toNfa
    { alphabet := alphabet
      start := g.start
      mentions := g.nonterminals ++ finals
      edges := edges.filterMap id
      accepting := empties.map (·.head) ++ finals }

/-! ## From automata to grammars -/

/-- The rules of a state: its moves by column and then by target, and the empty production if it
    accepts (the loop of `from_automaton`). -/
def rulesOf (n : Nfa) (state : Nat) : List Rule :=
  let moves := n.alphabet.symbols.zipIdx.flatMap fun (symbol, column) =>
    (n.targets state column).members.map fun target => Production.step symbol (n.name target)
  (moves ++ if n.isAccepting state then [Production.empty] else []).map fun p => ⟨n.name state, p⟩

/-- The grammar that generates the accepted words (`from_automaton`). An automaton is refused if one
    of its symbols is the epsilon marker, or if a symbol or a state has a name that could not be
    read back. -/
def ofAutomaton (config : Config) (a : Automaton) : Except SourceError Grammar :=
  let n := a.toNfa.epsilonFree
  (checkWritable Text.isGrammarName config n).map fun _ =>
    { terminals := n.alphabet.symbols
      nonterminals := n.names.toList
      start := n.name n.start
      rules := (List.range n.size).flatMap (rulesOf n)
      epsilon := config.epsilon }

end Grammar

end Acceptors
