import Acceptors.Config
import Acceptors.Grammar.Basic
import Acceptors.SourceError
import Acceptors.Text.Name

/-!
# Reading grammars

The first three lines of a grammar hold the terminals, the variables and the start variable; every
further line that is not blank is a rule. After the arrow of a rule stands a terminal with the next
variable in parentheses, a terminal, a variable in parentheses, or the epsilon marker.

A grammar is read line by line, and the first line at fault is reported.
-/

namespace Acceptors

namespace Grammar

open Text

/-! ## Declarations -/

/-- Checks declared names: each has to be a grammar name and to differ from those in `before` and
    from those declared earlier (the loop of `parse_names`). -/
def checkNames (kind : NameKind) (before : List String) :
    List String → Except GrammarFault Unit
  | [] => .ok ()
  | name :: rest =>
    if !isGrammarName name then .error (.badName kind name)
    else if name ∈ before then .error (.nameTwice kind name)
    else checkNames kind (name :: before) rest

/-- The names that a line declares (`parse_names`). -/
def readNames (kind : NameKind) (line : List Char) : Except GrammarFault (List String) :=
  let names := fields line
  (checkNames kind [] names).map fun _ => names

/-- The terminals that a line declares; the epsilon marker is none (the first line of `parse`). -/
def readTerminals (marker : String) (line : List Char) : Except GrammarFault (List String) := do
  let terminals ← readNames .terminal line
  if marker ∈ terminals then throw (.terminalIsMarker marker)
  return terminals

/-! ## Rules -/

/-- The production after an arrow, without blanks around it (the right side in `parse_rule`). -/
def readProduction (marker : String) (body : List Char) : Except GrammarFault Production :=
  let malformed := .error (.badProduction (String.ofList body))
  if String.ofList body = marker then .ok .empty
  else
    match body.span (· ≠ '(') with
    | (_, []) => if ')' ∈ body then malformed else .ok (.terminal (String.ofList body))
    | (before, _ :: after) =>
      if after.getLast? ≠ some ')' then malformed
      else
        let terminal := trim before
        let next := trim after.dropLast
        if next.isEmpty || next.contains '(' || next.contains ')' then malformed
        else if terminal.isEmpty then .ok (.unit (String.ofList next))
        else .ok (.step (String.ofList terminal) (String.ofList next))

/-- A rule from its line (`parse_rule`). -/
def readRule (marker : String) (line : List Char) : Except GrammarFault Rule :=
  match splitArrow line with
  | none => .error .noArrow
  | some (before, after) =>
    let head := trim before
    let body := trim after
    if head.isEmpty then .error .noVariable
    else if body.isEmpty then .error .noProduction
    else (readProduction marker body).map fun production => ⟨String.ofList head, production⟩

/-- Checks that a name is declared (`check_terminal` and `check_variable`). -/
def checkDeclared (kind : NameKind) (declared : List String) (name : String) :
    Except GrammarFault Unit :=
  if name ∈ declared then .ok () else .error (.undeclared kind name)

/-- Checks that a rule uses declared names only, from left to right (the checks in the rule loop of
    `parse`). -/
def checkRule (terminals nonterminals : List String) (rule : Rule) : Except GrammarFault Rule := do
  checkDeclared .nonterminal nonterminals rule.head
  match rule.production with
  | .step terminal next =>
    checkDeclared .terminal terminals terminal
    checkDeclared .nonterminal nonterminals next
  | .terminal terminal => checkDeclared .terminal terminals terminal
  | .unit next => checkDeclared .nonterminal nonterminals next
  | .empty => pure ()
  return rule

/-- The rules of the remaining lines (the rule loop of `parse`). -/
def readRules (marker : String) (terminals nonterminals : List String) :
    List (Nat × List Char) → Except SourceError (List Rule)
  | [] => .ok []
  | (number, line) :: rest =>
    if line.isEmpty then readRules marker terminals nonterminals rest
    else
      match readRule marker line >>= checkRule terminals nonterminals with
      | .error fault => .error (.grammar number fault)
      | .ok rule => do
        let rules ← readRules marker terminals nonterminals rest
        return rule :: rules

/-! ## Grammars -/

/-- Reads a grammar (`parse`). -/
def parse (config : Config) (text : String) : Except SourceError Grammar :=
  match numberedLines text with
  | [] => .error (.grammar 1 (.noNames .terminal))
  | (_, first) :: rest => do
    let terminals ← (readTerminals config.epsilon first).mapError (.grammar 1)
    match rest with
    | [] => throw (.grammar 2 (.noNames .nonterminal))
    | (_, second) :: rest =>
      let nonterminals ← (readNames .nonterminal second).mapError (.grammar 2)
      match rest with
      | [] => throw (.grammar 3 .noStart)
      | (_, third) :: rest =>
        let start := String.ofList third
        if start ∉ nonterminals then throw (.grammar 3 (.badStart start))
        let rules ← readRules config.epsilon terminals nonterminals rest
        return ⟨terminals, nonterminals, start, rules, config.epsilon⟩

end Grammar

end Acceptors
