import Acceptors.Nfa.Combine
import Acceptors.Pattern.Postorder

/-!
# From patterns to automata

A pattern in postorder is evaluated on a stack of automata: a symbol puts the automaton of two
states that accepts just this symbol, and an operator combines the topmost automata. The states of
symbols are numbered through, and a compiler goes on with its numbers from pattern to pattern, also
after a pattern that it refused.
-/

namespace Acceptors

/-- What a compiler keeps from one pattern to the next. -/
structure Compiler where
  /-- How states are named. -/
  config : Config := {}
  /-- The number of the next state of a symbol. -/
  next : Nat := 0
  deriving DecidableEq

namespace Compiler

/-- The automaton that accepts the word of one symbol (`compile_symbol`). Its two states are
    numbered `next` and `next + 1`. -/
def atom (config : Config) (next : Nat) (c : Char) : Nfa :=
  let stem := config.statePrefix
  let first := Nfa.new (.single (String.singleton c)) (stem ++ toString next)
  ((first.addState (stem ++ toString (next + 1))).addMove 0 0 1).setAccepting 1 true

/-- Combines the automata of the two operands (the binary cases of `evaluate`). -/
def combine (config : Config) : Pattern.Operator → Nfa → Nfa → Nfa
  | .union, left, right => left.union config right
  | .concat, left, right => left.concat right

/-- Evaluates the remaining elements on a stack of automata, last first; `next` is the number of the
    next state (`evaluate`). Answers the automaton and the number after the last one used, which is
    used also if there is no automaton. -/
def evaluate (config : Config) :
    List (Pattern.Placed Pattern.Instr) → (stack : List Nfa) → (next : Nat) →
      Except Error Nfa × Nat
  | [], [], next => (.error .emptyPattern, next)
  | [], [n], next => (.ok n, next)
  | [], stack, next => (.error (.leftover stack.length), next)
  | ⟨.symbol c, _⟩ :: rest, stack, next =>
    evaluate config rest (atom config next c :: stack) (next + 2)
  | ⟨.star, _⟩ :: rest, n :: stack, next => evaluate config rest (n.star config :: stack) next
  | ⟨.operator op, _⟩ :: rest, right :: left :: stack, next =>
    evaluate config rest (combine config op left right :: stack) next
  | ⟨_, offset⟩ :: _, _, next => (.error (.missingOperand offset), next)

/-- Compiles a pattern to an automaton, and answers the compiler for the next one (`compile`). -/
def compile (k : Compiler) (pattern : String) : Except Error Nfa × Compiler :=
  match Pattern.instructions pattern with
  | .error e => (.error e, k)
  | .ok instrs =>
    let (result, next) := evaluate k.config instrs [] k.next
    (result, { k with next := next })

end Compiler

end Acceptors
