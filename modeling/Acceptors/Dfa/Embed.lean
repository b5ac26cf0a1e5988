import Acceptors.Dfa.Basic
import Acceptors.Nfa.Basic

/-!
# Deterministic automata among the nondeterministic ones

Every deterministic automaton is a nondeterministic one whose sets of targets have at most one
member. The way back exists for just these.
-/

namespace Acceptors

/-- A deterministic automaton seen as a nondeterministic one: each move becomes a set of one target
    (`from`). -/
def Dfa.toNfa (d : Dfa) : Nfa :=
  .ofFn d.alphabet d.names (fun s c => (d.move s c).elim ∅ .single) (fun _ => ∅) d.start d.accepting

namespace Nfa

/-- The first state that keeps the automaton from being deterministic: the first with an epsilon
    move or, if there is none, the first with several targets on one symbol (the checks of
    `try_from`). -/
def obstacle? (n : Nfa) : Option Nat :=
  let states := List.range n.size
  (states.find? fun s => !(n.epsilonTargets s).isEmpty).or <|
    states.find? fun s =>
      (List.range n.alphabet.size).any fun c => 2 ≤ (n.targets s c).members.length

/-- The automaton with its set of targets replaced by its only member (`try_from`). No subset is
    constructed: an automaton that is not deterministic is refused. -/
def toDfa? (n : Nfa) : Except Error Dfa :=
  match n.obstacle? with
  | some s => .error (.notDeterministic (n.name s))
  | none =>
    .ok (.ofFn n.alphabet n.names (fun s c => (n.targets s c).members.head?) n.start n.accepting)

end Nfa

end Acceptors
