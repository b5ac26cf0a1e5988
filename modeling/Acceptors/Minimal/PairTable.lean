import Acceptors.Dfa.Basic
import Acceptors.Search

/-!
# Telling states apart

Two states can be told apart if exactly one of them accepts, or if some symbol leads them to two
states that can be told apart. The table visits each pair of states once. A visited pair that cannot
be told apart yet is noted as dependent on its successor pairs, and as soon as one of these is
marked, it is marked too, with all that depends on it in turn.
-/

namespace Acceptors

/-- For each pair of states, whether they can be told apart. -/
structure PairTable where
  /-- The number of states. -/
  size : Nat
  /-- The marks; the pair of `a` and `b` with `a < b` has the number `a * size + b`. -/
  marked : Array Bool

namespace PairTable

/-- The number of the pair of two states (`index`). -/
def pairOf (size a b : Nat) : Nat := min a b * size + max a b

/-- The pairs of distinct states below `size`, the smaller state first, in lexicographic order. -/
def pairs (size : Nat) : List (Nat × Nat) :=
  (List.range size).flatMap fun a => (List.range' (a + 1) (size - (a + 1))).map (a, ·)

/-- A table while it is filled: the marks, and for each pair the visited pairs that depend on it
    (the variables of `fill`). -/
structure Filling where
  /-- The pairs found to be different so far. -/
  marked : Array Bool
  /-- The pairs to be marked together with a pair. -/
  dependents : Array (List Nat)

/-- Marks the pairs of which one state accepts (the first loop of `fill`). -/
def Filling.initial (d : Dfa) : Filling where
  marked := Array.ofFn fun p : Fin (d.size * d.size) =>
    let a := p.val / d.size
    let b := p.val % d.size
    decide (a < b) && d.isAccepting a != d.isAccepting b
  dependents := Array.replicate (d.size * d.size) []

/-- The pairs of different states to which the symbols lead two states, given the moves of both by
    column. -/
def successorPairs (size : Nat) : (left right : List (Option Nat)) → List Nat
  | some p :: left, some q :: right =>
    if p = q then successorPairs size left right
    else pairOf size p q :: successorPairs size left right
  | _ :: left, _ :: right => successorPairs size left right
  | _, _ => []

/-- The moves of each state by column. -/
def moveLists (d : Dfa) : Array (List (Option Nat)) :=
  Array.ofFn fun s : Fin d.size => (List.range d.alphabet.size).map (d.move s.val)

/-- Visits a pair: marks it with its dependents if a successor pair is marked, and otherwise notes
    it with its successor pairs (the second loop of `fill`). -/
def Filling.visit (size : Nat) (moves : Array (List (Option Nat))) :
    Filling → Nat × Nat → Filling
  | ⟨marked, dependents⟩, (a, b) =>
    let pair := pairOf size a b
    if Search.isMarked marked pair then ⟨marked, dependents⟩
    else
      let next := successorPairs size (moves[a]?.getD []) (moves[b]?.getD [])
      if next.any (Search.isMarked marked) then
        ⟨Search.mark (fun p => dependents[p]?.getD []) (size * size) marked [pair], dependents⟩
      else ⟨marked, next.foldl (fun noted p => noted.modify p (pair :: ·)) dependents⟩

/-- The table of an automaton (`fill`). -/
def fill (d : Dfa) : PairTable :=
  ⟨d.size, ((pairs d.size).foldl (Filling.visit d.size (moveLists d)) (.initial d)).marked⟩

/-- Whether two states cannot be told apart (`equivalent`). -/
def equivalent (t : PairTable) (a b : Nat) : Bool :=
  a == b || !Search.isMarked t.marked (pairOf t.size a b)

end PairTable

end Acceptors
