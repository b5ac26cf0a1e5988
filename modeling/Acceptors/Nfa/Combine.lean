import Acceptors.Config
import Acceptors.Nfa.Basic

/-!
# Union, concatenation and star

Two automata are joined by putting their states side by side over the union of their alphabets: the
left one keeps its numbers, and those of the right one move up by the number of states on the left.
A name that the left one already uses is changed. Union, concatenation and star then only add
epsilon moves, and the first and the last of them a start state and an accepting state.

Results:
* `Nfa.targets_join`: the moves of two automata side by side.
-/

namespace Acceptors

namespace Nfa

/-- The same automaton over another alphabet: symbols are matched by their text, and a symbol that
    the automaton does not know has no move (`with_alphabet`). -/
def widen (n : Nfa) (alphabet : Alphabet) : Nfa :=
  let columns := alphabet.columnsIn n.alphabet
  { n with
    alphabet := alphabet
    moves := Grid.ofFn n.size alphabet.size fun s c => (columns[c]?.join).elim ∅ (n.targets s) }

/-- Two automata side by side over the union of their alphabets, with the start and the accepting
    states of the left one (`join`). The union begins with the symbols of the left one, whose rows
    therefore only get longer. -/
def join (l r : Nfa) : Nfa :=
  let alphabet := l.alphabet.union r.alphabet
  { l with
    alphabet := alphabet
    names := l.names.insertAll r.names.toList
    moves := (l.moves.padTo alphabet.size ∅).append ((r.widen alphabet).moves.map (·.shift l.size))
    epsilon := l.epsilon ++ r.epsilon.toList.map (·.shift l.size) }

/-- Accepts the words of either automaton (`union`). A new start state leads to both start states,
    and all accepting states lead to a new one, the only one that accepts. -/
def union (config : Config) (l r : Nfa) : Nfa :=
  let both := l.join r
  let start := both.size
  let final := start + 1
  let ends := l.accepting.union (r.accepting.shift l.size)
  let linked := ((both.addState config.startName).addState config.finalName).addEpsilons fun s =>
    if s = start then .ofList [l.start, r.start + l.size]
    else if s ∈ ends then .single final else ∅
  { linked with start := start, accepting := .single final }

/-- Accepts a word of the left automaton followed by one of the right: the accepting states of the
    left lead to the start state of the right (`concatenate`). -/
def concat (l r : Nfa) : Nfa :=
  let linked := (l.join r).addEpsilons fun s =>
    if s ∈ l.accepting then .single (r.start + l.size) else ∅
  { linked with accepting := r.accepting.shift l.size }

/-- Accepts any number of words of the automaton one after the other (`star`). A new start state
    leads to the old one and to a new accepting state; an old accepting state leads to both of
    these. -/
def star (config : Config) (n : Nfa) : Nfa :=
  let start := n.size
  let final := start + 1
  let linked := ((n.addState config.startName).addState config.finalName).addEpsilons fun s =>
    if s = start ∨ s ∈ n.accepting then .ofList [n.start, final] else ∅
  { linked with start := start, accepting := .single final }

/-! ## Moves of joined automata -/

theorem targets_widen {n : Nfa} {alphabet : Alphabet} {s c : Nat} :
    (n.widen alphabet).targets s c =
      if s < n.size ∧ c < alphabet.size then
        ((alphabet.columnsIn n.alphabet)[c]?.join).elim ∅ (n.targets s)
      else ∅ := by
  simp only [targets, widen, Grid.get?_ofFn]
  split <;> rfl

/-- A state of a joined automaton has the moves that it had on its side. -/
theorem targets_join {l r : Nfa} (hl : l.WellFormed) {s c : Nat} :
    (l.join r).targets s c =
      if s < l.size then l.targets s c
      else ((r.widen (l.alphabet.union r.alphabet)).targets (s - l.size) c).shift l.size := by
  have hle : l.alphabet.size ≤ (l.alphabet.union r.alphabet).size := by
    simp [Alphabet.size, Alphabet.union]
  have hrows : (l.moves.padTo (l.alphabet.union r.alphabet).size ∅).rows.size = l.size :=
    (hl.shape.padTo hle ∅).1
  simp only [targets, join, Grid.get?_append, hrows, Grid.get?_map]
  split
  · next hs =>
    rw [Grid.get?_padTo hl.shape hle]
    split
    · rfl
    · next hc =>
      have hnone : l.moves.get? s c = none := by
        rw [← Option.not_isSome_iff_eq_none, hl.shape.get?_isSome]
        exact fun h => hc h.2
      rw [hnone]
      split <;> rfl
  · cases (r.widen (l.alphabet.union r.alphabet)).moves.get? (s - l.size) c with
    | none => rfl
    | some X => rfl

end Nfa

end Acceptors
