import Acceptors.Automaton
import Acceptors.Proofs.Dfa.Completed
import Acceptors.Proofs.Dfa.Subsets
import Acceptors.Proofs.Nfa.Combined

/-!
# The words of automata of either kind

Whichever way an automaton is seen, as a nondeterministic or as a deterministic one, its words stay
the same. So the words of an operation are known from the words of its operands, without regard to
their kinds.

Results:
* `Automaton.WellFormed.accepts_toNfa`, `Automaton.WellFormed.accepts_toDfa`: the two views.
* `Automaton.WellFormed.accepts_complement_iff`, `Automaton.WellFormed.accepts_union`: complement
  and union.
-/

namespace Acceptors

namespace Automaton

variable {a b : Automaton} {config : Config} {w : List String} {x : String}

/-- The tables have the right shape, and every state that is mentioned exists. -/
def WellFormed : Automaton → Prop
  | nfa n => n.WellFormed
  | dfa d => d.WellFormed

/-! ## The two views -/

theorem WellFormed.toNfa (ha : a.WellFormed) : a.toNfa.WellFormed := by
  cases a with
  | nfa n => exact ha
  | dfa d => exact Dfa.WellFormed.toNfa ha

theorem WellFormed.toDfa (ha : a.WellFormed) (config : Config) : (a.toDfa config).WellFormed := by
  cases a with
  | nfa n => exact Nfa.WellFormed.toDfa ha config
  | dfa d => exact ha

theorem alphabet_toNfa : a.toNfa.alphabet = a.alphabet := by
  cases a <;> rfl

theorem names_toNfa : a.toNfa.names = a.names := by
  cases a <;> rfl

theorem alphabet_toDfa : (a.toDfa config).alphabet = a.alphabet := by
  cases a with
  | nfa n => exact Nfa.alphabet_toDfa
  | dfa d => rfl

/-- Seen as a nondeterministic automaton, an automaton accepts the same words. -/
theorem WellFormed.accepts_toNfa (ha : a.WellFormed) : a.toNfa.accepts w = a.accepts w := by
  cases a with
  | nfa n => rfl
  | dfa d =>
    have hd : d.WellFormed := ha
    rw [Bool.eq_iff_iff]
    show d.toNfa.accepts w = true ↔ d.accepts w = true
    rw [hd.toNfa.accepts_iff, hd.language_toNfa, Dfa.mem_language]

theorem WellFormed.mem_language_toNfa (ha : a.WellFormed) :
    w ∈ a.toNfa.language ↔ a.accepts w = true := by
  rw [← ha.toNfa.accepts_iff, ha.accepts_toNfa]

/-- Made deterministic, an automaton accepts the same words. -/
theorem WellFormed.accepts_toDfa (ha : a.WellFormed) (config : Config) :
    (a.toDfa config).accepts w = a.accepts w := by
  cases a with
  | nfa n =>
    have hn : n.WellFormed := ha
    rw [Bool.eq_iff_iff]
    show (n.toDfa config).accepts w = true ↔ n.accepts w = true
    rw [hn.accepts_iff, ← hn.language_toDfa config, Dfa.mem_language]
  | dfa d => rfl

/-- A word that is accepted has no symbol from outside the alphabet. -/
theorem WellFormed.mem_alphabet_of_accepts (ha : a.WellFormed) (h : a.accepts w = true) :
    ∀ x ∈ w, x ∈ a.alphabet := by
  rw [← ha.accepts_toDfa {}] at h
  have hmem := Dfa.mem_alphabet_of_acceptsFrom h
  rwa [alphabet_toDfa] at hmem

/-! ## Complement and union -/

theorem WellFormed.complement (ha : a.WellFormed) (config : Config) :
    (a.complement config).WellFormed := (ha.toDfa config).complement config

theorem WellFormed.isComplete_complement (ha : a.WellFormed) (config : Config) :
    (a.complement config).isComplete = true := (ha.toDfa config).isComplete_complement config

/-- A complement accepts the words over the alphabet that the automaton rejects. -/
theorem WellFormed.accepts_complement_iff (ha : a.WellFormed) (config : Config) :
    (a.complement config).accepts w = true ↔
      (∀ x ∈ w, x ∈ a.alphabet) ∧ a.accepts w = false := by
  rw [Automaton.complement, (ha.toDfa config).accepts_complement_iff config, alphabet_toDfa,
    ha.accepts_toDfa]

theorem WellFormed.union (ha : a.WellFormed) (hb : b.WellFormed) (config : Config) :
    (a.union config b).WellFormed := ha.toNfa.union hb.toNfa

/-- A union accepts what either operand accepts. -/
theorem WellFormed.accepts_union (ha : a.WellFormed) (hb : b.WellFormed) (config : Config) :
    (a.union config b).accepts w = (a.accepts w || b.accepts w) := by
  rw [Bool.eq_iff_iff, Bool.or_eq_true, (ha.union hb config).accepts_iff, Automaton.union,
    ha.toNfa.language_union hb.toNfa, Language.mem_add, ha.mem_language_toNfa,
    hb.mem_language_toNfa]

theorem WellFormed.concat (ha : a.WellFormed) (hb : b.WellFormed) : (a.concat b).WellFormed :=
  ha.toNfa.concat hb.toNfa

theorem WellFormed.star (ha : a.WellFormed) (config : Config) : (a.star config).WellFormed :=
  ha.toNfa.star

theorem mem_alphabet_union :
    x ∈ (a.union config b).alphabet ↔ x ∈ a.alphabet ∨ x ∈ b.alphabet := by
  rw [← alphabet_toNfa (a := a), ← alphabet_toNfa (a := b)]
  exact Alphabet.mem_union

end Automaton

end Acceptors
