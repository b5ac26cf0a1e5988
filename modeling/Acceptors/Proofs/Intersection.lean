import Acceptors.Proofs.Automaton

/-!
# Intersection

The intersection is what neither operand rejects. Both complements and the last one are taken over
the joint alphabet, so that a word with a symbol of one side alone is rejected by the other side,
and a word with a symbol of neither side by the last complement.

Results:
* `Automaton.WellFormed.accepts_joinedComplement`: the complement of an operand.
* `Automaton.inter_exact`: the intersection is complete, and accepts what both operands accept.
-/

namespace Acceptors

namespace Automaton

variable {a b : Automaton} {config : Config} {w : List String}

/-- The complement of an operand over the joint alphabet. -/
def joinedComplement (config : Config) (alphabet : Alphabet) (a : Automaton) : Dfa :=
  ((a.toDfa config).widen alphabet).complement config

theorem WellFormed.joinedComplement (ha : a.WellFormed) (config : Config) (alphabet : Alphabet) :
    (a.joinedComplement config alphabet).WellFormed :=
  ((ha.toDfa config).widen alphabet).complement config

theorem WellFormed.inter (ha : a.WellFormed) (hb : b.WellFormed) (config : Config) :
    (a.inter config b).WellFormed := by
  have hl : WellFormed (a.joinedComplement config (a.alphabet.union b.alphabet)) :=
    ha.joinedComplement config _
  have hr : WellFormed (b.joinedComplement config (a.alphabet.union b.alphabet)) :=
    hb.joinedComplement config _
  have heither : WellFormed (Automaton.union config
      (a.joinedComplement config (a.alphabet.union b.alphabet))
      (b.joinedComplement config (a.alphabet.union b.alphabet))) := hl.union hr config
  exact heither.complement config

theorem alphabet_joinedComplement {alphabet : Alphabet} :
    (a.joinedComplement config alphabet).alphabet = alphabet := Dfa.alphabet_complement

/-- On words over the joint alphabet, the complement of an operand accepts what the operand
    rejects. -/
theorem WellFormed.accepts_joinedComplement (ha : a.WellFormed) (config : Config)
    {alphabet : Alphabet} (hsub : ∀ x ∈ a.alphabet, x ∈ alphabet) (hw : ∀ x ∈ w, x ∈ alphabet) :
    (a.joinedComplement config alphabet).accepts w = !a.accepts w := by
  have hd := ha.toDfa config
  rw [Bool.eq_iff_iff, Automaton.joinedComplement, (hd.widen alphabet).accepts_complement_iff,
    hd.accepts_widen (by rwa [alphabet_toDfa]), ha.accepts_toDfa, Bool.not_eq_true']
  exact and_iff_right hw

/-- The intersection is complete, and accepts a word exactly when both operands do, whatever symbols
    the word has. -/
theorem inter_exact (ha : a.WellFormed) (hb : b.WellFormed) (config : Config) :
    (a.inter config b).isComplete = true ∧
      ∀ w, (a.inter config b).accepts w = (a.accepts w && b.accepts w) := by
  let joint := a.alphabet.union b.alphabet
  have hleft : ∀ x ∈ a.alphabet, x ∈ joint := fun x hx => Alphabet.mem_union.2 (.inl hx)
  have hright : ∀ x ∈ b.alphabet, x ∈ joint := fun x hx => Alphabet.mem_union.2 (.inr hx)
  let left : Automaton := a.joinedComplement config joint
  let right : Automaton := b.joinedComplement config joint
  have hl : left.WellFormed := ha.joinedComplement config joint
  have hr : right.WellFormed := hb.joinedComplement config joint
  let either : Automaton := left.union config right
  have heither : either.WellFormed := hl.union hr config
  have halphabet : ∀ x, x ∈ either.alphabet ↔ x ∈ joint := by
    intro x
    have hx : x ∈ either.alphabet ↔ x ∈ left.alphabet ∨ x ∈ right.alphabet := mem_alphabet_union
    rw [hx, show left.alphabet = joint from alphabet_joinedComplement,
      show right.alphabet = joint from alphabet_joinedComplement, or_self]
  refine ⟨heither.isComplete_complement config, fun w => ?_⟩
  have hw : either.accepts w = (left.accepts w || right.accepts w) := hl.accepts_union hr config
  rw [Bool.eq_iff_iff, Bool.and_eq_true]
  show (either.complement config).accepts w = true ↔ _
  rw [heither.accepts_complement_iff config, hw, Bool.or_eq_false_iff]
  simp only [halphabet]
  by_cases hmem : ∀ x ∈ w, x ∈ joint
  · have hlw : left.accepts w = !a.accepts w := ha.accepts_joinedComplement config hleft hmem
    have hrw : right.accepts w = !b.accepts w := hb.accepts_joinedComplement config hright hmem
    rw [hlw, hrw, and_iff_right hmem, Bool.not_eq_false', Bool.not_eq_false']
  · refine iff_of_false (fun h => hmem h.1) fun h => hmem fun x hx => ?_
    exact hleft x (ha.mem_alphabet_of_accepts h.1 x hx)

/-- Operands without a common symbol, and names that are all the same. -/
theorem inter_exact_disjoint :
    let a : Automaton := ((Nfa.new (.single "a") "q").addMove 0 0 0).setAccepting 0 true
    let b : Automaton := (Dfa.new (.single "b") "q").complement { sinkName := "q" }
    let config : Config := { sinkName := "q", dfaPrefix := "q", startName := "q", finalName := "q" }
    (a.inter config b).isComplete = true ∧
      ∀ w, (a.inter config b).accepts w = (a.accepts w && b.accepts w) := by
  refine inter_exact ?_ ?_ _
  · exact (Nfa.wellFormed_new.addMove 0 0 (by decide)).setAccepting (by decide) true
  · exact Dfa.wellFormed_new.complement _

end Automaton

end Acceptors
