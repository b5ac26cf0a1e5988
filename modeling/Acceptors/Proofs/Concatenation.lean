import Acceptors.Proofs.Automaton

/-!
# Concatenation and star

A path through a concatenation crosses from the left operand to the right one once, from an
accepting state to the start state, and a path through a star leads back to the start state of the
operand as often as it likes, each time from an accepting state. The words in between are words that
the operands accept. So words are put together from accepted words and from nothing else, whatever
the alphabets and the names of the operands have in common.

Results:
* `Automaton.concat_exact`: a concatenation accepts a word of the left operand followed by one of
  the right.
* `Automaton.star_exact`: a star accepts any number of words of the operand one after the other.
-/

namespace Acceptors

namespace Automaton

variable {a b : Automaton}

/-! ## Concatenation -/

/-- A concatenation accepts the words that have a front which the left operand accepts and a rest
    which the right operand accepts. -/
theorem concat_exact (ha : a.WellFormed) (hb : b.WellFormed) (w : List String) :
    (a.concat b).accepts w = true ↔
      ∃ u v, w = u ++ v ∧ a.accepts u = true ∧ b.accepts v = true := by
  rw [(ha.concat hb).accepts_iff, Automaton.concat, ha.toNfa.language_concat hb.toNfa,
    Language.mem_mul]
  simp only [ha.mem_language_toNfa, hb.mem_language_toNfa]
  constructor
  · rintro ⟨u, hu, v, hv, rfl⟩
    exact ⟨u, v, rfl, hu, hv⟩
  · rintro ⟨u, v, rfl, hu, hv⟩
    exact ⟨u, hu, v, hv, rfl⟩

/-- Operands of both kinds with the same names and the same symbols in another order. -/
theorem concat_exact_columns :
    let n := (Nfa.new ⟨["a", "b"], by decide⟩ "p").addState "q"
    let a : Automaton := (n.addMove 0 0 1).setAccepting 1 true
    let d := (Dfa.new ⟨["b", "a"], by decide⟩ "p").addState "q"
    let b : Automaton := ((d.setMove 0 0 (some 1)).setMove 1 0 (some 1)).setAccepting 1 true
    (a.concat b).accepts ["a", "b", "b"] = true ∧
      ∀ w, (a.concat b).accepts w = true ↔
        ∃ u v, w = u ++ v ∧ a.accepts u = true ∧ b.accepts v = true := by
  intro n a d b
  have ha : a.WellFormed :=
    ((Nfa.wellFormed_new.addState _).addMove 0 0 (by decide)).setAccepting (by decide) true
  have hd : ((d.setMove 0 0 (some 1)).setMove 1 0 (some 1)).WellFormed :=
    ((Dfa.wellFormed_new.addState _).setMove 0 0 (by decide)).setMove 1 0 (by decide)
  have hb : b.WellFormed := hd.setAccepting (by decide) true
  have hword := (concat_exact ha hb ["a", "b", "b"]).2
    ⟨["a"], ["b", "b"], rfl, by decide, by decide⟩
  exact ⟨hword, concat_exact ha hb⟩

/-! ## Star -/

/-- A star accepts the words that are made of words that the operand accepts, of none in the case of
    the empty word. -/
theorem star_exact (ha : a.WellFormed) (config : Config) (w : List String) :
    (a.star config).accepts w = true ↔
      ∃ words : List (List String), w = words.flatten ∧ ∀ u ∈ words, a.accepts u = true := by
  rw [(ha.star config).accepts_iff, Automaton.star, ha.toNfa.language_star, Language.mem_kstar]
  simp only [ha.mem_language_toNfa]

/-- A start state that accepts and has a move to itself, an epsilon cycle, and states with the names
    that a star gives. -/
theorem star_exact_cycle :
    let states := ((Nfa.new ⟨["a", "b"], by decide⟩ "S").addState "F").addEpsilon 0 1
    let moves := ((states.addEpsilon 1 0).addMove 0 0 0).addMove 1 1 0
    let a : Automaton := moves.setAccepting 0 true
    (a.star {}).accepts ["a", "b", "a"] = true ∧
      ∀ w, (a.star {}).accepts w = true ↔
        ∃ words : List (List String), w = words.flatten ∧ ∀ u ∈ words, a.accepts u = true := by
  intro states moves a
  have hstates : states.WellFormed := (Nfa.wellFormed_new.addState _).addEpsilon 0 (by decide)
  have hmoves : moves.WellFormed :=
    ((hstates.addEpsilon 1 (by decide)).addMove 0 0 (by decide)).addMove 1 1 (by decide)
  have ha : a.WellFormed := hmoves.setAccepting (by decide) true
  have hword := (star_exact ha {} ["a", "b", "a"]).2 ⟨[["a", "b"], ["a"]], rfl, by decide⟩
  exact ⟨hword, star_exact ha {}⟩

end Automaton

end Acceptors
