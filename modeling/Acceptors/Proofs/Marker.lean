import Acceptors.Proofs.Grammar.Misread
import Acceptors.Proofs.Table.Misread

/-!
# What the epsilon marker may be

Symbols and states are written only if their names can be read back, but the epsilon marker is
written whatever it is. Most markers that cannot be read back lead to texts that are refused. The
others change what is written: the text is read, as an automaton with other words.

Results:
* `keepsWords_iff`: the markers under which a text that is read has the words that were written.
* `exists_marker_accepts_ne`: a marker with a blank in front of it.
-/

namespace Acceptors

variable {config : Config}

/-- Automata that are written and read back accept the same words as before, unless the epsilon
    marker is read as a symbol; and so do the automata of grammars that are written and read back,
    unless the marker looks like a step or is taken for rules. -/
theorem keepsWords_iff :
    ((∀ a : Automaton, a.WellFormed → ∀ text b, Table.render config a = .ok text →
        Table.load config text = .ok b → ∀ w, b.accepts w = a.accepts w) ↔
      ¬ Table.MarkerMisread config.epsilon) ∧
    ((∀ a : Automaton, a.WellFormed → ∀ g h, Grammar.ofAutomaton config a = .ok g →
        Grammar.parse config g.write = .ok h →
          ∃ n, h.toNfa config = .ok n ∧ ∀ w, n.accepts w = a.accepts w) ↔
      ¬ Grammar.LooksLikeStep config.epsilon ∧ ¬ Grammar.TakenForRules config.epsilon) := by
  refine ⟨⟨fun hkeep hmisread => ?_, fun hmisread a ha text b htext hb w => ?_⟩,
    ⟨fun hkeep => ?_, fun ⟨hsteps, hrules⟩ a ha g h hg hh => ?_⟩⟩
  · obtain ⟨text, b, w, htext, hb, hne⟩ := hmisread.exists_accepts_ne
    have ha : (Automaton.nfa Table.epsilonLoop.toNfa).WellFormed := Listing.wellFormed_toNfa _
    exact hne (hkeep _ ha text b htext hb w)
  · exact Table.accepts_eq_of_load_render hmisread ha htext hb w
  · -- A word that is lost on the way is not generated by the grammar that is read.
    have hnone : ¬ ∃ (a : Automaton) (g h : Grammar) (w : List String), a.WellFormed ∧
        Grammar.ofAutomaton config a = .ok g ∧ Grammar.parse config g.write = .ok h ∧
        ¬ h.Generates w ∧ a.accepts w = true := by
      rintro ⟨a, g, h, w, ha, hg, hh, hlost, haccepts⟩
      obtain ⟨n, hconverted, hsame⟩ := hkeep a ha g h hg hh
      obtain ⟨n', hconverted', hn', hwords⟩ :=
        (Grammar.wellFormed_of_parse hh).exists_toNfa_eq config
      obtain rfl : n = n' := Except.ok.inj (hconverted.symm.trans hconverted')
      rw [← hsame, hn'.accepts_iff, hwords] at haccepts
      exact hlost haccepts
    exact ⟨fun h => hnone h.exists_generates_ne, fun h => hnone h.exists_generates_ne⟩
  · rw [Grammar.eq_of_parse_write hsteps hrules ha hg hh]
    exact Grammar.exists_toNfa_accepts_eq ha hg config

/-- Under a marker with a blank in front of it, an epsilon move is read as a move on the symbol
    that the rest of the marker is, and so is the empty production of a grammar. -/
theorem exists_marker_accepts_ne :
    let config : Config := { epsilon := " e" }
    let a : Automaton := .nfa (((Nfa.new .empty "q").addEpsilon 0 0).setAccepting 0 true)
    let a' : Automaton := .nfa ((Nfa.new (.single "e") "q").setAccepting 0 true)
    (∃ text b, Table.render config a = .ok text ∧ Table.load config text = .ok b ∧
      a.accepts ["e"] = false ∧ b.accepts ["e"] = true) ∧
    ∃ g h n, Grammar.ofAutomaton config a' = .ok g ∧ Grammar.parse config g.write = .ok h ∧
      h.toNfa config = .ok n ∧ a'.accepts [] = true ∧ n.accepts [] = false := by
  refine ⟨⟨" e\nq\n[q],\x7bq\x7d\n", (Table.symbolLoop "e").toNfa, ?_, ?_, ?_, ?_⟩, ?_⟩
  · decide +kernel
  · decide +kernel
  · decide +kernel
  · decide +kernel
  · let g : Grammar := ⟨["e"], ["q"], "q", [⟨"q", .empty⟩], " e"⟩
    let l : Listing := ⟨.single "e", "q", ["q", "F"], [⟨"q", some 0, "F"⟩], ["F"]⟩
    refine ⟨g, { g with rules := [⟨"q", .terminal "e"⟩] }, l.toNfa, ?_, ?_, ?_, ?_, ?_⟩
    · decide +kernel
    · decide +kernel
    · decide +kernel
    · decide +kernel
    · decide +kernel

end Acceptors
