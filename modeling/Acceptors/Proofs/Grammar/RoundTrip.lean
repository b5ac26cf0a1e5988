import Acceptors.Proofs.Grammar.Generated

/-!
# Automata that are made from their grammars again

The grammar of an automaton has a variable for each state and a rule for each move once the epsilon
moves are eliminated. None of its rules ends in a terminal, so that its automaton needs no
additional state, and none is a variable alone, so that its automaton has no epsilon moves. The
states of this automaton are numbered anew, the start state first, but under the names that they
had: the listing from which it is made describes the automaton without epsilon moves.

Results:
* `Grammar.describes_listing_ofNfa`: the rules of a grammar describe its automaton.
* `Grammar.toNfa_ofAutomaton`: which automata have a grammar, and what becomes of them.
-/

namespace Acceptors

namespace Grammar

open Text

variable {config : Config} {g : Grammar} {rule : Rule} {alphabet : Alphabet} {n : Nfa}
variable {a : Automaton} {final A marker x : String}

/-- Every rule in the grammar of an automaton is a terminal with a variable or empty. -/
theorem production_of_mem_rules_ofNfa (h : rule ∈ (ofNfa marker n).rules) :
    rule.production = .empty ∨ ∃ x next, rule.production = .step x next := by
  obtain ⟨s, -, hrule⟩ := mem_rules_ofNfa.1 h
  obtain ⟨-, ⟨x, t, -, hproduction⟩ | ⟨-, hproduction⟩⟩ := mem_rulesOf.1 hrule
  · exact .inr ⟨x, n.name t, hproduction⟩
  · exact .inl hproduction

theorem terminal_not_mem_rules_ofNfa : ⟨A, .terminal x⟩ ∉ (ofNfa marker n).rules := by
  intro h
  rcases production_of_mem_rules_ofNfa h with h | ⟨_, _, h⟩ <;> cases h

theorem unit_not_mem_rules_ofNfa {B : String} : ⟨A, .unit B⟩ ∉ (ofNfa marker n).rules := by
  intro h
  rcases production_of_mem_rules_ofNfa h with h | ⟨_, _, h⟩ <;> cases h

/-- The listing of the grammar of an automaton without epsilon moves describes the automaton. -/
theorem describes_listing_ofNfa (hn : n.WellFormed) (hfree : ∀ s t, t ∉ n.epsilonTargets s)
    (hg : (ofNfa marker n).WellFormed) (hsymbols : alphabet.symbols = n.alphabet.symbols) :
    ((ofNfa marker n).listing alphabet final).Describes n where
  alphabet_eq := by
    cases alphabet
    cases hsymbols
    rfl
  start_eq := rfl
  mem_iff x := by
    have hnames : x ∈ ((ofNfa marker n).listing alphabet final).names.toList ↔ _ :=
      mem_names_listing_iff
    rw [← StateNames.mem_ofMentions]
    refine hnames.trans ⟨?_, fun hx => .inr (.inl hx)⟩
    rintro (rfl | hx | ⟨-, B, y, hrule⟩)
    · exact hg.start_mem
    · exact hx
    · exact absurd hrule terminal_not_mem_rules_ofNfa
  accepting_iff s hs := by
    rw [mem_accepting_listing_iff, mem_rules_ofNfa_name_iff hs]
    constructor
    · rintro ((⟨y, t, -, h⟩ | ⟨h, -⟩) | ⟨-, B, y, hrule⟩)
      · cases h
      · exact h
      · exact absurd hrule terminal_not_mem_rules_ofNfa
    · exact fun h => .inl (.inr ⟨h, rfl⟩)
  edge_iff s hs t ht c := by
    have hidx : ∀ x, alphabet.idxOf? x = n.alphabet.idxOf? x := fun x =>
      congrArg (List.idxOf? x) hsymbols
    rw [mem_edges_some_iff]
    simp only [hidx, mem_rules_ofNfa_name_iff hs]
    constructor
    · rintro ⟨y, hy, (⟨z, u, ⟨d, hd, hu⟩, h⟩ | ⟨-, h⟩) | ⟨⟨z, u, -, h⟩ | ⟨-, h⟩, -⟩⟩
      · obtain ⟨rfl, hname⟩ := Production.step.inj h
        obtain rfl := (StateNames.name_inj ht (hn.targets_lt s d u hu)).1 hname
        obtain rfl : c = d := Option.some.inj (hy.symm.trans hd)
        exact hu
      · cases h
      · cases h
      · cases h
    · intro h
      obtain ⟨y, hy⟩ := Alphabet.exists_idxOf?_eq_some (hn.lt_of_mem_targets h).2
      exact ⟨y, hy, .inl (.inl ⟨y, t, ⟨c, hy, h⟩, rfl⟩)⟩
  epsilon_iff s hs t ht := by
    rw [hg.mem_edges_none_iff hsymbols]
    exact iff_of_false unit_not_mem_rules_ofNfa (hfree s t)

/-- The automaton of the grammar of an automaton is the automaton without epsilon moves, up to the
    order of its states. -/
theorem exists_matchedByName_of_ofAutomaton (ha : a.WellFormed)
    (h : ofAutomaton config a = .ok g) (config' : Config) :
    ∃ b f, g.toNfa config' = .ok b ∧ b.WellFormed ∧
      Nfa.MatchedByName b a.toNfa.epsilonFree f := by
  have hg := wellFormed_of_ofAutomaton ha h
  obtain ⟨alphabet, final, hsymbols, -, -, hconverted⟩ := hg.toNfa_eq config'
  obtain ⟨-, rfl⟩ := ofAutomaton_eq_ok_iff.1 h
  have hn := ha.toNfa.epsilonFree
  obtain ⟨f, hf⟩ := (describes_listing_ofNfa hn
    (fun _ _ => Nfa.not_mem_epsilonTargets_epsilonFree) hg hsymbols).exists_matchedByName hn
  exact ⟨_, f, hconverted, Listing.wellFormed_toNfa _, hf⟩

/-- An automaton has a grammar exactly if its symbols and its states have names without arrows and
    no symbol is the epsilon marker. The rules are terminals with a variable and empty productions,
    and the variables are the states in order. The automaton of the grammar has the same symbols and
    states under the same names as the automaton without epsilon moves, and the same moves between
    them, and no epsilon moves; it accepts the same words. -/
theorem toNfa_ofAutomaton (ha : a.WellFormed) (config : Config) :
    ((∃ g, ofAutomaton config a = .ok g) ↔
      (∀ x ∈ a.alphabet.symbols,
        (isName x = true ∧ ¬ ['-', '>'] <:+: x.toList) ∧ x ≠ config.epsilon) ∧
      ∀ x ∈ a.names.toList, isName x = true ∧ ¬ ['-', '>'] <:+: x.toList) ∧
    ∀ g, ofAutomaton config a = .ok g →
      (∀ rule ∈ g.rules,
        rule.production = .empty ∨ ∃ x next, rule.production = .step x next) ∧
      g.nonterminals = a.names.toList ∧
      ∀ config', ∃ b f, g.toNfa config' = .ok b ∧ b.alphabet = a.alphabet ∧
        b.size = a.names.size ∧ Nfa.MatchedByName b a.toNfa.epsilonFree f ∧
        b.hasEpsilonMoves = false ∧ ∀ w, b.accepts w = a.accepts w := by
  have hnames : a.toNfa.epsilonFree.names = a.names :=
    Nfa.names_epsilonFree.trans Automaton.names_toNfa
  have halphabet : a.toNfa.epsilonFree.alphabet = a.alphabet :=
    Nfa.alphabet_epsilonFree.trans Automaton.alphabet_toNfa
  refine ⟨?_, fun g h => ?_⟩
  · simp only [← isGrammarName_iff, ofAutomaton_eq_ok_iff, hnames, halphabet]
    exact ⟨fun ⟨_, h, _⟩ => h, fun h => ⟨_, h, rfl⟩⟩
  have hrules := (ofAutomaton_eq_ok_iff.1 h).2
  refine ⟨fun rule hrule => ?_, ?_, fun config' => ?_⟩
  · rw [← hrules] at hrule
    exact production_of_mem_rules_ofNfa hrule
  · rw [← hrules, ← hnames]
    rfl
  · obtain ⟨b, f, hconverted, hb, hf⟩ := exists_matchedByName_of_ofAutomaton ha h config'
    have hn := ha.toNfa.epsilonFree
    have hsize : b.size = a.names.size := by
      rw [← hnames]
      exact Fin.equiv_iff_eq.1 ⟨f⟩
    refine ⟨b, f, hconverted, hf.alphabet_eq.trans halphabet, hsize, hf, ?_, fun w => ?_⟩
    · -- an epsilon move would be matched by one of the automaton without them
      rw [Nfa.hasEpsilonMoves_eq_false_iff]
      intro s t ht
      have hs := hb.lt_of_mem_epsilonTargets ht
      exact Nfa.not_mem_epsilonTargets_epsilonFree
        ((hf.epsilonTargets_iff ⟨s, hs⟩ ⟨t, hb.epsilonTargets_lt s t ht⟩).1 ht)
    · rw [hf.accepts_eq hb hn, ← ha.accepts_toNfa, Bool.eq_iff_iff, hn.accepts_iff,
        ha.toNfa.accepts_iff, ha.toNfa.language_epsilonFree]

/-- A star, whose start state is not the first and which has epsilon moves. -/
theorem toNfa_ofAutomaton_star :
    let states := (Nfa.new (.single "a") "p").addState "q"
    let n := ((states.addMove 0 0 1).setAccepting 1 true).star {}
    ∃ g b f, ofAutomaton {} (.nfa n) = .ok g ∧ g.toNfa {} = .ok b ∧ b.size = n.size ∧
      Nfa.MatchedByName b n.epsilonFree f ∧ ∀ w, b.accepts w = n.accepts w := by
  intro states n
  have hn : (Automaton.nfa n).WellFormed :=
    (((Nfa.wellFormed_new.addState _).addMove 0 0 (by decide)).setAccepting (by decide) true).star
  obtain ⟨hwritten, hread⟩ := toNfa_ofAutomaton hn {}
  obtain ⟨g, hg⟩ := hwritten.2 ⟨by decide, by decide⟩
  obtain ⟨-, -, hback⟩ := hread g hg
  obtain ⟨b, f, hb, -, hsize, hf, -, hwords⟩ := hback {}
  exact ⟨g, b, f, hg, hb, hsize, hf, hwords⟩

end Grammar

end Acceptors
