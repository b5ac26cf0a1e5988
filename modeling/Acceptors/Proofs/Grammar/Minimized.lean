import Acceptors.Grammar.Writer
import Acceptors.Proofs.Grammar.Generated
import Acceptors.Proofs.Minimal.Named

/-!
# Minimized grammars

A grammar is minimized by way of its automaton. The symbols stay the same, but the names of the
states are made anew, and some of them may have an arrow in them even if no variable of the grammar
has one. Such a minimized automaton has no grammar. This is the only obstacle, and it takes two
variables that generate the same words, one with a minus at the end of its name and one with a
greater sign at the beginning. The subset construction gives names with numbers at their ends, so
that no arrow arises if it is needed.

Results:
* `Grammar.WellFormed.exists_toNfa_names`: the names in the automaton of a grammar.
* `Nfa.WellFormed.not_clash_of_toDfa?`: subset construction makes no names that clash.
* `Grammar.minimize_writable_iff`: which minimized automata have grammars.
-/

namespace Acceptors

variable {config : Config} {d : Dfa} {n : Nfa} {a : Automaton} {s t : Nat} {x : String}

open Text (isName isGrammarName isName_of_isGrammarName)

/-! ## Symbols and names of minimized automata -/

/-- The names of a completed automaton are those of the automaton and a renamed one. -/
theorem Dfa.mem_names_complete {sinkName : String} (hx : x ∈ (d.complete sinkName).names.toList) :
    x ∈ d.names.toList ∨ StateNames.Renamed sinkName x := by
  by_cases h : d.isComplete = true
  · rw [complete_of_isComplete h] at hx
    exact .inl hx
  · rw [toList_names_complete h, List.mem_append, List.mem_singleton] at hx
    rcases hx with hx | rfl
    · exact .inl hx
    · exact .inr (d.names.renamed_fresh sinkName)

/-- An automaton that is not deterministic gets numbers for names. -/
theorem Nfa.names_toDfa (n : Nfa) (config : Config) :
    (n.toDfa config).names = n.names ∨
      ∃ size, (n.toDfa config).names = .numbered config.dfaPrefix size := by
  rw [Nfa.toDfa]
  split
  · next h =>
    obtain ⟨-, rfl⟩ := Nfa.eq_of_toDfa? h
    exact .inl rfl
  · exact .inr ⟨_, rfl⟩

/-- The names of created states can be written in grammars. -/
structure Config.Writable (config : Config) : Prop where
  sink : isGrammarName config.sinkName = true
  subsets : config.dfaPrefix = "" ∨ isGrammarName config.dfaPrefix = true
  final : isGrammarName config.finalName = true

theorem Config.writable_default : ({} : Config).Writable where
  sink := by decide
  subsets := .inr (by decide)
  final := by decide

/-- Completion and the subset construction make names that can be written. -/
theorem Automaton.isGrammarName_completed (hconfig : config.Writable)
    (hnames : ∀ x ∈ a.names.toList, isGrammarName x = true) :
    ∀ x ∈ ((a.toDfa config).complete config.sinkName).names.toList, isGrammarName x = true := by
  intro x hx
  rcases Dfa.mem_names_complete hx with hx | hx
  · cases a with
    | dfa d => exact hnames x hx
    | nfa n =>
      have hx : x ∈ (n.toDfa config).names.toList := hx
      rcases n.names_toDfa config with h | ⟨size, h⟩
      · rw [h] at hx
        exact hnames x hx
      · rw [h, StateNames.toList_numbered] at hx
        obtain ⟨i, -, rfl⟩ := List.mem_map.1 hx
        exact Text.isGrammarName_append_toString hconfig.subsets i
  · exact hx.isGrammarName hconfig.sink

/-- The names in the minimized automaton can be written in tables if those in the automaton can be
    written in grammars. They can be written in grammars, too, unless two states clash. -/
theorem Automaton.WellFormed.isGrammarName_minimize_iff (ha : a.WellFormed)
    (hconfig : config.Writable) (hnames : ∀ x ∈ a.names.toList, isGrammarName x = true) :
    (∀ x ∈ (a.minimize config).names.toList, isName x = true) ∧
      ((∀ x ∈ (a.minimize config).names.toList, isGrammarName x = true) ↔
        ∀ s t, ¬ ((a.toDfa config).complete config.sinkName).Clash s t) := by
  have hcompleted := Automaton.isGrammarName_completed hconfig hnames
  refine ⟨(ha.toDfa config).isName_minimize config fun x hx => ?_,
    (ha.toDfa config).isGrammarName_minimize_iff config hcompleted⟩
  exact isName_of_isGrammarName (hcompleted x hx)

/-- Names that end with numbers do not clash. -/
theorem Nfa.WellFormed.not_clash_of_toDfa? {e : Error} (hn : n.WellFormed)
    (h : n.toDfa? = .error e) : ¬ ((n.toDfa config).complete config.sinkName).Clash s t := by
  intro hclash
  have hdfa : n.toDfa config = n.determinize config := by rw [Nfa.toDfa, h]
  have hlt : s < (n.toDfa config).size := by
    have ht := ((hn.toDfa config).complete config.sinkName).lt_of_reached hclash.reached_right
    have hst := hclash.lt
    have hsize := (n.toDfa config).size_complete_le config.sinkName
    omega
  have hname : (n.toDfa config).name s = config.dfaPrefix ++ toString s := by
    rw [hdfa] at hlt ⊢
    exact StateNames.name_numbered (Nfa.size_determinize ▸ hlt)
  have harrow := hclash.arrow
  rw [Dfa.name_complete hlt, hname] at harrow
  exact Text.not_formArrow_append_toString s _ harrow

namespace Grammar

variable {g : Grammar} {text : String}

/-- The automaton of a grammar has the terminals as symbols, and its states are the variables and a
    renamed final state. -/
theorem WellFormed.exists_toNfa_names (hg : g.WellFormed) (config : Config) :
    ∃ n, g.toNfa config = .ok n ∧ n.WellFormed ∧ n.alphabet.symbols = g.terminals ∧
      ∀ x ∈ n.names.toList, x ∈ g.nonterminals ∨ StateNames.Renamed config.finalName x := by
  obtain ⟨alphabet, final, hsymbols, -, hfinal, hconverted⟩ := hg.toNfa_eq config
  refine ⟨_, hconverted, Listing.wellFormed_toNfa _, hsymbols, fun x hx => ?_⟩
  rcases mem_names_listing_iff.1 hx with rfl | hx | ⟨rfl, -⟩
  · exact .inl hg.start_mem
  · exact .inl hx
  · exact .inr hfinal

/-- The names in the automaton of a grammar that was read can be written in grammars. -/
theorem exists_toNfa_of_parse (hconfig : config.Writable) (h : parse config text = .ok g) :
    ∃ n, g.toNfa config = .ok n ∧ n.WellFormed ∧
      (∀ x ∈ n.alphabet.symbols, isGrammarName x = true ∧ x ≠ config.epsilon) ∧
      ∀ x ∈ n.names.toList, isGrammarName x = true := by
  have hg := wellFormed_of_parse h
  obtain ⟨_, _, _, _, -, -, -, -, -, -, hmarker⟩ := parse_eq_ok_iff.1 h
  obtain ⟨n, hconverted, hn, hsymbols, hnames⟩ := hg.exists_toNfa_names config
  refine ⟨n, hconverted, hn, hsymbols ▸ hmarker ▸ hg.terminals, fun x hx => ?_⟩
  rcases hnames x hx with hx | hx
  · exact hg.nonterminals x hx
  · exact hx.isGrammarName hconfig.final

/-- An automaton whose symbols can be written is refused for the name of a state only. -/
theorem ofAutomaton_eq_ok_or_error
    (hsymbols : ∀ x ∈ a.alphabet.symbols, isGrammarName x = true ∧ x ≠ config.epsilon) :
    (∃ h, ofAutomaton config a = .ok h) ∧ (∀ x ∈ a.names.toList, isGrammarName x = true) ∨
      ∃ x ∈ a.names.toList,
        ofAutomaton config a = .error (.invalidStateName x) ∧ isGrammarName x = false := by
  have halphabet : a.toNfa.epsilonFree.alphabet = a.alphabet :=
    Nfa.alphabet_epsilonFree.trans Automaton.alphabet_toNfa
  have hnames : a.toNfa.epsilonFree.names = a.names :=
    Nfa.names_epsilonFree.trans Automaton.names_toNfa
  have hnone : a.alphabet.symbols.find? (fun x => x = config.epsilon || !isGrammarName x) =
      none := by
    simpa [List.find?_eq_none, and_comm] using hsymbols
  cases hfind : a.names.toList.find? (!isGrammarName ·) with
  | none =>
    have hall : ∀ x ∈ a.names.toList, isGrammarName x = true := by
      simpa [List.find?_eq_none] using hfind
    exact .inl ⟨⟨_, ofAutomaton_eq_ok_iff.2 ⟨⟨halphabet ▸ hsymbols, hnames ▸ hall⟩, rfl⟩⟩, hall⟩
  | some x =>
    refine .inr ⟨x, List.mem_of_find?_eq_some hfind, ?_, by simpa using List.find?_some hfind⟩
    simp only [ofAutomaton, checkWritable, halphabet, hnames, hnone, hfind]
    rfl

/-! ## Minimized grammars -/

/-- If the names in an automaton can be written in a grammar, then those in the minimized automaton
    can be written in a table, and in a grammar if no two states clash that are made into one. So
    the minimized automaton of a grammar that was read has a grammar exactly if no two states clash.
    Otherwise it is refused for the name of a state with an arrow in it. This never happens if the
    automaton is not deterministic. -/
theorem minimize_writable_iff (hconfig : config.Writable) :
    (∀ a : Automaton, a.WellFormed → (∀ x ∈ a.names.toList, isGrammarName x = true) →
      (∀ x ∈ (a.minimize config).names.toList, isName x = true) ∧
        ((∀ x ∈ (a.minimize config).names.toList, isGrammarName x = true) ↔
          ∀ s t, ¬ ((a.toDfa config).complete config.sinkName).Clash s t)) ∧
    ∀ text g, parse config text = .ok g → ∃ n, g.toNfa config = .ok n ∧
      (∀ x ∈ n.names.toList, isGrammarName x = true) ∧
      ((∃ h, ofAutomaton config (Automaton.minimize config n) = .ok h) ↔
        ∀ s t, ¬ ((n.toDfa config).complete config.sinkName).Clash s t) ∧
      ((∃ h, ofAutomaton config (Automaton.minimize config n) = .ok h) ∨
        ∃ x ∈ (Automaton.minimize config n).names.toList,
          ofAutomaton config (Automaton.minimize config n) = .error (.invalidStateName x) ∧
            isName x = true ∧ ['-', '>'] <:+: x.toList) ∧
      ∀ e, n.toDfa? = .error e →
        ∃ h, ofAutomaton config (Automaton.minimize config n) = .ok h := by
  refine ⟨fun a ha => ha.isGrammarName_minimize_iff hconfig, fun text g hparse => ?_⟩
  obtain ⟨n, hconverted, hn, hsymbols, hwritten⟩ := exists_toNfa_of_parse hconfig hparse
  have ha : (Automaton.nfa n).WellFormed := hn
  obtain ⟨htable, hgrammar⟩ := ha.isGrammarName_minimize_iff hconfig hwritten
  have halphabet : (Automaton.dfa (Automaton.minimize config n)).alphabet = n.alphabet :=
    (Dfa.alphabet_minimize config _).trans Nfa.alphabet_toDfa
  rw [← halphabet] at hsymbols
  -- as the symbols can be written, there is a grammar or a name with an arrow
  refine ⟨n, hconverted, hwritten, ?_⟩
  rcases ofAutomaton_eq_ok_or_error hsymbols with ⟨hok, hall⟩ | ⟨x, hx, herror, hnot⟩
  · exact ⟨⟨fun _ => hgrammar.1 hall, fun _ => hok⟩, .inl hok, fun _ _ => hok⟩
  · have hfails : ¬ ∃ h, ofAutomaton config (Automaton.minimize config n) = .ok h := by
      rintro ⟨h, hok⟩
      rw [herror] at hok
      cases hok
    have hclashes : ¬ ∀ s t, ¬ ((n.toDfa config).complete config.sinkName).Clash s t := by
      intro hnone
      rw [hgrammar.2 hnone x hx] at hnot
      cases hnot
    have harrow : ['-', '>'] <:+: x.toList := by
      by_contra hfree
      rw [Text.isGrammarName_iff.2 ⟨htable x hx, hfree⟩] at hnot
      cases hnot
    exact ⟨iff_of_false hfails hclashes, .inr ⟨x, hx, herror, htable x hx, harrow⟩, fun e he =>
      absurd (fun s t => hn.not_clash_of_toDfa? he) hclashes⟩

/-- Two variables that generate the same words, one of them named `p-`. -/
def twins (other : String) : Grammar where
  terminals := ["a"]
  nonterminals := ["p-", other]
  start := "p-"
  rules := [⟨"p-", .step "a" other⟩, ⟨"p-", .empty⟩, ⟨other, .step "a" "p-"⟩, ⟨other, .empty⟩]
  epsilon := "e"

/-- The automaton of the two variables. -/
def twinStates (other : String) : Nfa :=
  Listing.toNfa
    { alphabet := .single "a"
      start := "p-"
      mentions := ["p-", other]
      edges := [⟨"p-", some 0, other⟩, ⟨other, some 0, "p-"⟩]
      accepting := ["p-", other] }

/-- Variables that are made into one without an arrow, and variables that clash. -/
theorem minimize_writable_iff_twins :
    let completed := fun other => ((twinStates other).toDfa {}).complete "SINK"
    parse {} (twins "q").write = .ok (twins "q") ∧
      (Automaton.minimize {} (twinStates "q")).names.toList = ["p-q"] ∧
      (∀ s t, ¬ (completed "q").Clash s t) ∧
      parse {} (twins ">q").write = .ok (twins ">q") ∧ (∃ s t, (completed ">q").Clash s t) ∧
      ∀ x ∈ (Automaton.minimize {} (twinStates ">q")).names.toList, isName x = true := by
  intro completed
  obtain ⟨hautomaton, hread⟩ := minimize_writable_iff Config.writable_default
  have hstates : (Automaton.nfa (twinStates ">q")).WellFormed := Listing.wellFormed_toNfa _
  have htable := (hautomaton _ hstates (by decide +kernel)).1
  have hparse : parse {} (twins "q").write = .ok (twins "q") := by decide +kernel
  have hparse' : parse {} (twins ">q").write = .ok (twins ">q") := by decide +kernel
  obtain ⟨n, hn, -, hiff, -, -⟩ := hread _ _ hparse
  obtain ⟨n', hn', -, hiff', -, -⟩ := hread _ _ hparse'
  have hconverted : (twins "q").toNfa {} = .ok (twinStates "q") := by decide +kernel
  have hconverted' : (twins ">q").toNfa {} = .ok (twinStates ">q") := by decide +kernel
  obtain rfl : twinStates "q" = n := Except.ok.inj (hconverted.symm.trans hn)
  obtain rfl : twinStates ">q" = n' := Except.ok.inj (hconverted'.symm.trans hn')
  have hwritten : ofAutomaton {} (Automaton.minimize {} (twinStates "q")) =
      .ok ⟨["a"], ["p-q"], "p-q", [⟨"p-q", .step "a" "p-q"⟩, ⟨"p-q", .empty⟩], "e"⟩ := by
    decide +kernel
  refine ⟨hparse, by decide +kernel, hiff.1 ⟨_, hwritten⟩, hparse', ?_, htable⟩
  have hfails : ofAutomaton {} (Automaton.minimize {} (twinStates ">q")) =
      .error (.invalidStateName "p->q") := by decide +kernel
  by_contra hnone
  obtain ⟨h, hok⟩ := hiff'.2 fun s t hclash => hnone ⟨s, t, hclash⟩
  rw [hfails] at hok
  cases hok

/-- A text that is read as a grammar, whose automaton has states with names that can be written,
    while the only state of the minimized automaton has not. -/
theorem exists_minimize_not_writable :
    let text := "a\np-,>q\np-\np- -> a(>q)\np- -> e\n>q -> a(p-)\n>q -> e\n"
    ∃ g n, parse {} text = .ok g ∧ g.toNfa {} = .ok n ∧
      (∀ x ∈ n.names.toList, isGrammarName x = true) ∧
      (Automaton.minimize {} n).names.toList = ["p->q"] ∧
      ofAutomaton {} (Automaton.minimize {} n) = .error (.invalidStateName "p->q") := by
  intro text
  refine ⟨twins ">q", twinStates ">q", ?_, ?_, ?_, ?_, ?_⟩
  · decide +kernel
  · decide +kernel
  · decide +kernel
  · decide +kernel
  · decide +kernel

end Grammar

end Acceptors
