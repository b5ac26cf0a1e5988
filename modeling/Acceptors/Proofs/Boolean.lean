import Acceptors.Proofs.Automaton

/-!
# Union and complement

A union reads a word on either side, each operand with the symbols that it knows. All ways to
acceptance end in one new state, which nothing leaves. A complement swaps the accepting states of an
automaton with every move defined. To swap them twice undoes it, and the second time there is no
move left to define: two complements leave the automaton with its sink.

Results:
* `Automaton.union_exact`: the words, the symbols and the accepting state of a union.
* `Dfa.WellFormed.complete_complete`, `Dfa.WellFormed.complement_complement`: what a second
  completion and a second complement do.
* `Automaton.complement_exact`: the words of a complement, and two complements one after the other.
-/

namespace Acceptors

/-! ## Completion and complement, twice -/

namespace Dfa

variable {d : Dfa}

/-- A completed automaton gets no second sink. -/
theorem WellFormed.complete_complete (hd : d.WellFormed) (sinkName sinkName' : String) :
    (d.complete sinkName).complete sinkName' = d.complete sinkName :=
  complete_of_isComplete (hd.isComplete_complete sinkName)

/-- To swap the accepting states twice undoes it. -/
theorem WellFormed.flip_flip (hd : d.WellFormed) : d.flip.flip = d := by
  have haccepting : d.flip.flip.accepting = d.accepting := by
    refine StateSet.ext fun s => ?_
    show s ∈ StateSet.below d.size (fun s => !d.flip.isAccepting s) ↔ s ∈ d.accepting
    rw [StateSet.mem_below]
    constructor
    · rintro ⟨hs, hflip⟩
      rwa [isAccepting_flip hs, Bool.not_not] at hflip
    · intro hs
      have hlt := hd.accepting_lt s hs
      refine ⟨hlt, ?_⟩
      rwa [isAccepting_flip hlt, Bool.not_not]
  calc d.flip.flip = { d with accepting := d.flip.flip.accepting } := rfl
    _ = d := by rw [haccepting]

/-- Two complements leave the automaton with its sink. -/
theorem WellFormed.complement_complement (hd : d.WellFormed) (config config' : Config) :
    (d.complement config).complement config' = d.complete config.sinkName := by
  have hcomplete := hd.complete config.sinkName
  have hmoves : (d.complement config).isComplete = true := hd.isComplete_complement config
  rw [Dfa.complement, complete_of_isComplete hmoves]
  exact hcomplete.flip_flip

end Dfa

namespace Automaton

variable {a b : Automaton}

/-! ## Union -/

/-- A union accepts what either operand accepts. Its symbols are those of the left operand and then
    those that only the right one has. The two operands keep their states, a new one starts and a
    last one accepts, alone, and no move leaves it. -/
theorem union_exact (ha : a.WellFormed) (hb : b.WellFormed) (config : Config) :
    let u := a.union config b
    let final := a.names.size + b.names.size + 1
    (∀ w, u.accepts w = (a.accepts w || b.accepts w)) ∧
      u.alphabet.symbols =
        a.alphabet.symbols ++ b.alphabet.symbols.filter (· ∉ a.alphabet.symbols) ∧
      (u.size = final + 1 ∧ u.start ≠ final) ∧ (∀ s, s ∈ u.accepting ↔ s = final) ∧
      (∀ c t, t ∉ u.targets final c) ∧ ∀ t, t ∉ u.epsilonTargets final := by
  intro u final
  have hfinal : final = a.toNfa.size + b.toNfa.size + 1 := by
    rw [Nfa.size, Nfa.size, names_toNfa, names_toNfa]
  have hl := ha.toNfa
  have hr := hb.toNfa
  rw [hfinal]
  refine ⟨fun w => ha.accepts_union hb config, ?_, ⟨Nfa.size_union, ?_⟩, fun s => ?_,
    hl.not_mem_targets_union_final hr config, hl.not_mem_epsilonTargets_union_final hr config⟩
  · rw [← alphabet_toNfa (a := a), ← alphabet_toNfa (a := b)]
    rfl
  · show (a.toNfa.union config b.toNfa).start ≠ _
    rw [Nfa.start_union]
    exact Nat.ne_of_lt (Nat.lt_succ_self _)
  · show s ∈ (a.toNfa.union config b.toNfa).accepting ↔ _
    rw [Nfa.accepting_union, StateSet.mem_single]

/-- Operands of both kinds whose states all have the name that the new states get, with the shared
    symbols in another order and one symbol on the right only. -/
theorem union_exact_columns :
    let n := (Nfa.new ⟨["a", "b"], by decide⟩ "F").addState "F"
    let a : Automaton := ((n.addMove 0 0 1).addEpsilon 1 0).setAccepting 1 true
    let d := (Dfa.new ⟨["b", "c", "a"], by decide⟩ "F").setMove 0 0 (some 0)
    let b : Automaton := d.setAccepting 0 true
    let config : Config := { startName := "F" }
    let u := a.union config b
    u.accepts ["a", "a"] = true ∧ u.accepts ["b", "a"] = false ∧
      u.alphabet.symbols = ["a", "b", "c"] ∧ ∀ c t, t ∉ u.targets 4 c := by
  intro n a d b config u
  have hn : (n.addMove 0 0 1).WellFormed :=
    (Nfa.wellFormed_new.addState _).addMove 0 0 (by decide)
  have ha : a.WellFormed := (hn.addEpsilon 1 (by decide)).setAccepting (by decide) true
  have hb : b.WellFormed :=
    (Dfa.wellFormed_new.setMove 0 0 (by decide)).setAccepting (by decide) true
  obtain ⟨hwords, hsymbols, -, -, hmoves, -⟩ := union_exact ha hb config
  refine ⟨?_, ?_, hsymbols.trans (by decide), hmoves⟩
  · exact (hwords _).trans (by decide)
  · exact (hwords _).trans (by decide)

/-! ## Complement -/

/-- A complement has every move over the symbols of the automaton, and accepts those of their words
    that the automaton rejects; a word with another symbol is rejected by both. Two complements
    leave a deterministic automaton with its sink, which accepts the same words and gets no second
    sink. -/
theorem complement_exact (ha : a.WellFormed) (config : Config) :
    let c := a.complement config
    (c.alphabet = a.alphabet ∧ c.isComplete = true) ∧
      (∀ w, (∀ x ∈ w, x ∈ a.alphabet) → c.accepts w = !a.accepts w) ∧
      (∀ w, (∃ x ∈ w, x ∉ a.alphabet) → c.accepts w = false ∧ a.accepts w = false) ∧
      ∀ d : Dfa, d.WellFormed → ∀ config' : Config,
        complement config' (complement config d) = d.complete config.sinkName ∧
          (∀ w, (d.complete config.sinkName).accepts w = d.accepts w) ∧
          ∀ sinkName,
            (d.complete config.sinkName).complete sinkName = d.complete config.sinkName := by
  intro c
  have hwords : ∀ w, c.accepts w = true ↔ (∀ x ∈ w, x ∈ a.alphabet) ∧ a.accepts w = false :=
    fun w => ha.accepts_complement_iff config
  have halphabet : c.alphabet = a.alphabet := Dfa.alphabet_complement.trans alphabet_toDfa
  refine ⟨⟨halphabet, ha.isComplete_complement config⟩, fun w hw => ?_, fun w hw => ?_,
    fun d hd config' => ⟨?_, fun w => hd.accepts_complete _, fun sinkName => ?_⟩⟩
  · rw [Bool.eq_iff_iff, hwords, and_iff_right hw, Bool.not_eq_true']
  · obtain ⟨x, hx, hforeign⟩ := hw
    constructor
    · exact Bool.eq_false_iff.2 fun h => hforeign (((hwords w).1 h).1 x hx)
    · exact Bool.eq_false_iff.2 fun h => hforeign (ha.mem_alphabet_of_accepts h x hx)
  · exact hd.complement_complement config config'
  · exact hd.complete_complete _ _

/-- A nondeterministic automaton with an epsilon cycle, and a deterministic one with the name of the
    sink and a move that is not defined. -/
theorem complement_exact_cycle :
    let states := ((Nfa.new ⟨["a", "b"], by decide⟩ "p").addState "q").addEpsilon 0 1
    let a : Automaton := ((states.addEpsilon 1 0).addMove 1 0 1).setAccepting 0 true
    let d := (Dfa.new (.single "a") "SINK").setAccepting 0 true
    let c := a.complement {}
    c.accepts ["a", "b"] = true ∧ c.accepts ["a", "c"] = false ∧
      complement {} (complement {} d) = d.complete "SINK" ∧ (d.complete "SINK").size = 2 := by
  intro states a d c
  have hstates : states.WellFormed := (Nfa.wellFormed_new.addState _).addEpsilon 0 (by decide)
  have hcycle : ((states.addEpsilon 1 0).addMove 1 0 1).WellFormed :=
    (hstates.addEpsilon 1 (by decide)).addMove 1 0 (by decide)
  have ha : a.WellFormed := hcycle.setAccepting (by decide) true
  have hd : d.WellFormed := Dfa.wellFormed_new.setAccepting (by decide) true
  have hc : "c" ∉ a.alphabet := by
    show "c" ∉ ["a", "b"]
    decide
  obtain ⟨-, hknown, hforeign, htwice⟩ := complement_exact ha {}
  refine ⟨(hknown _ fun _ hx => hx).trans (by decide), (hforeign _ ⟨"c", by decide, hc⟩).1,
    (htwice d hd {}).1, by decide⟩

end Automaton

end Acceptors
