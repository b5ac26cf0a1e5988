import Acceptors.Nfa.EpsilonFree
import Acceptors.Proofs.Alike.Nondeterministic
import Acceptors.Proofs.Nfa.Shape

/-!
# The words of an automaton without its epsilon moves

After the elimination of epsilon moves, a move stands for a symbol with any epsilon moves before and
after it, and an accepting state for the epsilon moves that lead to acceptance. So every state keeps
its words.

Results:
* `Nfa.WellFormed.moves_eliminateEpsilon`: what the moves stand for.
* `Nfa.WellFormed.recognizesFrom_eliminateEpsilon_iff`: every state keeps its words.
* `Nfa.WellFormed.eliminateEpsilon_eq_self`: without epsilon moves, nothing changes.
* `Nfa.eliminateEpsilon_exact`: what elimination keeps and what it takes away.
* `Nfa.WellFormed.epsilonFree`, `Nfa.WellFormed.language_epsilonFree`: the same for the form without
  epsilon moves that every automaton has.
-/

namespace Acceptors

namespace Nfa

variable {n : Nfa} {s t c : Nat} {a : String} {w : List String}

theorem hasEpsilonMoves_eq_false_iff :
    n.hasEpsilonMoves = false ↔ ∀ s t, t ∉ n.epsilonTargets s := by
  rw [hasEpsilonMoves, List.any_eq_false]
  constructor
  · intro h s t ht
    rw [epsilonTargets] at ht
    cases hs : n.epsilon[s]? with
    | none =>
      rw [hs] at ht
      exact StateSet.not_mem_empty t ht
    | some X =>
      rw [hs] at ht
      have hX := h X (Array.mem_toList_iff.2 (Array.mem_of_getElem? hs))
      rw [Bool.not_eq_true', Bool.not_eq_false, StateSet.isEmpty_iff] at hX
      exact hX t ht
  · intro h X hX
    obtain ⟨s, hs⟩ := Array.mem_iff_getElem?.1 (Array.mem_toList_iff.1 hX)
    rw [Bool.not_eq_true', Bool.not_eq_false, StateSet.isEmpty_iff]
    intro t ht
    refine h s t ?_
    rwa [epsilonTargets, hs]

/-! ## Elimination -/

theorem not_mem_epsilonTargets_eliminateEpsilon : t ∉ n.eliminateEpsilon.epsilonTargets s := by
  rw [eliminateEpsilon, epsilonTargets_ofFn, ite_self]
  exact StateSet.not_mem_empty t

variable (hn : n.WellFormed)

include hn

theorem WellFormed.mem_closure_single (hs : s < n.size) :
    t ∈ n.closure (.single s) ↔ n.Path s [] t := by
  rw [hn.mem_closure (StateSet.forall_mem_single.2 hs)]
  simp only [StateSet.mem_single, exists_eq_left]

/-- A state accepts after the elimination if it leads to acceptance without a symbol. -/
theorem WellFormed.mem_accepting_eliminateEpsilon (hs : s < n.size) :
    s ∈ n.eliminateEpsilon.accepting ↔ n.RecognizesFrom s [] := by
  have hclosure : n.closures[s]?.getD ∅ = n.closure (.single s) := by
    rw [getElem?_closures hs, Option.getD_some]
  show s ∈ StateSet.below n.size (fun s => n.anyAccepting (n.closures[s]?.getD ∅)) ↔ _
  rw [StateSet.mem_below, and_iff_right hs, hclosure, anyAccepting, StateSet.meets_iff]
  simp only [hn.mem_closure_single hs]
  rfl

/-- A move after the elimination stands for a move with any epsilon moves before and after it. -/
theorem WellFormed.moves_eliminateEpsilon (hs : s < n.size) :
    n.eliminateEpsilon.Moves s a t ↔ ∃ r u, n.Path s [] r ∧ n.Moves r a u ∧ n.Path u [] t := by
  have hcell : ∀ c, n.alphabet.idxOf? a = some c → (t ∈ n.eliminateEpsilon.targets s c ↔
      ∃ r u, n.Path s [] r ∧ u ∈ n.targets r c ∧ n.Path u [] t) := by
    intro c hc
    rw [targets_eliminateEpsilon hn hs (Alphabet.lt_size_of_idxOf? hc)]
    simp only [StateSet.mem_biUnion, step, hn.mem_closure_single hs]
    constructor
    · rintro ⟨u, ⟨r, hr, hu⟩, ht⟩
      exact ⟨r, u, hr, hu, (hn.mem_closure_single (hn.targets_lt r c u hu)).1 ht⟩
    · rintro ⟨r, u, hr, hu, ht⟩
      exact ⟨u, ⟨r, hr, hu⟩, (hn.mem_closure_single (hn.targets_lt r c u hu)).2 ht⟩
  constructor
  · rintro ⟨c, hc, ht⟩
    obtain ⟨r, u, hr, hu, ht⟩ := (hcell c hc).1 ht
    exact ⟨r, u, hr, ⟨c, hc, hu⟩, ht⟩
  · rintro ⟨r, u, hr, ⟨c, hc, hu⟩, ht⟩
    exact ⟨c, hc, (hcell c hc).2 ⟨r, u, hr, hu, ht⟩⟩

theorem WellFormed.eliminateEpsilon : n.eliminateEpsilon.WellFormed where
  shape := Grid.hasShape_ofFn
  epsilon_size := Array.size_ofFn
  start_lt := hn.start_lt
  accepting_lt _ hs := (StateSet.mem_below.1 hs).1
  targets_lt s c t ht := by
    have hin : s < n.size ∧ c < n.alphabet.size := by
      rw [Nfa.eliminateEpsilon, targets_ofFn] at ht
      split at ht
      · assumption
      · exact absurd ht (StateSet.not_mem_empty t)
    rw [targets_eliminateEpsilon hn hin.1 hin.2, StateSet.mem_biUnion] at ht
    obtain ⟨u, hu, ht⟩ := ht
    obtain ⟨r, -, hu⟩ := StateSet.mem_biUnion.1 hu
    have hlt := hn.targets_lt r c u hu
    exact hn.path_lt hlt ((hn.mem_closure_single hlt).1 ht)
  epsilonTargets_lt _ _ ht := absurd ht not_mem_epsilonTargets_eliminateEpsilon

/-- Every state keeps its words. -/
theorem WellFormed.recognizesFrom_eliminateEpsilon_iff (hs : s < n.size) :
    n.eliminateEpsilon.RecognizesFrom s w ↔ n.RecognizesFrom s w := by
  have hpath : ∀ s t, n.eliminateEpsilon.Path s [] t ↔ s = t := fun s t =>
    path_nil_iff_of_forall_not_mem fun _ _ => not_mem_epsilonTargets_eliminateEpsilon
  induction w generalizing s with
  | nil =>
    rw [recognizesFrom_nil_iff, ← hn.mem_accepting_eliminateEpsilon hs]
    simp only [hpath, exists_eq_right']
  | cons a w ih =>
    rw [recognizesFrom_cons_iff, recognizesFrom_cons_iff]
    simp only [hpath]
    constructor
    · rintro ⟨_, t, rfl, ht, h⟩
      obtain ⟨r, u, hr, hu, ht⟩ := (hn.moves_eliminateEpsilon hs).1 ht
      obtain ⟨q, hq, hpath⟩ := (ih (hn.path_lt (hn.moves_lt hu) ht)).1 h
      exact ⟨r, u, hr, hu, q, hq, ht.trans hpath⟩
    · rintro ⟨r, u, hr, hu, h⟩
      exact ⟨s, u, rfl, (hn.moves_eliminateEpsilon hs).2 ⟨r, u, hr, hu, .refl u⟩,
        (ih (hn.moves_lt hu)).2 h⟩

theorem WellFormed.language_eliminateEpsilon : n.eliminateEpsilon.language = n.language := by
  ext w
  exact hn.recognizesFrom_eliminateEpsilon_iff hn.start_lt

/-- Where there are no epsilon moves, nothing is left to eliminate. -/
theorem WellFormed.eliminateEpsilon_eq_self (hfree : n.hasEpsilonMoves = false) :
    n.eliminateEpsilon = n := by
  have hclosure : ∀ s < n.size, n.closure (.single s) = .single s := by
    intro s hs
    apply StateSet.ext
    intro t
    rw [hn.mem_closure_single hs, StateSet.mem_single,
      path_nil_iff_of_forall_not_mem (hasEpsilonMoves_eq_false_iff.1 hfree), eq_comm]
  have hwf := hn.eliminateEpsilon
  have htargets : ∀ s c, n.eliminateEpsilon.targets s c = n.targets s c := by
    intro s c
    apply StateSet.ext
    intro t
    by_cases hin : s < n.size ∧ c < n.alphabet.size
    · rw [targets_eliminateEpsilon hn hin.1 hin.2, hclosure s hin.1]
      simp only [step, StateSet.mem_biUnion, StateSet.mem_single, exists_eq_left]
      constructor
      · rintro ⟨u, hu, ht⟩
        rw [hclosure u (hn.targets_lt s c u hu), StateSet.mem_single] at ht
        rwa [ht]
      · intro ht
        refine ⟨t, ht, ?_⟩
        rw [hclosure t (hn.targets_lt s c t ht), StateSet.mem_single]
    · exact iff_of_false (fun ht => hin (hwf.lt_of_mem_targets ht))
        fun ht => hin (hn.lt_of_mem_targets ht)
  have hepsilon : ∀ s, n.eliminateEpsilon.epsilonTargets s = n.epsilonTargets s := by
    intro s
    apply StateSet.ext
    intro t
    exact iff_of_false not_mem_epsilonTargets_eliminateEpsilon
      (hasEpsilonMoves_eq_false_iff.1 hfree s t)
  have haccepting : n.eliminateEpsilon.accepting = n.accepting := by
    apply StateSet.ext
    intro s
    by_cases hs : s < n.size
    · rw [hn.mem_accepting_eliminateEpsilon hs, recognizesFrom_nil_iff]
      simp only [path_nil_iff_of_forall_not_mem (hasEpsilonMoves_eq_false_iff.1 hfree),
        exists_eq_right']
    · exact iff_of_false (fun h => hs (hwf.accepting_lt s h)) fun h => hs (hn.accepting_lt s h)
  have halike : n.eliminateEpsilon.Alike n :=
    (hwf.alike_iff hn).2 ⟨rfl, rfl, htargets, hepsilon, rfl, haccepting⟩
  exact halike.eq_of_names_eq rfl

/-! ## The form without epsilon moves -/

theorem WellFormed.epsilonFree : n.epsilonFree.WellFormed := by
  rw [Nfa.epsilonFree]
  split
  · exact hn.eliminateEpsilon
  · exact hn

theorem WellFormed.language_epsilonFree : n.epsilonFree.language = n.language := by
  rw [Nfa.epsilonFree]
  split
  · exact hn.language_eliminateEpsilon
  · rfl

omit hn

theorem alphabet_epsilonFree : n.epsilonFree.alphabet = n.alphabet := by
  rw [epsilonFree]
  split <;> rfl

theorem names_epsilonFree : n.epsilonFree.names = n.names := by
  rw [epsilonFree]
  split <;> rfl

theorem not_mem_epsilonTargets_epsilonFree : t ∉ n.epsilonFree.epsilonTargets s := by
  rw [epsilonFree]
  split
  · exact not_mem_epsilonTargets_eliminateEpsilon
  · next h => exact hasEpsilonMoves_eq_false_iff.1 (Bool.eq_false_iff.2 h) s t

/-! ## What elimination keeps -/

/-- Elimination leaves no epsilon move. It keeps the symbols, the states with their numbers and
    names and the start state, and from every state the words that lead to acceptance, both as
    labels of paths and as words of runs. An automaton without epsilon moves stays as it is, so that
    elimination changes nothing the second time. -/
theorem eliminateEpsilon_exact (hn : n.WellFormed) :
    let e := n.eliminateEpsilon
    e.hasEpsilonMoves = false ∧ e.alphabet = n.alphabet ∧ e.size = n.size ∧ e.names = n.names ∧
      e.start = n.start ∧
      (∀ s < n.size, ∀ w, (∃ t ∈ e.accepting, e.Path s w t) ↔ ∃ t ∈ n.accepting, n.Path s w t) ∧
      (∀ s < n.size, ∀ w,
        e.acceptsFrom (e.closure (.single s)) w = n.acceptsFrom (n.closure (.single s)) w) ∧
      (n.hasEpsilonMoves = false → e = n) ∧ e.eliminateEpsilon = e := by
  intro e
  have he : e.WellFormed := hn.eliminateEpsilon
  have hfree : e.hasEpsilonMoves = false :=
    hasEpsilonMoves_eq_false_iff.2 fun _ _ => not_mem_epsilonTargets_eliminateEpsilon
  have hwords : ∀ s < n.size, ∀ w, e.RecognizesFrom s w ↔ n.RecognizesFrom s w := fun s hs w =>
    hn.recognizesFrom_eliminateEpsilon_iff hs
  refine ⟨hfree, rfl, rfl, rfl, rfl, hwords, fun s hs w => ?_, hn.eliminateEpsilon_eq_self,
    he.eliminateEpsilon_eq_self hfree⟩
  have hsingle : ∀ r ∈ StateSet.single s, r < n.size := StateSet.forall_mem_single.2 hs
  rw [Bool.eq_iff_iff, he.acceptsFrom_closure_iff hsingle, hn.acceptsFrom_closure_iff hsingle]
  simp only [StateSet.mem_single, exists_eq_left, hwords s hs]

/-- Two states that epsilon moves join in both directions, one of them with an epsilon move to
    itself. -/
theorem eliminateEpsilon_exact_cycle :
    let states := ((new (.single "a") "p").addState "q").addEpsilon 0 1
    let n := (((states.addEpsilon 1 0).addEpsilon 1 1).addMove 1 0 0).setAccepting 1 true
    let e := n.eliminateEpsilon
    n.hasEpsilonMoves = true ∧ e.hasEpsilonMoves = false ∧ e.names = n.names ∧
      (∃ t ∈ e.accepting, e.Path 0 ["a", "a"] t) ∧ e.eliminateEpsilon = e := by
  intro states n e
  have hstates : states.WellFormed := (wellFormed_new.addState _).addEpsilon 0 (by decide)
  have hcycle : ((states.addEpsilon 1 0).addEpsilon 1 1).WellFormed :=
    (hstates.addEpsilon 1 (by decide)).addEpsilon 1 (by decide)
  have hn : n.WellFormed := (hcycle.addMove 1 0 (by decide)).setAccepting (by decide) true
  obtain ⟨hfree, -, -, hnames, -, hwords, -, -, hagain⟩ := eliminateEpsilon_exact hn
  have hpath : n.Path 0 ["a", "a"] 1 :=
    .epsilon (t := 1) (by decide) <| .symbol (t := 0) (c := 0) (by decide) (by decide) <|
      .epsilon (t := 1) (by decide) <| .symbol (t := 0) (c := 0) (by decide) (by decide) <|
        .epsilon (by decide) (.refl 1)
  exact ⟨by decide, hfree, hnames, (hwords 0 (by decide) _).2 ⟨1, by decide, hpath⟩, hagain⟩

end Nfa

end Acceptors
