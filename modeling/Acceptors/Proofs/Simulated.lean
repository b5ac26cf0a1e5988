import Acceptors.Proofs.Automaton

/-!
# Simulation and paths

What an automaton accepts is a matter of its paths: a word is accepted if it labels a path from the
start to an accepting state. A nondeterministic automaton is simulated by following all paths at
once. The states kept after some symbols are those to which paths with these symbols as labels lead,
epsilon moves at the end included; a symbol from outside the alphabet and an empty step leave no
path, so that the simulation may stop there. A deterministic automaton has at most one path for a
word, and the simulation follows it.

Results:
* `Nfa.WellFormed.mem_scanFrom_iff`: the states that are kept while a word is read.
* `Nfa.WellFormed.scan_iff`: what a simulation that stops early accepts.
* `Dfa.run_eq_some_iff`, `Dfa.Path.unique`: the only path for a word.
* `Automaton.accepts_iff_exists_path`: what the simulations of both kinds accept.
-/

namespace Acceptors

/-! ## All paths at once -/

namespace Nfa

variable {n : Nfa} {X : StateSet} {s t c : Nat} {a : String} {w : List String}

/-- The states in which the automaton can be after a word, read from a set of states that is closed
    under epsilon moves; none as soon as a symbol is unknown or a step leads nowhere (the loop of
    `accepts`). -/
def scanFrom (n : Nfa) (X : StateSet) : List String → Option StateSet
  | [] => some X
  | symbol :: word =>
    match n.alphabet.idxOf? symbol with
    | none => none
    | some column =>
      let next := n.step X column
      if next.isEmpty then none else n.scanFrom (n.closure next) word

/-- Whether a simulation that stops early ends with an accepting state (`accepts`). -/
def scan (n : Nfa) (word : List String) : Bool :=
  (n.scanFrom (n.closure (.single n.start)) word).any n.anyAccepting

/-- Epsilon moves do not lead out of the set. -/
def Closed (n : Nfa) (X : StateSet) : Prop := ∀ s ∈ X, ∀ t, n.Path s [] t → t ∈ X

theorem WellFormed.closed_closure (hn : n.WellFormed) (hX : ∀ s ∈ X, s < n.size) :
    n.Closed (n.closure X) := by
  intro s hs t hst
  obtain ⟨r, hr, hrs⟩ := (hn.mem_closure hX).1 hs
  exact (hn.mem_closure hX).2 ⟨r, hr, hrs.trans hst⟩

/-- One step of the simulation: from a closed set, a symbol and the epsilon moves after it lead
    where paths for that symbol lead. -/
theorem WellFormed.mem_closure_step_iff (hn : n.WellFormed) (hclosed : n.Closed X)
    (hc : n.alphabet.idxOf? a = some c) :
    t ∈ n.closure (n.step X c) ↔ ∃ s ∈ X, n.Path s [a] t := by
  rw [hn.mem_closure hn.step_lt]
  simp only [path_cons_iff, step, StateSet.mem_biUnion]
  constructor
  · rintro ⟨r, ⟨s, hs, hr⟩, hrt⟩
    exact ⟨s, hs, s, r, .refl s, ⟨c, hc, hr⟩, hrt⟩
  · rintro ⟨s, hs, q, r, hq, ⟨column, hcolumn, hr⟩, hrt⟩
    obtain rfl : column = c := Option.some.inj (hcolumn.symm.trans hc)
    exact ⟨r, ⟨q, hclosed s hs q hq, hr⟩, hrt⟩

theorem not_path_of_idxOf?_eq_none (hc : n.alphabet.idxOf? a = none) : ¬ n.Path s (a :: w) t := by
  rw [path_cons_iff]
  rintro ⟨q, r, -, ⟨c, hc', -⟩, -⟩
  rw [hc] at hc'
  cases hc'

/-- A path from a set of states is a path for the first symbol and a path from where it leads. -/
theorem exists_path_cons_iff :
    (∃ s ∈ X, n.Path s (a :: w) t) ↔ ∃ r, (∃ s ∈ X, n.Path s [a] r) ∧ n.Path r w t := by
  have hsplit : ∀ s, n.Path s (a :: w) t ↔ ∃ r, n.Path s [a] r ∧ n.Path r w t := fun s =>
    path_append_iff (v := [a])
  simp only [hsplit]
  constructor
  · rintro ⟨s, hs, r, hr, hpath⟩
    exact ⟨r, ⟨s, hs, hr⟩, hpath⟩
  · rintro ⟨r, ⟨s, hs, hr⟩, hpath⟩
    exact ⟨s, hs, r, hr, hpath⟩

/-- While a word is read from a closed set, the states that are kept are those to which paths for
    the word lead from the set. -/
theorem WellFormed.mem_scanFrom_iff (hn : n.WellFormed) (hclosed : n.Closed X) :
    (∃ Y, n.scanFrom X w = some Y ∧ t ∈ Y) ↔ ∃ s ∈ X, n.Path s w t := by
  induction w generalizing X with
  | nil =>
    simp only [scanFrom, Option.some.injEq, exists_eq_left']
    constructor
    · exact fun ht => ⟨t, ht, .refl t⟩
    · rintro ⟨s, hs, hpath⟩
      exact hclosed s hs t hpath
  | cons a w ih =>
    rw [scanFrom]
    cases hc : n.alphabet.idxOf? a with
    | none => simp [not_path_of_idxOf?_eq_none hc]
    | some c =>
      have hstep := fun r => hn.mem_closure_step_iff (t := r) hclosed hc
      simp only [exists_path_cons_iff, ← hstep]
      split
      · next hempty =>
        -- an empty step has no path after it
        have hnone : ∀ r, r ∉ n.closure (n.step X c) := by
          intro r hr
          obtain ⟨q, hq, -⟩ := (hn.mem_closure hn.step_lt).1 hr
          exact StateSet.isEmpty_iff.1 hempty q hq
        simp [hnone]
      · exact ih (hn.closed_closure hn.step_lt)

/-- A simulation that stops early accepts the words that label a path to an accepting state. -/
theorem WellFormed.scan_iff (hn : n.WellFormed) :
    n.scan w = true ↔ ∃ t ∈ n.accepting, n.Path n.start w t := by
  have hkept : ∀ t, (∃ Y, n.scanFrom (n.closure (.single n.start)) w = some Y ∧ t ∈ Y) ↔
      n.Path n.start w t := by
    intro t
    rw [hn.mem_scanFrom_iff (hn.closed_closure hn.lt_of_mem_single_start)]
    simp only [hn.mem_closure hn.lt_of_mem_single_start, StateSet.mem_single, exists_eq_left]
    constructor
    · rintro ⟨s, hs, hpath⟩
      exact hs.trans hpath
    · exact fun hpath => ⟨n.start, .refl _, hpath⟩
  rw [scan, Option.any_eq_true]
  simp only [anyAccepting, StateSet.meets_iff, ← hkept]
  constructor
  · rintro ⟨Y, hY, t, ht, hmem⟩
    exact ⟨t, ht, Y, hY, hmem⟩
  · rintro ⟨t, ht, Y, hY, hmem⟩
    exact ⟨Y, hY, t, ht, hmem⟩

/-- A run that comes to a symbol from outside the alphabet rejects, whatever was read before. -/
theorem acceptsFrom_eq_false_of_not_mem (h : ∃ x ∈ w, x ∉ n.alphabet) :
    n.acceptsFrom X w = false := by
  induction w generalizing X with
  | nil => simp at h
  | cons a w ih =>
    rw [acceptsFrom]
    cases hc : n.alphabet.idxOf? a with
    | none => rfl
    | some c =>
      have ha : a ∈ n.alphabet := Alphabet.mem_of_idxOf? hc
      obtain ⟨x, hx, hnot⟩ := h
      rcases List.mem_cons.1 hx with rfl | hx
      · exact absurd ha hnot
      · exact ih ⟨x, hx, hnot⟩

end Nfa

/-! ## The only path -/

namespace Dfa

variable {d : Dfa} {s t u : Nat} {w : List String}

/-- `d.Path s w t`: the word `w` labels a path from state `s` to state `t`. -/
inductive Path (d : Dfa) : Nat → List String → Nat → Prop
  | refl (s : Nat) : Path d s [] s
  | symbol {s t u c : Nat} {a : String} {w : List String} :
      d.alphabet.idxOf? a = some c → d.move s c = some t → Path d t w u → Path d s (a :: w) u

/-- A run follows the path for its word, and is undefined if there is none. -/
theorem run_eq_some_iff : d.run s w = some t ↔ d.Path s w t := by
  constructor
  · intro h
    induction w generalizing s with
    | nil =>
      cases h
      exact .refl _
    | cons a w ih =>
      rw [run_cons] at h
      obtain ⟨r, hr, hrun⟩ := Option.bind_eq_some_iff.1 h
      obtain ⟨c, hc, hmove⟩ := next_eq_some_iff.1 hr
      exact .symbol hc hmove (ih hrun)
  · intro h
    induction h with
    | refl => rfl
    | symbol hc hmove _ ih => rw [run_cons, next_eq_some_iff.2 ⟨_, hc, hmove⟩, Option.bind_some, ih]

theorem Path.unique (h : d.Path s w t) (h' : d.Path s w u) : t = u :=
  Option.some.inj ((run_eq_some_iff.2 h).symm.trans (run_eq_some_iff.2 h'))

theorem accepts_iff_exists_path : d.accepts w = true ↔ ∃ t ∈ d.accepting, d.Path d.start w t := by
  rw [accepts, acceptsFrom_iff]
  simp only [run_eq_some_iff]
  exact exists_congr fun t => and_comm

end Dfa

namespace Automaton

/-- A nondeterministic automaton accepts the words that label a path from the start to an accepting
    state, with any epsilon moves between the symbols, whether or not the simulation stops early. A
    deterministic one accepts the words whose only path is defined and ends in an accepting state,
    which is what it accepts when it is seen as a nondeterministic one. A word with a symbol from
    outside the alphabet is rejected. -/
theorem simulation_follows_paths :
    (∀ n : Nfa, n.WellFormed → ∀ w,
      (n.accepts w = true ↔ ∃ t ∈ n.accepting, n.Path n.start w t) ∧
        (n.scan w = true ↔ ∃ t ∈ n.accepting, n.Path n.start w t)) ∧
    (∀ (d : Dfa) (w : List String),
      (∀ t u, d.Path d.start w t → d.Path d.start w u → t = u) ∧
        (d.accepts w = true ↔ ∃ t ∈ d.accepting, d.Path d.start w t)) ∧
    (∀ d : Dfa, d.WellFormed → ∀ w, d.accepts w = d.toNfa.accepts w) ∧
    ∀ (a : Automaton) (w : List String), (∃ x ∈ w, x ∉ a.alphabet) → a.accepts w = false := by
  refine ⟨fun n hn w => ⟨hn.accepts_iff, hn.scan_iff⟩, fun d w => ⟨?_, Dfa.accepts_iff_exists_path⟩,
    fun d hd w => ?_, fun a w hw => ?_⟩
  · exact fun t u ht hu => ht.unique hu
  · have ha : WellFormed d := hd
    exact ha.accepts_toNfa.symm
  · cases a with
    | nfa n => exact Nfa.acceptsFrom_eq_false_of_not_mem hw
    | dfa d =>
      rw [Bool.eq_false_iff]
      intro h
      obtain ⟨x, hx, hnot⟩ := hw
      exact hnot (Dfa.mem_alphabet_of_acceptsFrom h x hx)

/-- Two states that epsilon moves join in both directions, and a deterministic automaton with an
    undefined move. -/
theorem simulation_follows_paths_cycle :
    let states := ((Nfa.new (.single "a") "p").addState "q").addEpsilon 0 1
    let n := ((states.addEpsilon 1 0).addMove 1 0 0).setAccepting 1 true
    let d := (((Dfa.new (.single "a") "p").addState "q").setMove 0 0 (some 1)).setAccepting 1 true
    (∃ t ∈ n.accepting, n.Path n.start ["a", "a"] t) ∧ n.accepts ["a", "b"] = false ∧
      (∃ t ∈ d.accepting, d.Path d.start ["a"] t) ∧
      d.accepts ["a", "a"] = d.toNfa.accepts ["a", "a"] := by
  intro states n d
  have hstates : states.WellFormed :=
    (Nfa.wellFormed_new.addState _).addEpsilon 0 (by decide)
  have hn : n.WellFormed :=
    ((hstates.addEpsilon 1 (by decide)).addMove 1 0 (by decide)).setAccepting (by decide) true
  have hd : d.WellFormed :=
    ((Dfa.wellFormed_new.addState _).setMove 0 0 (by decide)).setAccepting (by decide) true
  obtain ⟨hnfa, hdfa, hsame, hunknown⟩ := simulation_follows_paths
  refine ⟨((hnfa n hn _).2).1 (by decide), ?_, ?_, hsame d hd _⟩
  · exact hunknown n _ ⟨"b", by decide, (by decide : "b" ∉ n.alphabet.symbols)⟩
  · exact (hdfa d _).2.1 (by decide)

end Automaton

end Acceptors
