import Mathlib.Computability.Language
import Acceptors.Nfa.Path

/-!
# The words of a state

A word belongs to a state if it labels a path from the state to an accepting one. Moves are named
here by the text of their symbol, not by its column, so that automata over different alphabets can
be compared.

Results:
* `Nfa.RecognizesFrom.induct`: induction over the moves that lead to acceptance.
* `Nfa.path_cons_iff`: the first symbol of a path.
* `Nfa.recognizesFrom_nil_iff`, `Nfa.recognizesFrom_cons_iff`: the words of a state, letter by
  letter.
* `Nfa.WellFormed.accepts_iff`: a run accepts the words that the paths recognize.
-/

namespace Acceptors

namespace Nfa

variable {n : Nfa} {s t : Nat} {a : String} {w : List String}

/-- `n.Moves s a t`: the state `s` has a move to `t` on the symbol `a`. -/
def Moves (n : Nfa) (s : Nat) (a : String) (t : Nat) : Prop :=
  ∃ c, n.alphabet.idxOf? a = some c ∧ t ∈ n.targets s c

/-- The word labels a path from the state `s` to an accepting state. -/
def RecognizesFrom (n : Nfa) (s : Nat) (w : List String) : Prop :=
  ∃ t ∈ n.accepting, n.Path s w t

/-- The words that an automaton recognizes. -/
def language (n : Nfa) : Language String := fun w => n.RecognizesFrom n.start w

theorem mem_language : w ∈ n.language ↔ n.RecognizesFrom n.start w := Iff.rfl

/-! ## Building and taking apart -/

theorem RecognizesFrom.nil (h : s ∈ n.accepting) : n.RecognizesFrom s [] := ⟨s, h, .refl s⟩

theorem RecognizesFrom.epsilon (ht : t ∈ n.epsilonTargets s) (h : n.RecognizesFrom t w) :
    n.RecognizesFrom s w := by
  obtain ⟨u, hu, hpath⟩ := h
  exact ⟨u, hu, .epsilon ht hpath⟩

theorem RecognizesFrom.cons (ht : n.Moves s a t) (h : n.RecognizesFrom t w) :
    n.RecognizesFrom s (a :: w) := by
  obtain ⟨c, hc, ht⟩ := ht
  obtain ⟨u, hu, hpath⟩ := h
  exact ⟨u, hu, .symbol hc ht hpath⟩

/-- What holds of accepting states with the empty word, and is passed backwards along every move,
    holds of every state with each of its words. -/
theorem RecognizesFrom.induct {P : Nat → List String → Prop}
    (accepting : ∀ s ∈ n.accepting, P s [])
    (epsilon : ∀ s t w, t ∈ n.epsilonTargets s → P t w → P s w)
    (move : ∀ s a t w, n.Moves s a t → P t w → P s (a :: w))
    (h : n.RecognizesFrom s w) : P s w := by
  obtain ⟨u, hu, hpath⟩ := h
  induction hpath with
  | refl s => exact accepting s hu
  | epsilon ht _ ih => exact epsilon _ _ _ ht (ih hu)
  | symbol hc ht _ ih => exact move _ _ _ _ ⟨_, hc, ht⟩ (ih hu)

/-- If `f` keeps the moves of an automaton, and where it takes the accepting states `v` is
    recognized, then where it takes any state, a word of that state followed by `v` is
    recognized. -/
theorem RecognizesFrom.append {m : Nfa} {f : Nat → Nat} {v : List String}
    (haccepting : ∀ s ∈ n.accepting, m.RecognizesFrom (f s) v)
    (hepsilon : ∀ s t, t ∈ n.epsilonTargets s → f t ∈ m.epsilonTargets (f s))
    (hmoves : ∀ s a t, n.Moves s a t → m.Moves (f s) a (f t)) (h : n.RecognizesFrom s w) :
    m.RecognizesFrom (f s) (w ++ v) := by
  refine h.induct (P := fun s w => m.RecognizesFrom (f s) (w ++ v)) haccepting ?_ ?_
  · exact fun s t w ht ih => ih.epsilon (hepsilon s t ht)
  · exact fun s a t w ht ih => ih.cons (hmoves s a t ht)

theorem recognizesFrom_nil_iff :
    n.RecognizesFrom s [] ↔ ∃ t ∈ n.accepting, n.Path s [] t := Iff.rfl

/-- A path for a word that is not empty has a move on the first symbol, after some epsilon moves. -/
theorem path_cons_iff {u : Nat} :
    n.Path s (a :: w) u ↔ ∃ r t, n.Path s [] r ∧ n.Moves r a t ∧ n.Path t w u := by
  constructor
  · intro hpath
    generalize hv : a :: w = v at hpath
    induction hpath with
    | refl => cases hv
    | epsilon ht _ ih =>
      obtain ⟨r, t, hr, ht', h⟩ := ih hv
      exact ⟨r, t, .epsilon ht hr, ht', h⟩
    | @symbol s t u c b v hc ht hpath _ =>
      obtain ⟨rfl, rfl⟩ := List.cons.inj hv
      exact ⟨s, t, .refl s, ⟨c, hc, ht⟩, hpath⟩
  · rintro ⟨r, t, hr, ⟨c, hc, ht⟩, hpath⟩
    exact hr.trans (.symbol hc ht hpath)

/-- A word that is not empty is read by a move on its first symbol, after some epsilon moves. -/
theorem recognizesFrom_cons_iff :
    n.RecognizesFrom s (a :: w) ↔
      ∃ r t, n.Path s [] r ∧ n.Moves r a t ∧ n.RecognizesFrom t w := by
  simp only [RecognizesFrom, path_cons_iff]
  constructor
  · rintro ⟨u, hu, r, t, hr, ht, hpath⟩
    exact ⟨r, t, hr, ht, u, hu, hpath⟩
  · rintro ⟨r, t, hr, ht, u, hu, hpath⟩
    exact ⟨u, hu, r, t, hr, ht, hpath⟩

/-- Without epsilon moves, the words of a state are read by its own moves. -/
theorem path_nil_iff_of_forall_not_mem (h : ∀ s t, t ∉ n.epsilonTargets s) :
    n.Path s [] t ↔ s = t := by
  constructor
  · intro hpath
    cases hpath with
    | refl => rfl
    | epsilon ht _ => exact absurd ht (h _ _)
  · rintro rfl
    exact .refl s

/-! ## Runs -/

theorem WellFormed.moves_lt (hn : n.WellFormed) (h : n.Moves s a t) : t < n.size := by
  obtain ⟨c, -, ht⟩ := h
  exact hn.targets_lt s c t ht

theorem WellFormed.path_lt (hn : n.WellFormed) (hs : s < n.size) (h : n.Path s w t) :
    t < n.size := by
  induction h with
  | refl => exact hs
  | epsilon ht _ ih => exact ih (hn.epsilonTargets_lt _ _ ht)
  | symbol _ ht _ ih => exact ih (hn.targets_lt _ _ _ ht)

/-- A run from the closure of a set accepts the words of the members of the set. -/
theorem WellFormed.acceptsFrom_closure_iff (hn : n.WellFormed) {X : StateSet}
    (hX : ∀ s ∈ X, s < n.size) :
    n.acceptsFrom (n.closure X) w = true ↔ ∃ s ∈ X, n.RecognizesFrom s w := by
  induction w generalizing X with
  | nil =>
    simp only [acceptsFrom, anyAccepting, StateSet.meets_iff, hn.mem_closure hX,
      recognizesFrom_nil_iff]
    constructor
    · rintro ⟨t, ht, s, hs, hpath⟩
      exact ⟨s, hs, t, ht, hpath⟩
    · rintro ⟨s, hs, t, ht, hpath⟩
      exact ⟨t, ht, s, hs, hpath⟩
  | cons a w ih =>
    simp only [acceptsFrom, recognizesFrom_cons_iff, Moves]
    cases hc : n.alphabet.idxOf? a with
    | none => simp
    | some c =>
      have hlt : ∀ t ∈ n.step (n.closure X) c, t < n.size := by
        intro t ht
        obtain ⟨s, -, ht⟩ := StateSet.mem_biUnion.1 ht
        exact hn.targets_lt s c t ht
      rw [ih hlt]
      simp only [step, StateSet.mem_biUnion, hn.mem_closure hX, Option.some.injEq,
        exists_eq_left']
      constructor
      · rintro ⟨t, ⟨r, ⟨s, hs, hr⟩, ht⟩, h⟩
        exact ⟨s, hs, r, t, hr, ht, h⟩
      · rintro ⟨s, hs, r, t, hr, ht, h⟩
        exact ⟨t, ⟨r, ⟨s, hs, hr⟩, ht⟩, h⟩

theorem WellFormed.lt_of_mem_single_start (hn : n.WellFormed) :
    ∀ s ∈ StateSet.single n.start, s < n.size :=
  StateSet.forall_mem_single.2 hn.start_lt

/-- A run accepts the words that the paths recognize. -/
theorem WellFormed.accepts_iff (hn : n.WellFormed) : n.accepts w = true ↔ w ∈ n.language := by
  rw [accepts, hn.acceptsFrom_closure_iff hn.lt_of_mem_single_start]
  simp only [StateSet.mem_single, exists_eq_left, mem_language]

end Nfa

end Acceptors
