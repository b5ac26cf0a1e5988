import Acceptors.Nfa.Combine
import Acceptors.Nfa.EpsilonFree
import Acceptors.Proofs.Nfa.Shape

/-!
# Nondeterministic automata that differ in names only

Two automata are alike if they agree on everything but the names of their states. An operation that
makes new states names them, and what it names them depends on the names that are taken already, but
nothing else does: from alike automata it makes alike automata, whatever names it is told to give.

Results:
* `Nfa.Alike`, `Nfa.WellFormed.alike_iff`: alike automata, table by table and move by move.
* `Nfa.Alike.accepts_eq`: alike automata accept the same words.
* `Nfa.alike_new`, `Nfa.Alike.addState`: automata that are built state by state.
* `Nfa.Alike.eliminateEpsilon`: elimination of epsilon moves.
* `Nfa.Alike.union`, `Nfa.Alike.concat`, `Nfa.Alike.star`: the operations that add states.
-/

namespace Acceptors

/-- An array that a function of its places fills depends on its size alone. -/
theorem ofFn_val_congr {α : Type} {m n : Nat} (h : m = n) (f : Nat → α) :
    (Array.ofFn fun i : Fin m => f i.val) = Array.ofFn fun i : Fin n => f i.val := by
  subst h
  rfl

namespace Nfa

/-- The automata agree on everything but the names of their states. -/
structure Alike (a b : Nfa) : Prop where
  alphabet_eq : a.alphabet = b.alphabet
  size_eq : a.size = b.size
  moves_eq : a.moves = b.moves
  epsilon_eq : a.epsilon = b.epsilon
  start_eq : a.start = b.start
  accepting_eq : a.accepting = b.accepting

variable {a b a' b' : Nfa}

/-- Alike automata are the same with other names. -/
theorem Alike.exists_eq (h : a.Alike b) :
    ∃ names : StateNames, a.size = names.size ∧ b = { a with names := names } := by
  obtain ⟨alphabet, names, moves, epsilon, start, accepting⟩ := b
  obtain ⟨rfl, hsize, rfl, rfl, rfl, rfl⟩ := h
  exact ⟨names, hsize, rfl⟩

/-- Alike automata with the same names are the same. -/
theorem Alike.eq_of_names_eq (h : a.Alike b) (hnames : a.names = b.names) : a = b := by
  obtain ⟨names, -, rfl⟩ := h.exists_eq
  cases a
  cases hnames
  rfl

/-- Tables that the same functions fill are alike, whatever names they are given. -/
theorem alike_ofFn {alphabet : Alphabet} {names names' : StateNames}
    {targets : Nat → Nat → StateSet} {epsilon : Nat → StateSet} {start : Nat}
    {accepting : StateSet} (hsize : names.size = names'.size) :
    (ofFn alphabet names targets epsilon start accepting).Alike
      (ofFn alphabet names' targets epsilon start accepting) where
  alphabet_eq := rfl
  size_eq := hsize
  moves_eq := congrArg (Grid.ofFn · alphabet.size targets) hsize
  epsilon_eq := ofFn_val_congr hsize epsilon
  start_eq := rfl
  accepting_eq := rfl

/-- Automata with tables of the right shape are alike if they agree on every single move. -/
theorem WellFormed.alike_iff (ha : a.WellFormed) (hb : b.WellFormed) :
    a.Alike b ↔ a.alphabet = b.alphabet ∧ a.size = b.size ∧
      (∀ s c, a.targets s c = b.targets s c) ∧ (∀ s, a.epsilonTargets s = b.epsilonTargets s) ∧
      a.start = b.start ∧ a.accepting = b.accepting := by
  constructor
  · intro h
    obtain ⟨names, hsize, rfl⟩ := h.exists_eq
    exact ⟨rfl, hsize, fun _ _ => rfl, fun _ => rfl, rfl, rfl⟩
  · rintro ⟨halphabet, hsize, htargets, hepsilon, hstart, haccepting⟩
    refine ⟨halphabet, hsize, ?_, ?_, hstart, haccepting⟩
    · have hshape : b.moves.HasShape a.size a.alphabet.size := by
        rw [hsize, halphabet]
        exact hb.shape
      exact ha.shape.eq_of_getD hshape ∅ htargets
    · refine Array.ext (by rw [ha.epsilon_size, hb.epsilon_size, hsize]) fun s hs hs' => ?_
      have hcell := hepsilon s
      rwa [epsilonTargets, epsilonTargets, Array.getElem?_eq_getElem hs,
        Array.getElem?_eq_getElem hs', Option.getD_some, Option.getD_some] at hcell

/-! ## Runs -/

theorem Alike.closure_eq (h : a.Alike b) : a.closure = b.closure := by
  obtain ⟨names, hsize, rfl⟩ := h.exists_eq
  funext X
  exact congrArg (Search.reach · _ _) hsize

/-- Alike automata accept the same words. -/
theorem Alike.accepts_eq (h : a.Alike b) (w : List String) : a.accepts w = b.accepts w := by
  have hclosure := h.closure_eq
  have hfrom : ∀ X, a.acceptsFrom X w = b.acceptsFrom X w := by
    obtain ⟨names, -, rfl⟩ := h.exists_eq
    induction w with
    | nil => exact fun _ => rfl
    | cons x w ih =>
      intro X
      rw [acceptsFrom, acceptsFrom]
      cases a.alphabet.idxOf? x with
      | none => rfl
      | some c =>
        show a.acceptsFrom (a.closure (a.step X c)) w = _
        rw [ih, hclosure]
        rfl
  rw [accepts, accepts, hfrom, hclosure, h.start_eq]

/-! ## Building state by state -/

theorem alike_new {alphabet : Alphabet} (name name' : String) :
    (new alphabet name).Alike (new alphabet name') :=
  ⟨rfl, size_new.trans size_new.symm, rfl, rfl, rfl, rfl⟩

theorem Alike.addState (h : a.Alike b) (name name' : String) :
    (a.addState name).Alike (b.addState name') := by
  obtain ⟨names, hsize, rfl⟩ := h.exists_eq
  refine ⟨rfl, ?_, rfl, rfl, rfl, rfl⟩
  rw [size_addState, size_addState, hsize]
  rfl

theorem Alike.addMove (h : a.Alike b) (source column target : Nat) :
    (a.addMove source column target).Alike (b.addMove source column target) := by
  obtain ⟨names, hsize, rfl⟩ := h.exists_eq
  exact ⟨rfl, hsize, rfl, rfl, rfl, rfl⟩

theorem Alike.setAccepting (h : a.Alike b) (state : Nat) (accepts : Bool) :
    (a.setAccepting state accepts).Alike (b.setAccepting state accepts) := by
  obtain ⟨names, hsize, rfl⟩ := h.exists_eq
  exact ⟨rfl, hsize, rfl, rfl, rfl, rfl⟩

/-! ## Elimination of epsilon moves -/

theorem Alike.closures_eq (h : a.Alike b) : a.closures = b.closures := by
  rw [Nfa.closures_eq, Nfa.closures_eq, h.closure_eq]
  exact ofFn_val_congr h.size_eq fun s => b.closure (.single s)

theorem Alike.eliminateEpsilon (h : a.Alike b) : a.eliminateEpsilon.Alike b.eliminateEpsilon := by
  have hclosures := h.closures_eq
  obtain ⟨names, hsize, rfl⟩ := h.exists_eq
  simp only [Nfa.eliminateEpsilon, ← hclosures, hsize]
  exact alike_ofFn hsize

theorem Alike.hasEpsilonMoves_eq (h : a.Alike b) : a.hasEpsilonMoves = b.hasEpsilonMoves := by
  rw [hasEpsilonMoves, hasEpsilonMoves, h.epsilon_eq]

theorem Alike.epsilonFree (h : a.Alike b) : a.epsilonFree.Alike b.epsilonFree := by
  rw [Nfa.epsilonFree, Nfa.epsilonFree, h.hasEpsilonMoves_eq]
  split
  · exact h.eliminateEpsilon
  · exact h

/-! ## Union, concatenation and star -/

theorem Alike.widen (h : a.Alike b) (alphabet : Alphabet) :
    (a.widen alphabet).Alike (b.widen alphabet) := by
  obtain ⟨names, hsize, rfl⟩ := h.exists_eq
  refine ⟨rfl, hsize, ?_, rfl, rfl, rfl⟩
  exact congrArg (Grid.ofFn · alphabet.size fun s c =>
    ((alphabet.columnsIn a.alphabet)[c]?.join).elim ∅ (a.targets s)) hsize

theorem Alike.join (h : a.Alike b) (h' : a'.Alike b') : (a.join a').Alike (b.join b') := by
  have hwiden := (h'.widen (a.alphabet.union a'.alphabet)).moves_eq
  refine ⟨?_, ?_, ?_, ?_, h.start_eq, h.accepting_eq⟩
  · simp only [Nfa.join, h.alphabet_eq, h'.alphabet_eq]
  · show (a.names.insertAll a'.names.toList).size = (b.names.insertAll b'.names.toList).size
    rw [StateNames.size_insertAll, StateNames.size_insertAll, StateNames.length_toList,
      StateNames.length_toList]
    exact congrArg₂ (· + ·) h.size_eq h'.size_eq
  · simp only [Nfa.join, ← h.alphabet_eq, ← h'.alphabet_eq, hwiden, h.moves_eq, h.size_eq]
  · simp only [Nfa.join, h.epsilon_eq, h'.epsilon_eq, h.size_eq]

/-- Alike automata stay alike if the same epsilon moves are added and the start and the accepting
    states are changed in the same way. -/
theorem Alike.linked (h : a.Alike b) (extra : Nat → StateSet) (start : Nat)
    (accepting : StateSet) :
    { a.addEpsilons extra with start := start, accepting := accepting }.Alike
      { b.addEpsilons extra with start := start, accepting := accepting } := by
  obtain ⟨names, hsize, rfl⟩ := h.exists_eq
  exact ⟨rfl, hsize, rfl, ofFn_val_congr hsize fun s => (a.epsilonTargets s).union (extra s),
    rfl, rfl⟩

theorem Alike.union (h : a.Alike b) (h' : a'.Alike b') (config config' : Config) :
    (a.union config a').Alike (b.union config' b') := by
  have hjoin := h.join h'
  simp only [Nfa.union, ← hjoin.size_eq, ← h.size_eq, ← h.start_eq, ← h'.start_eq,
    ← h.accepting_eq, ← h'.accepting_eq]
  exact ((hjoin.addState _ _).addState _ _).linked _ _ _

theorem Alike.concat (h : a.Alike b) (h' : a'.Alike b') : (a.concat a').Alike (b.concat b') := by
  have hlinked := (h.join h').linked (fun s =>
    if s ∈ a.accepting then .single (a'.start + a.size) else ∅) a.start (a'.accepting.shift a.size)
  simp only [Nfa.concat, ← h.size_eq, ← h'.start_eq, ← h.accepting_eq, ← h'.accepting_eq]
  exact ⟨hlinked.alphabet_eq, hlinked.size_eq, hlinked.moves_eq, hlinked.epsilon_eq, h.start_eq,
    hlinked.accepting_eq⟩

theorem Alike.star (h : a.Alike b) (config config' : Config) :
    (a.star config).Alike (b.star config') := by
  simp only [Nfa.star, ← h.size_eq, ← h.start_eq, ← h.accepting_eq]
  exact ((h.addState _ _).addState _ _).linked _ _ _

end Nfa

end Acceptors
