import Acceptors.Dfa.Subset
import Acceptors.Proofs.Alike.Nondeterministic
import Acceptors.Proofs.Dfa.Restricted
import Acceptors.Proofs.Minimal.Merged

/-!
# Deterministic automata that differ in names only

Completion, restriction and subset construction number the states that they make by what the tables
hold, and minimization merges states by what their words are. So from alike automata these make
alike automata as well, though a merged state is called by the names of its members.

Results:
* `Dfa.Alike`, `Dfa.WellFormed.alike_iff`: alike automata, table by table and move by move.
* `Dfa.Alike.accepts_eq`: alike automata accept the same words.
* `Dfa.Alike.complete`, `Dfa.Alike.restrict`: completion and restriction.
* `Nfa.Alike.determinize`, `Nfa.Alike.toDfa`: subset construction.
* `Dfa.Alike.minimize`: minimization.
-/

namespace Acceptors

namespace Dfa

/-- The automata agree on everything but the names of their states. -/
structure Alike (a b : Dfa) : Prop where
  alphabet_eq : a.alphabet = b.alphabet
  size_eq : a.size = b.size
  moves_eq : a.moves = b.moves
  start_eq : a.start = b.start
  accepting_eq : a.accepting = b.accepting

variable {a b : Dfa}

/-- Alike automata are the same with other names. -/
theorem Alike.exists_eq (h : a.Alike b) :
    ∃ names : StateNames, a.size = names.size ∧ b = { a with names := names } := by
  obtain ⟨alphabet, names, moves, start, accepting⟩ := b
  obtain ⟨rfl, hsize, rfl, rfl, rfl⟩ := h
  exact ⟨names, hsize, rfl⟩

/-- Tables that the same function fills are alike, whatever names they are given. -/
theorem alike_ofFn {alphabet : Alphabet} {names names' : StateNames}
    {move : Nat → Nat → Option Nat} {start : Nat} {accepting : StateSet}
    (hsize : names.size = names'.size) :
    (ofFn alphabet names move start accepting).Alike
      (ofFn alphabet names' move start accepting) :=
  ⟨rfl, hsize, congrArg (Grid.ofFn · alphabet.size move) hsize, rfl, rfl⟩

/-- Automata with tables of the right shape are alike if they agree on every single move. -/
theorem WellFormed.alike_iff (ha : a.WellFormed) (hb : b.WellFormed) :
    a.Alike b ↔ a.alphabet = b.alphabet ∧ a.size = b.size ∧
      (∀ s c, a.move s c = b.move s c) ∧ a.start = b.start ∧ a.accepting = b.accepting := by
  constructor
  · intro h
    obtain ⟨names, hsize, rfl⟩ := h.exists_eq
    exact ⟨rfl, hsize, fun _ _ => rfl, rfl, rfl⟩
  · rintro ⟨halphabet, hsize, hmove, hstart, haccepting⟩
    exact ⟨halphabet, hsize, ha.moves_eq_of_move hb halphabet hsize hmove, hstart, haccepting⟩

/-- Alike automata accept the same words. -/
theorem Alike.accepts_eq (h : a.Alike b) (w : List String) : a.accepts w = b.accepts w := by
  have hrun : ∀ s, a.run s w = b.run s w := by
    obtain ⟨names, -, rfl⟩ := h.exists_eq
    induction w with
    | nil => exact fun _ => rfl
    | cons x w ih =>
      intro s
      rw [run_cons, run_cons, funext ih]
      rfl
  have haccepting : a.isAccepting = b.isAccepting := by
    funext s
    rw [isAccepting, isAccepting, h.accepting_eq]
  rw [accepts, accepts, acceptsFrom, acceptsFrom, hrun, h.start_eq, haccepting]

/-! ## Completion and restriction -/

theorem Alike.toNfa (h : a.Alike b) : a.toNfa.Alike b.toNfa := by
  obtain ⟨names, hsize, rfl⟩ := h.exists_eq
  exact Nfa.alike_ofFn hsize

theorem Alike.complete (h : a.Alike b) (sinkName sinkName' : String) :
    (a.complete sinkName).Alike (b.complete sinkName') := by
  have hcomplete : a.isComplete = b.isComplete := by rw [isComplete, isComplete, h.moves_eq]
  rw [Dfa.complete, Dfa.complete, hcomplete]
  split
  · exact h
  · obtain ⟨names, hsize, rfl⟩ := h.exists_eq
    rw [hsize]
    refine alike_ofFn ?_
    rw [StateNames.size_insert, StateNames.size_insert]
    exact congrArg (· + 1) hsize

theorem Alike.flip (h : a.Alike b) : a.flip.Alike b.flip := by
  obtain ⟨names, hsize, rfl⟩ := h.exists_eq
  exact ⟨rfl, hsize, rfl, rfl, congrArg (StateSet.below · _) hsize⟩

theorem Alike.complement (h : a.Alike b) (config config' : Config) :
    (a.complement config).Alike (b.complement config') :=
  (h.complete config.sinkName config'.sinkName).flip

theorem Alike.widen (h : a.Alike b) (alphabet : Alphabet) :
    (a.widen alphabet).Alike (b.widen alphabet) := by
  obtain ⟨names, hsize, rfl⟩ := h.exists_eq
  refine ⟨rfl, hsize, ?_, rfl, rfl⟩
  exact congrArg (Grid.ofFn · alphabet.size fun s c =>
    ((alphabet.columnsIn a.alphabet)[c]?.join).bind (a.move s)) hsize

/-- The same numbering of the same states of alike automata. -/
theorem Alike.renumber (h : a.Alike b) {names names' : StateNames}
    (hsize : names.size = names'.size) (old : List Nat) (number : Nat → Option Nat)
    (start : Nat) :
    (a.renumber names old number start).Alike (b.renumber names' old number start) := by
  obtain ⟨_, -, rfl⟩ := h.exists_eq
  exact alike_ofFn hsize

theorem Alike.restrict (h : a.Alike b) (keep : StateSet) :
    (a.restrict keep).Alike (b.restrict keep) := by
  have hkept : a.kept keep = b.kept keep := by rw [kept, kept, h.size_eq]
  have hsize : (a.restrict keep).size = (b.restrict keep).size := by
    rw [size_restrict, size_restrict, hkept]
  rw [restrict_eq, restrict_eq, ← hkept, ← h.start_eq]
  exact h.renumber hsize _ _ _

theorem Alike.reachable_eq (h : a.Alike b) : a.reachable = b.reachable := by
  obtain ⟨names, hsize, rfl⟩ := h.exists_eq
  exact congrArg (Search.reach · a.successors [a.start]) hsize

theorem Alike.productive_eq (h : a.Alike b) : a.productive = b.productive := by
  obtain ⟨names, hsize, rfl⟩ := h.exists_eq
  simp only [productive, hsize]
  rfl

end Dfa

/-! ## Subset construction -/

namespace Nfa

variable {a b : Nfa}

theorem Alike.subsets_eq (h : a.Alike b) : a.subsets = b.subsets := by
  obtain ⟨names, hsize, rfl⟩ := h.exists_eq
  exact congrArg (fun size => discover (a.stepRow a.moveLists) (1 <<< size) 0
    (.insert .empty (.single a.start))) hsize

theorem Alike.determinize (h : a.Alike b) (config config' : Config) :
    (a.determinize config).Alike (b.determinize config') := by
  have hfree := h.epsilonFree
  have hsubsets := hfree.subsets_eq
  rw [Nfa.determinize, Nfa.determinize]
  generalize a.epsilonFree = a at hfree hsubsets
  generalize b.epsilonFree = b at hfree hsubsets
  obtain ⟨names, hsize, rfl⟩ := hfree.exists_eq
  simp only [← hsubsets]
  refine Dfa.alike_ofFn ?_
  rw [StateNames.size_numbered, StateNames.size_numbered]

theorem Alike.obstacle?_eq (h : a.Alike b) : a.obstacle? = b.obstacle? := by
  obtain ⟨names, hsize, rfl⟩ := h.exists_eq
  simp only [obstacle?, hsize]
  rfl

theorem Alike.toDfa (h : a.Alike b) (config config' : Config) :
    (a.toDfa config).Alike (b.toDfa config') := by
  have hobstacle := h.obstacle?_eq
  rw [Nfa.toDfa, Nfa.toDfa, toDfa?, toDfa?, ← hobstacle]
  cases a.obstacle? with
  | some s => exact h.determinize config config'
  | none =>
    obtain ⟨names, hsize, rfl⟩ := h.exists_eq
    exact Dfa.alike_ofFn hsize

end Nfa

/-! ## Minimization -/

namespace Dfa

variable {a b : Dfa}

theorem Alike.moveLists_eq (h : a.Alike b) :
    PairTable.moveLists a = PairTable.moveLists b := by
  obtain ⟨names, hsize, rfl⟩ := h.exists_eq
  exact ofFn_val_congr hsize fun s => (List.range a.alphabet.size).map (a.move s)

theorem Alike.initial_eq (h : a.Alike b) :
    PairTable.Filling.initial a = PairTable.Filling.initial b := by
  obtain ⟨names, hsize, rfl⟩ := h.exists_eq
  exact congrArg (fun size => PairTable.Filling.mk
    (.ofFn fun p : Fin (size * size) => decide (p.val / size < p.val % size) &&
      a.isAccepting (p.val / size) != a.isAccepting (p.val % size))
    (.replicate (size * size) [])) hsize

/-- States of the same numbers are told apart. -/
theorem Alike.fill_eq (h : a.Alike b) : PairTable.fill a = PairTable.fill b := by
  rw [PairTable.fill, PairTable.fill, h.initial_eq, h.moveLists_eq, h.size_eq]

theorem Alike.classes_eq (h : a.Alike b) : a.classes = b.classes := by
  rw [classes, classes, h.fill_eq, h.size_eq]

theorem Alike.roots_eq (h : a.Alike b) : a.roots = b.roots := by
  rw [roots, roots, h.classes_eq]
  exact ofFn_val_congr h.size_eq fun s => (b.classes.find s).1

theorem Alike.merge (h : a.Alike b) : a.merge.Alike b.merge := by
  have hsmallest : a.smallest = b.smallest := by rw [smallest, smallest, h.roots_eq, h.size_eq]
  have hclassOf : a.classOf = b.classOf := by
    funext s
    rw [classOf, classOf, h.roots_eq, hsmallest]
  have hsize : (StateNames.ofList (b.smallest.map a.mergedName)).size =
      (StateNames.ofList (b.smallest.map b.mergedName)).size := by
    rw [StateNames.size_ofList, StateNames.size_ofList, List.length_map, List.length_map]
  rw [merge_eq, merge_eq, hclassOf, hsmallest, h.start_eq]
  exact h.renumber hsize _ _ _

theorem Alike.prune (h : a.Alike b) : a.prune.Alike b.prune := by
  rw [Dfa.prune, Dfa.prune, ← h.productive_eq, ← h.start_eq, ← h.alphabet_eq]
  split
  · exact h.restrict a.productive
  · exact ⟨rfl, size_new.trans size_new.symm, rfl, rfl, rfl⟩

theorem Alike.minimize (h : a.Alike b) (config config' : Config) :
    (a.minimize config).Alike (b.minimize config') := by
  have hcomplete := h.complete config.sinkName config'.sinkName
  have hrestrict := hcomplete.restrict (a.complete config.sinkName).reachable
  rw [hcomplete.reachable_eq] at hrestrict
  rw [Dfa.minimize, Dfa.minimize, hcomplete.reachable_eq]
  exact hrestrict.merge.prune

end Dfa

end Acceptors
