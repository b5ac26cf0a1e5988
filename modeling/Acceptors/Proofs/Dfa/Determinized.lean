import Acceptors.Proofs.Dfa.Discovered
import Acceptors.Proofs.Nfa.Combined

/-!
# The states of the subset construction

The states of a determinized automaton are the sets of states that words lead to, one state for each
set, and the empty set has none. They are numbered by the first of the words that lead to them.

Results:
* `Nfa.IsSubsetConstruction`: what it means that the states of an automaton are sets of states of
  another.
* `Dfa.FirstWord`: the first of the words that lead to a state.
* `Nfa.WellFormed.run_determinize_iff`: a word leads to the number of its set.
* `Nfa.WellFormed.determinize_exact`: the language, the states and their numbers.
-/

namespace Acceptors

namespace Dfa

/-- `w` comes before all other words that lead to the state `i`. -/
structure FirstWord (d : Dfa) (i : Nat) (w : List String) : Prop where
  run_eq : d.run d.start w = some i
  eq_or_precedes : ∀ v, d.run d.start v = some i → w = v ∨ d.alphabet.Precedes w v

theorem FirstWord.unique {d : Dfa} {i : Nat} {v w : List String} (hv : d.FirstWord i v)
    (hw : d.FirstWord i w) : v = w := by
  rcases hv.eq_or_precedes w hw.run_eq with h | hvw
  · exact h
  · rcases hw.eq_or_precedes v hv.run_eq with h | hwv
    · exact h.symm
    · exact absurd hwv hvw.asymm

end Dfa

namespace Nfa

variable {n : Nfa} {config : Config} {X : StateSet} {i j : Nat} {a : String} {v w : List String}

/-- The states of `d` are the given sets of states of `e`, whose epsilon moves are left aside. -/
structure IsSubsetConstruction (e : Nfa) (d : Dfa) (sets : List StateSet) : Prop where
  /-- There is one state for each set. -/
  length_eq : sets.length = d.size
  nodup : sets.Nodup
  /-- The sets are those that words lead to, the empty one excepted. -/
  mem_iff : ∀ X, X ∈ sets ↔ X.isEmpty = false ∧ ∃ w, e.setAfter w = X
  /-- The first set is that of the start state alone. -/
  start : sets[d.start]? = some (.single e.start)
  /-- A symbol leads to the set of the targets of all members. -/
  next_iff : ∀ i X, sets[i]? = some X → ∀ a j, d.next i a = some j ↔ sets[j]? = some (e.nextSet X a)
  /-- Nothing but the lack of targets leaves a move undefined. -/
  next_none_iff : ∀ i X, sets[i]? = some X → ∀ a,
    d.next i a = none ↔ (e.nextSet X a).isEmpty = true
  /-- A set accepts if one of its members does. -/
  accepting_iff : ∀ i X, sets[i]? = some X →
    (d.isAccepting i = true ↔ ∃ s ∈ X, e.isAccepting s = true)

/-! ## Sets that are found -/

theorem isEmpty_of_mem_subsets : ∀ X ∈ n.subsets.toList, X.isEmpty = false := by
  refine forall_mem_discover (fun X _ Y hY => (mem_expansion_iff.1 hY).1) fun X hX => ?_
  rcases Numbering.mem_insert.1 hX with hX | rfl
  · cases hX
  · rw [Bool.eq_false_iff]
    exact fun hempty => StateSet.isEmpty_iff.1 hempty n.start (StateSet.mem_single.2 rfl)

theorem isEmpty_of_get?_subsets (h : n.subsets.get? i = some X) : X.isEmpty = false :=
  isEmpty_of_mem_subsets X (Numbering.mem_toList_iff.2 ⟨i, h⟩)

/-- The sets that are found are those that words lead to, the empty one excepted. -/
theorem WellFormed.mem_subsets_iff (hn : n.WellFormed) :
    X ∈ n.subsets.toList ↔ X.isEmpty = false ∧ ∃ w, n.setAfter w = X := by
  obtain ⟨words, hfound, -, hreplaced⟩ := hn.exists_discovery
  constructor
  · intro hX
    refine ⟨isEmpty_of_mem_subsets X hX, ?_⟩
    rw [hfound] at hX
    obtain ⟨w, -, hw⟩ := List.mem_map.1 hX
    exact ⟨w, hw⟩
  · rintro ⟨hempty, w, rfl⟩
    obtain ⟨u, hu, h⟩ := hreplaced w hempty
    rw [hfound, ← h.1]
    exact List.mem_map_of_mem hu

/-- There are fewer sets than the states have subsets, since none of them is empty. -/
theorem WellFormed.size_subsets_lt (hn : n.WellFormed) : n.subsets.size < 2 ^ n.size := by
  have hnodup : (∅ :: n.subsets.toList).Nodup :=
    List.nodup_cons.2 ⟨fun h => absurd (isEmpty_of_mem_subsets ∅ h) (by decide),
      n.subsets.nodup_toList⟩
  have hlt : ∀ X ∈ ∅ :: n.subsets.toList, ∀ s ∈ X, s < n.size :=
    List.forall_mem_cons.2
      ⟨fun s hs => absurd hs (StateSet.not_mem_empty s), hn.lt_of_mem_subsets⟩
  have hlength := StateSet.length_le_of_nodup hnodup hlt
  rwa [List.length_cons, Numbering.length_toList] at hlength

/-! ## Moves and runs -/

/-- A symbol leads to the number of the set of all targets. -/
theorem next_determinize_iff (hX : n.epsilonFree.subsets.get? i = some X) :
    (n.determinize config).next i a = some j ↔
      n.epsilonFree.subsets.get? j = some (n.epsilonFree.nextSet X a) := by
  rw [Dfa.next, alphabet_determinize, nextSet, alphabet_epsilonFree]
  cases hc : n.alphabet.idxOf? a with
  | none =>
    constructor
    · intro h
      cases h
    · intro h
      cases isEmpty_of_get?_subsets h
  | some c =>
    rw [Option.bind_some, move_determinize hX (Alphabet.lt_size_of_idxOf? hc),
      Numbering.idOf?_eq_some_iff]

/-- The sets that are found are closed under moves to states. -/
theorem WellFormed.exists_get?_nextSet (hn : n.WellFormed) (hX : n.subsets.get? i = some X)
    (ha : (n.nextSet X a).isEmpty = false) : ∃ j, n.subsets.get? j = some (n.nextSet X a) := by
  have hmem : X ∈ n.subsets.toList := Numbering.mem_toList_iff.2 ⟨i, hX⟩
  obtain ⟨c, hc⟩ := Alphabet.exists_idxOf?_of_mem (mem_alphabet_of_nextSet ha)
  rw [nextSet_of_idxOf? hc] at ha ⊢
  exact Numbering.mem_toList_iff.1 (hn.step_mem_subsets hmem (Alphabet.lt_size_of_idxOf? hc) ha)

/-- A move is undefined when there is no target. -/
theorem WellFormed.next_determinize_eq_none_iff (hn : n.WellFormed)
    (hX : n.epsilonFree.subsets.get? i = some X) :
    (n.determinize config).next i a = none ↔ (n.epsilonFree.nextSet X a).isEmpty = true := by
  constructor
  · intro hnone
    by_contra hempty
    obtain ⟨j, hj⟩ := hn.epsilonFree.exists_get?_nextSet hX (Bool.eq_false_iff.2 hempty)
    have hnext : (n.determinize config).next i a = some j := (next_determinize_iff hX).2 hj
    rw [hnone] at hnext
    cases hnext
  · intro hempty
    rw [Option.eq_none_iff_forall_ne_some]
    intro j hj
    have hfalse := isEmpty_of_get?_subsets ((next_determinize_iff hX).1 hj)
    rw [hempty] at hfalse
    cases hfalse

/-- No word leads from the empty set to a state. -/
theorem isEmpty_foldl_nextSet (hX : X.isEmpty = true) : (w.foldl n.nextSet X).isEmpty = true := by
  induction w generalizing X with
  | nil => exact hX
  | cons a w ih => exact ih (isEmpty_nextSet hX)

/-- A word leads to the number of its set. -/
theorem WellFormed.run_determinize_iff (hn : n.WellFormed)
    (hX : n.epsilonFree.subsets.get? i = some X) :
    (n.determinize config).run i w = some j ↔
      n.epsilonFree.subsets.get? j = some (w.foldl n.epsilonFree.nextSet X) := by
  induction w generalizing i X with
  | nil =>
    constructor
    · intro h
      cases h
      exact hX
    · exact fun hj => congrArg some (Numbering.eq_of_get? hX hj)
  | cons a w ih =>
    rw [Dfa.run_cons, List.foldl_cons]
    cases hempty : (n.epsilonFree.nextSet X a).isEmpty with
    | true =>
      rw [(hn.next_determinize_eq_none_iff hX).2 hempty]
      constructor
      · intro h
        cases h
      · intro h
        have hfalse := isEmpty_of_get?_subsets h
        rw [isEmpty_foldl_nextSet hempty] at hfalse
        cases hfalse
    | false =>
      obtain ⟨k, hk⟩ := hn.epsilonFree.exists_get?_nextSet hX hempty
      rw [(next_determinize_iff hX).2 hk]
      exact ih hk

/-! ## The construction as a whole -/

theorem size_epsilonFree : n.epsilonFree.size = n.size := by
  rw [epsilonFree]
  split <;> rfl

/-- The states of a determinized automaton are the sets that are found. -/
theorem WellFormed.isSubsetConstruction_determinize (hn : n.WellFormed) (config : Config) :
    n.epsilonFree.IsSubsetConstruction (n.determinize config) n.epsilonFree.subsets.toList where
  length_eq := by rw [Numbering.length_toList, size_determinize]
  nodup := Numbering.nodup_toList _
  mem_iff _ := hn.epsilonFree.mem_subsets_iff
  start := (Numbering.getElem?_toList _ _).trans get?_subsets_zero
  next_iff i X hX a j := by
    rw [Numbering.getElem?_toList] at hX ⊢
    exact next_determinize_iff hX
  next_none_iff i X hX a := by
    rw [Numbering.getElem?_toList] at hX
    exact hn.next_determinize_eq_none_iff hX
  accepting_iff i X hX := by
    rw [Numbering.getElem?_toList] at hX
    rw [isAccepting_determinize hX, anyAccepting, StateSet.meets_iff]
    exact exists_congr fun s => and_comm

/-- The words along which the sets are found are the first words of their states. -/
theorem WellFormed.exists_firstWords (hn : n.WellFormed) (config : Config) :
    ∃ words : List (List String), words.length = (n.determinize config).size ∧
      words.Pairwise n.alphabet.Precedes ∧
      ∀ i w, words[i]? = some w → (n.determinize config).FirstWord i w := by
  obtain ⟨words, hfound, hincreasing, hreplaced⟩ := hn.epsilonFree.exists_discovery
  rw [alphabet_epsilonFree] at hincreasing
  have hset : ∀ {i w}, words[i]? = some w →
      n.epsilonFree.subsets.get? i = some (n.epsilonFree.setAfter w) := by
    intro i w hw
    rw [← Numbering.getElem?_toList, hfound, List.getElem?_map, hw]
    rfl
  have hrun : ∀ {i w}, (n.determinize config).run (n.determinize config).start w = some i ↔
      n.epsilonFree.subsets.get? i = some (n.epsilonFree.setAfter w) :=
    hn.run_determinize_iff get?_subsets_zero
  refine ⟨words, ?_, hincreasing, fun i w hw => ⟨hrun.2 (hset hw), fun v hv => ?_⟩⟩
  · rw [size_determinize, ← Numbering.length_toList, hfound, List.length_map]
  · obtain ⟨u, hu, hsame, hle⟩ := hreplaced v (isEmpty_of_get?_subsets (hrun.1 hv))
    obtain ⟨k, hk⟩ := List.mem_iff_getElem?.1 hu
    obtain rfl : k = i := Numbering.eq_of_get? (hset hk) (hsame ▸ hrun.1 hv)
    obtain rfl : u = w := Option.some.inj (hk.symm.trans hw)
    rwa [alphabet_determinize, ← alphabet_epsilonFree]

/-- Determinization keeps the language. Its states are the sets of states that words lead to once
    epsilon moves are eliminated, the empty one excepted, and so fewer than there are subsets. Every
    state is reached, the states are numbered in the order of their first words, and each name is
    the prefix with the number. -/
theorem WellFormed.determinize_exact (hn : n.WellFormed) (config : Config) :
    (∀ w, (n.determinize config).accepts w = n.accepts w) ∧
      (∃ sets, n.epsilonFree.IsSubsetConstruction (n.determinize config) sets) ∧
      (n.determinize config).size ≤ 2 ^ n.size - 1 ∧
      (∀ i < (n.determinize config).size,
        (n.determinize config).name i = config.dfaPrefix ++ toString i ∧
          ∃ w, (n.determinize config).FirstWord i w) ∧
      ∀ i j v w, i < j → (n.determinize config).FirstWord i v →
        (n.determinize config).FirstWord j w → n.alphabet.Precedes v w := by
  obtain ⟨words, hlength, hincreasing, hfirst⟩ := hn.exists_firstWords config
  have hword : ∀ i, i < (n.determinize config).size → ∃ w, words[i]? = some w := fun i hi =>
    ⟨_, List.getElem?_eq_getElem (hlength ▸ hi)⟩
  refine ⟨fun w => ?_, ⟨_, hn.isSubsetConstruction_determinize config⟩, ?_, fun i hi => ?_,
    fun i j v w hij hv hw => ?_⟩
  · rw [Bool.eq_iff_iff, hn.accepts_iff, ← hn.language_determinize config]
    rfl
  · have hlt := hn.epsilonFree.size_subsets_lt
    rw [size_epsilonFree] at hlt
    rw [size_determinize]
    omega
  · obtain ⟨w, hw⟩ := hword i hi
    rw [size_determinize] at hi
    exact ⟨StateNames.name_numbered hi, w, hfirst i w hw⟩
  · have hj := wellFormed_determinize.run_lt wellFormed_determinize.start_lt hw.run_eq
    obtain ⟨v', hv'⟩ := hword i (hij.trans hj)
    obtain ⟨w', hw'⟩ := hword j hj
    obtain rfl := hv.unique (hfirst i v' hv')
    obtain rfl := hw.unique (hfirst j w' hw')
    obtain ⟨hi, rfl⟩ := List.getElem?_eq_some_iff.1 hv'
    obtain ⟨hj, rfl⟩ := List.getElem?_eq_some_iff.1 hw'
    exact List.pairwise_iff_getElem.1 hincreasing i j hi hj hij

/-- The star of a star, which has a cycle of epsilon moves. -/
theorem determinize_exact_star :
    let a := ((Nfa.new (.single "a") "p").addMove 0 0 0).setAccepting 0 true
    let n := (a.star {}).star {}
    (∀ w, (n.determinize {}).accepts w = n.accepts w) ∧
      (∃ sets, n.epsilonFree.IsSubsetConstruction (n.determinize {}) sets) ∧
      (n.determinize {}).size ≤ 2 ^ n.size - 1 ∧
      (∀ i < (n.determinize {}).size, (n.determinize {}).name i = "DFA" ++ toString i ∧
        ∃ w, (n.determinize {}).FirstWord i w) ∧
      ∀ i j v w, i < j → (n.determinize {}).FirstWord i v → (n.determinize {}).FirstWord j w →
        n.alphabet.Precedes v w := by
  intro a n
  have ha : a.WellFormed :=
    ((Nfa.wellFormed_new).addMove 0 0 (by decide)).setAccepting (by decide) true
  exact ha.star.star.determinize_exact {}

end Nfa

end Acceptors
