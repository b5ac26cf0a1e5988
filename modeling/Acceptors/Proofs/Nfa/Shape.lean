import Mathlib.Tactic.Common
import Acceptors.Nfa.Combine
import Acceptors.Proofs.Nfa.Language

/-!
# Well-formed nondeterministic automata

Every operation that builds an automaton from well-formed ones keeps the tables rectangular and the
numbers of states in range. Beside each of these facts stands what the operation does to the moves,
named by the text of their symbols.

Results:
* `Nfa.WellFormed.addState`, `Nfa.WellFormed.addMove`, `Nfa.WellFormed.addEpsilon`,
  `Nfa.WellFormed.setStart`, `Nfa.WellFormed.setAccepting`: automata built step by step.
* `Nfa.WellFormed.moves_widen`: another alphabet that has all symbols leaves the moves alone.
* `Nfa.WellFormed.linked`, `Nfa.mem_epsilonTargets_addEpsilons`: added epsilon moves.
-/

namespace Acceptors

/-! ## Columns -/

namespace Alphabet

variable {a b : Alphabet} {x : String} {c : Nat}

theorem idxOf?_isSome_iff : (a.idxOf? x).isSome = true ↔ x ∈ a := by
  rw [mem_def, idxOf?, List.isSome_idxOf?]

theorem idxOf?_eq_none_iff : a.idxOf? x = none ↔ x ∉ a := by
  rw [← idxOf?_isSome_iff, Option.not_isSome_iff_eq_none]

theorem lt_size_of_idxOf? (h : a.idxOf? x = some c) : c < a.size := by
  obtain ⟨hlt, -⟩ := List.getElem?_eq_some_iff.1 (get?_eq_some_iff.2 h)
  exact hlt

theorem mem_of_idxOf? (h : a.idxOf? x = some c) : x ∈ a := idxOf?_isSome_iff.1 (by rw [h]; rfl)

theorem exists_idxOf?_of_mem (h : x ∈ a) : ∃ c, a.idxOf? x = some c :=
  Option.isSome_iff_exists.1 (idxOf?_isSome_iff.2 h)

/-- No two symbols share a column. -/
theorem eq_of_idxOf? {y : String} (hx : a.idxOf? x = some c) (hy : a.idxOf? y = some c) : x = y :=
  Option.some.inj ((get?_eq_some_iff.2 hx).symm.trans (get?_eq_some_iff.2 hy))

theorem exists_idxOf?_eq_some (hc : c < a.size) : ∃ x, a.idxOf? x = some c := by
  have hc' : c < a.symbols.length := hc
  exact ⟨a.symbols[c], get?_eq_some_iff.1 (List.getElem?_eq_getElem hc')⟩

/-- A symbol that has a column has it among the columns of another alphabet by its text. -/
theorem columnsIn_of_idxOf? (h : a.idxOf? x = some c) :
    (a.columnsIn b)[c]?.join = b.idxOf? x := by
  have hget : a.symbols[c]? = some x := get?_eq_some_iff.2 h
  simp [columnsIn, hget]

theorem idxOf?_single_eq_some_iff {y : String} :
    (single y).idxOf? x = some c ↔ x = y ∧ c = 0 := by
  rw [← get?_eq_some_iff, get?, single, List.getElem?_singleton]
  split
  · next hc => simp [hc, eq_comm]
  · next hc => simp [hc]

/-- The symbols of the left alphabet keep their columns in a union. -/
theorem idxOf?_union_eq_some_iff (hc : c < a.size) :
    (a.union b).idxOf? x = some c ↔ a.idxOf? x = some c := by
  have hc' : c < a.symbols.length := hc
  rw [← get?_eq_some_iff, ← get?_eq_some_iff, get?, get?, union, List.getElem?_append_left hc']

end Alphabet

namespace Nfa

variable {n l r : Nfa} {s t c : Nat} {a : String}

/-! ## Range of the tables -/

theorem WellFormed.lt_of_mem_targets (hn : n.WellFormed) (h : t ∈ n.targets s c) :
    s < n.size ∧ c < n.alphabet.size := by
  rw [← hn.shape.get?_isSome, Option.isSome_iff_ne_none]
  intro hnone
  rw [targets, hnone] at h
  exact StateSet.not_mem_empty t h

theorem mem_alphabet_of_moves (h : n.Moves s a t) : a ∈ n.alphabet := by
  obtain ⟨c, hc, -⟩ := h
  exact Alphabet.mem_of_idxOf? hc

theorem WellFormed.lt_of_moves (hn : n.WellFormed) (h : n.Moves s a t) : s < n.size := by
  obtain ⟨c, -, ht⟩ := h
  exact (hn.lt_of_mem_targets ht).1

theorem WellFormed.lt_of_mem_epsilonTargets (hn : n.WellFormed) (h : t ∈ n.epsilonTargets s) :
    s < n.size := by
  rw [← hn.epsilon_size]
  by_contra hle
  rw [epsilonTargets, Array.getElem?_eq_none (Nat.le_of_not_lt hle)] at h
  exact StateSet.not_mem_empty t h

/-! ## States added one by one -/

theorem targets_addState (hn : n.WellFormed) (name : String) :
    (n.addState name).targets s c = n.targets s c := by
  simp only [targets, addState, Grid.get?_addRow hn.shape]
  split
  · next hs =>
    have hnone : n.moves.get? s c = none := by
      rw [← Option.not_isSome_iff_eq_none, hn.shape.get?_isSome]
      omega
    rw [hnone]
    split <;> rfl
  · rfl

theorem epsilonTargets_addState (name : String) :
    (n.addState name).epsilonTargets s = n.epsilonTargets s := by
  simp only [epsilonTargets, addState, Array.getElem?_push]
  split
  · next hs => simp [hs]
  · rfl

theorem size_addState (name : String) : (n.addState name).size = n.size + 1 :=
  StateNames.size_insert n.names name

theorem WellFormed.addState (hn : n.WellFormed) (name : String) :
    (n.addState name).WellFormed where
  shape := by
    rw [size_addState]
    exact hn.shape.addRow ∅
  epsilon_size := by
    rw [size_addState, Nfa.addState, Array.size_push, hn.epsilon_size]
  start_lt := by
    rw [size_addState]
    exact Nat.lt_succ_of_lt hn.start_lt
  accepting_lt s hs := by
    rw [size_addState]
    exact Nat.lt_succ_of_lt (hn.accepting_lt s hs)
  targets_lt s c t ht := by
    rw [targets_addState hn] at ht
    rw [size_addState]
    exact Nat.lt_succ_of_lt (hn.targets_lt s c t ht)
  epsilonTargets_lt s t ht := by
    rw [epsilonTargets_addState] at ht
    rw [size_addState]
    exact Nat.lt_succ_of_lt (hn.epsilonTargets_lt s t ht)

theorem moves_addState (hn : n.WellFormed) (name : String) :
    (n.addState name).Moves s a t ↔ n.Moves s a t := by
  simp only [Moves, targets_addState hn]
  exact Iff.rfl

/-! ## Tables made from functions -/

/-- Tables that are filled from functions have the right shape. -/
theorem wellFormed_ofFn {alphabet : Alphabet} {names : StateNames} {targets : Nat → Nat → StateSet}
    {epsilon : Nat → StateSet} {start : Nat} {accepting : StateSet} (hstart : start < names.size)
    (haccepting : ∀ s ∈ accepting, s < names.size)
    (htargets : ∀ s c, ∀ t ∈ targets s c, t < names.size)
    (hepsilon : ∀ s, ∀ t ∈ epsilon s, t < names.size) :
    (ofFn alphabet names targets epsilon start accepting).WellFormed where
  shape := Grid.hasShape_ofFn
  epsilon_size := Array.size_ofFn
  start_lt := hstart
  accepting_lt := haccepting
  targets_lt s c t ht := by
    rw [targets_ofFn] at ht
    split at ht
    · exact htargets s c t ht
    · exact absurd ht (StateSet.not_mem_empty t)
  epsilonTargets_lt s t ht := by
    rw [epsilonTargets_ofFn] at ht
    split at ht
    · exact hepsilon s t ht
    · exact absurd ht (StateSet.not_mem_empty t)

/-! ## A first state, moves and accepting states -/

theorem epsilonTargets_new {alphabet : Alphabet} {name : String} :
    (new alphabet name).epsilonTargets s = ∅ := by
  cases s <;> rfl

theorem targets_new {alphabet : Alphabet} {name : String} :
    (new alphabet name).targets s c = ∅ := by
  have hempty : (Grid.empty : Grid StateSet).HasShape 0 alphabet.size := ⟨rfl, by simp [Grid.empty]⟩
  simp only [targets, new, Grid.get?_addRow hempty]
  split
  · split <;> rfl
  · simp [Grid.get?, Grid.empty]

theorem size_new {alphabet : Alphabet} {name : String} : (new alphabet name).size = 1 :=
  StateNames.size_insert .empty name

theorem wellFormed_new {alphabet : Alphabet} {name : String} :
    (new alphabet name).WellFormed where
  shape := by
    rw [size_new]
    exact Grid.HasShape.addRow ⟨rfl, by simp [Grid.empty]⟩ ∅
  epsilon_size := size_new.symm
  start_lt := by
    rw [size_new]
    exact Nat.one_pos
  accepting_lt s hs := absurd hs (StateSet.not_mem_empty s)
  targets_lt s c t ht := by
    rw [targets_new] at ht
    exact absurd ht (StateSet.not_mem_empty t)
  epsilonTargets_lt s t ht := by
    rw [epsilonTargets_new] at ht
    exact absurd ht (StateSet.not_mem_empty t)

/-- A move is added to the targets of its cell, if there is one. -/
theorem mem_targets_addMove (hn : n.WellFormed) {source column target : Nat} :
    t ∈ (n.addMove source column target).targets s c ↔
      t ∈ n.targets s c ∨
        (source < n.size ∧ column < n.alphabet.size) ∧ s = source ∧ c = column ∧ t = target := by
  simp only [targets, addMove, Grid.get?_set]
  split
  · next h =>
    obtain ⟨rfl, rfl⟩ := h
    rw [← hn.shape.get?_isSome]
    cases n.moves.get? s c with
    | none => simp
    | some X => simp [StateSet.mem_insert]
  · next h =>
    refine ⟨.inl, fun ht => ht.resolve_right fun h' => h ⟨h'.2.1, h'.2.2.1⟩⟩

theorem WellFormed.addMove (hn : n.WellFormed) (source column : Nat) {target : Nat}
    (htarget : target < n.size) : (n.addMove source column target).WellFormed where
  shape := hn.shape.set _ _ _
  epsilon_size := hn.epsilon_size
  start_lt := hn.start_lt
  accepting_lt := hn.accepting_lt
  targets_lt s c t ht := by
    rcases (mem_targets_addMove hn).1 ht with ht | ⟨-, -, -, rfl⟩
    · exact hn.targets_lt s c t ht
    · exact htarget
  epsilonTargets_lt := hn.epsilonTargets_lt

theorem WellFormed.setAccepting (hn : n.WellFormed) {state : Nat} (hstate : state < n.size)
    (accepts : Bool) : (n.setAccepting state accepts).WellFormed where
  shape := hn.shape
  epsilon_size := hn.epsilon_size
  start_lt := hn.start_lt
  accepting_lt s hs := by
    cases accepts with
    | true =>
      rcases StateSet.mem_insert.1 hs with hs | rfl
      · exact hn.accepting_lt s hs
      · exact hstate
    | false => exact hn.accepting_lt s (StateSet.mem_erase.1 hs).1
  targets_lt := hn.targets_lt
  epsilonTargets_lt := hn.epsilonTargets_lt

theorem WellFormed.setStart (hn : n.WellFormed) {state : Nat} (hstate : state < n.size) :
    (n.setStart state).WellFormed where
  shape := hn.shape
  epsilon_size := hn.epsilon_size
  start_lt := hstate
  accepting_lt := hn.accepting_lt
  targets_lt := hn.targets_lt
  epsilonTargets_lt := hn.epsilonTargets_lt

/-! ## Added epsilon moves -/

/-- An epsilon move is added to those of its source, if that is a state. -/
theorem mem_epsilonTargets_addEpsilon {source target : Nat} :
    t ∈ (n.addEpsilon source target).epsilonTargets s ↔
      t ∈ n.epsilonTargets s ∨ source < n.epsilon.size ∧ s = source ∧ t = target := by
  simp only [epsilonTargets, addEpsilon, Array.getElem?_modify]
  by_cases hs : source = s
  · subst hs
    by_cases hlt : source < n.epsilon.size
    · simp [hlt, StateSet.mem_insert]
    · simp [hlt]
  · have hs' : ¬ s = source := fun e => hs e.symm
    simp [hs, hs']

theorem WellFormed.addEpsilon (hn : n.WellFormed) (source : Nat) {target : Nat}
    (htarget : target < n.size) : (n.addEpsilon source target).WellFormed where
  shape := hn.shape
  epsilon_size := (Array.size_modify ..).trans hn.epsilon_size
  start_lt := hn.start_lt
  accepting_lt := hn.accepting_lt
  targets_lt := hn.targets_lt
  epsilonTargets_lt s t ht := by
    rcases mem_epsilonTargets_addEpsilon.1 ht with ht | ⟨-, -, rfl⟩
    · exact hn.epsilonTargets_lt s t ht
    · exact htarget

theorem mem_epsilonTargets_addEpsilons {extra : Nat → StateSet} :
    t ∈ (n.addEpsilons extra).epsilonTargets s ↔
      s < n.size ∧ (t ∈ n.epsilonTargets s ∨ t ∈ extra s) := by
  by_cases hs : s < n.size
  · simp [epsilonTargets, addEpsilons, hs, StateSet.mem_union]
  · simp [epsilonTargets, addEpsilons, hs, StateSet.not_mem_empty]

/-- Epsilon moves may be added, and the start and the accepting states changed, as long as no number
    out of range is named. -/
theorem WellFormed.linked (hn : n.WellFormed) {extra : Nat → StateSet} {start : Nat}
    {accepting : StateSet} (hextra : ∀ s, ∀ t ∈ extra s, t < n.size) (hstart : start < n.size)
    (haccepting : ∀ s ∈ accepting, s < n.size) :
    { n.addEpsilons extra with start := start, accepting := accepting }.WellFormed where
  shape := hn.shape
  epsilon_size := Array.size_ofFn
  start_lt := hstart
  accepting_lt := haccepting
  targets_lt := hn.targets_lt
  epsilonTargets_lt s t ht := by
    obtain ⟨-, ht | ht⟩ := mem_epsilonTargets_addEpsilons.1 ht
    · exact hn.epsilonTargets_lt s t ht
    · exact hextra s t ht

/-! ## Another alphabet -/

theorem WellFormed.widen (hn : n.WellFormed) (alphabet : Alphabet) :
    (n.widen alphabet).WellFormed where
  shape := Grid.hasShape_ofFn
  epsilon_size := hn.epsilon_size
  start_lt := hn.start_lt
  accepting_lt := hn.accepting_lt
  targets_lt s c t ht := by
    rw [targets_widen] at ht
    split at ht
    · cases hcolumn : (alphabet.columnsIn n.alphabet)[c]?.join with
      | none =>
        rw [hcolumn] at ht
        exact absurd ht (StateSet.not_mem_empty t)
      | some d =>
        rw [hcolumn] at ht
        exact hn.targets_lt s d t ht
    · exact absurd ht (StateSet.not_mem_empty t)
  epsilonTargets_lt := hn.epsilonTargets_lt

/-- An alphabet that has all symbols of an automaton leaves its moves alone. -/
theorem WellFormed.moves_widen (hn : n.WellFormed) {alphabet : Alphabet}
    (hsub : ∀ x ∈ n.alphabet, x ∈ alphabet) :
    (n.widen alphabet).Moves s a t ↔ n.Moves s a t := by
  have hcell : ∀ c, alphabet.idxOf? a = some c →
      (t ∈ (n.widen alphabet).targets s c ↔ n.Moves s a t) := by
    intro c hc
    rw [targets_widen, Alphabet.columnsIn_of_idxOf? hc, Moves]
    cases hd : n.alphabet.idxOf? a with
    | none => simp [StateSet.not_mem_empty]
    | some d =>
      simp only [Option.elim_some, Option.some.injEq, exists_eq_left']
      split
      · rfl
      · next hout =>
        refine iff_of_false (StateSet.not_mem_empty t) fun ht => hout ⟨?_, ?_⟩
        · exact (hn.lt_of_mem_targets ht).1
        · exact Alphabet.lt_size_of_idxOf? hc
  constructor
  · rintro ⟨c, hc, ht⟩
    exact (hcell c hc).1 ht
  · intro h
    obtain ⟨c, hc⟩ := Alphabet.exists_idxOf?_of_mem (hsub a (mem_alphabet_of_moves h))
    exact ⟨c, hc, (hcell c hc).2 h⟩

end Nfa

end Acceptors
