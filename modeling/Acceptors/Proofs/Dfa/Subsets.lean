import Mathlib.Data.List.Perm.Subperm
import Acceptors.Dfa.Subset
import Acceptors.Proofs.Dfa.Embedded
import Acceptors.Proofs.Nfa.EpsilonFree

/-!
# The language of the subset construction

The search for subsets is complete when every subset that was found has been expanded. Each step
expands one more of them, and distinct sets of states below `n` are at most `2 ^ n` many, so that
the steps last until then. A state of the constructed automaton then accepts the words of the
members of its subset: a symbol leads to the subset of their targets, and only the empty set, which
accepts nothing, is no state.

Results:
* `Nfa.forall_mem_discover`, `Nfa.closed_discover`: what is found, and that nothing is missed.
* `Nfa.WellFormed.acceptsFrom_determinize_iff`: the words of a subset.
* `Nfa.WellFormed.toDfa`, `Nfa.WellFormed.language_toDfa`: every automaton has a deterministic form
  that accepts the same words.
-/

namespace Acceptors

/-! ## How many sets there are -/

/-- Distinct sets of states below `n` are at most `2 ^ n` many. -/
theorem StateSet.length_le_of_nodup {n : Nat} {sets : List StateSet} (hnodup : sets.Nodup)
    (h : ∀ X ∈ sets, ∀ s ∈ X, s < n) : sets.length ≤ 2 ^ n := by
  have hbits : ∀ X ∈ sets, X.bits < 2 ^ n := by
    intro X hX
    apply Nat.lt_pow_two_of_testBit
    intro s hs
    rw [Bool.eq_false_iff]
    exact fun hmem => absurd (h X hX s hmem) (Nat.not_lt.2 hs)
  have hsub : sets.map bits ⊆ List.range (2 ^ n) := by
    intro b hb
    obtain ⟨X, hX, rfl⟩ := List.mem_map.1 hb
    exact List.mem_range.2 (hbits X hX)
  have hinj : (sets.map bits).Nodup := hnodup.map fun X Y hXY => by
    cases X
    cases Y
    exact congrArg mk hXY
  have hlength := (List.subperm_of_subset hinj hsub).length_le
  rwa [List.length_map, List.length_range] at hlength

namespace Nfa

variable {stepRow : StateSet → Array StateSet} {steps i j c : Nat} {found : Numbering StateSet}
variable {n : Nfa} {X Y : StateSet} {config : Config} {w : List String}

/-! ## The search for subsets -/

/-- The sets that the expansion of a set adds. -/
def expansion (stepRow : StateSet → Array StateSet) (X : StateSet) : List StateSet :=
  (stepRow X).toList.filter (!·.isEmpty)

/-- What holds of the sets found so far and is passed on by expansion holds after one more step. -/
theorem forall_mem_step {P : StateSet → Prop}
    (hexpansion : ∀ X, P X → ∀ Y ∈ expansion stepRow X, P Y) (hfound : ∀ X ∈ found.toList, P X)
    (hX : found.get? i = some X) :
    ∀ Y ∈ ((expansion stepRow X).foldl .insert found).toList, P Y := by
  intro Y hY
  rcases Numbering.mem_foldl_insert.1 hY with hY | hY
  · exact hfound Y hY
  · exact hexpansion X (hfound X (Numbering.mem_toList_iff.2 ⟨i, hX⟩)) Y hY

/-- What holds of the first sets and is passed on by expansion holds of all sets found. -/
theorem forall_mem_discover {P : StateSet → Prop}
    (hexpansion : ∀ X, P X → ∀ Y ∈ expansion stepRow X, P Y) (hfound : ∀ X ∈ found.toList, P X) :
    ∀ X ∈ (discover stepRow steps i found).toList, P X := by
  induction steps generalizing i found with
  | zero => exact hfound
  | succ steps ih =>
    rw [discover]
    split
    · exact hfound
    · next X hX => exact ih (forall_mem_step hexpansion hfound hX)

/-- A number that a set has got it keeps. -/
theorem get?_discover (h : found.get? j = some X) :
    (discover stepRow steps i found).get? j = some X := by
  induction steps generalizing i found with
  | zero => exact h
  | succ steps ih =>
    rw [discover]
    split
    · exact h
    · exact ih (Numbering.get?_foldl_insert h)

/-- The sets numbered below `i` have been expanded: what they are expanded to is found. -/
def Expanded (stepRow : StateSet → Array StateSet) (i : Nat) (found : Numbering StateSet) : Prop :=
  ∀ j < i, ∀ X, found.get? j = some X → ∀ Y ∈ expansion stepRow X, Y ∈ found.toList

theorem Expanded.of_size_le (h : Expanded stepRow i found) (hsize : found.size ≤ i)
    (hX : X ∈ found.toList) : ∀ Y ∈ expansion stepRow X, Y ∈ found.toList := by
  obtain ⟨j, hj⟩ := Numbering.mem_toList_iff.1 hX
  have hlt := Numbering.exists_get?_iff_lt_size.1 ⟨X, hj⟩
  exact h j (Nat.lt_of_lt_of_le hlt hsize) X hj

/-- One step expands the next set. -/
theorem Expanded.step (h : Expanded stepRow i found) (hX : found.get? i = some X) :
    Expanded stepRow (i + 1) ((expansion stepRow X).foldl .insert found) := by
  intro j hj Z hZ Y hY
  rw [Numbering.mem_foldl_insert]
  have hi := Numbering.exists_get?_iff_lt_size.1 ⟨X, hX⟩
  obtain ⟨Z', hZ'⟩ :=
    Numbering.exists_get?_iff_lt_size.2 (Nat.lt_of_le_of_lt (Nat.le_of_lt_succ hj) hi)
  obtain rfl : Z' = Z := Option.some.inj ((Numbering.get?_foldl_insert hZ').symm.trans hZ)
  rcases Nat.lt_succ_iff_lt_or_eq.1 hj with hj | rfl
  · exact .inl (h j hj Z' hZ' Y hY)
  · obtain rfl : Z' = X := Option.some.inj (hZ'.symm.trans hX)
    exact .inr hY

/-- What every step keeps holds at the end. By then all sets have been expanded, if there is a step
    for each set that there can be. -/
theorem exists_size_le_of_discover {I : Nat → Numbering StateSet → Prop} {bound : Nat}
    (hstep : ∀ {i found X}, I i found → found.get? i = some X →
      I (i + 1) ((expansion stepRow X).foldl .insert found))
    (hbound : ∀ {i found}, I i found → found.size ≤ bound) (hsteps : bound ≤ steps + i)
    (h : I i found) :
    ∃ j, (discover stepRow steps i found).size ≤ j ∧ I j (discover stepRow steps i found) := by
  induction steps generalizing i found with
  | zero =>
    have hsize := hbound h
    exact ⟨i, by rw [discover]; omega, h⟩
  | succ steps ih =>
    rw [discover]
    split
    · next hnone =>
      rw [← Numbering.getElem?_toList, List.getElem?_eq_none_iff, Numbering.length_toList] at hnone
      exact ⟨i, hnone, h⟩
    · next X hX => exact ih (by omega) (hstep h hX)

/-- With a step for each set that there can be, all that a found set is expanded to is found. -/
theorem closed_discover {P : StateSet → Prop} {bound : Nat}
    (hexpansion : ∀ X, P X → ∀ Y ∈ expansion stepRow X, P Y)
    (hbound : ∀ sets : List StateSet, sets.Nodup → (∀ X ∈ sets, P X) → sets.length ≤ bound)
    (hfound : ∀ X ∈ found.toList, P X) (hsteps : bound ≤ steps + i)
    (hexpanded : Expanded stepRow i found) :
    ∀ X ∈ (discover stepRow steps i found).toList, ∀ Y ∈ expansion stepRow X,
      Y ∈ (discover stepRow steps i found).toList := by
  obtain ⟨j, hsize, -, h⟩ := exists_size_le_of_discover
    (I := fun i found => (∀ X ∈ found.toList, P X) ∧ Expanded stepRow i found)
    (fun h hX => ⟨forall_mem_step hexpansion h.1 hX, h.2.step hX⟩)
    (fun {_ found} h => found.length_toList ▸ hbound found.toList found.nodup_toList h.1) hsteps
    ⟨hfound, hexpanded⟩
  exact fun X hX => h.of_size_le hsize hX

/-! ## The subsets of an automaton -/

theorem mem_expansion_iff :
    Y ∈ expansion (n.stepRow n.moveLists) X ↔
      Y.isEmpty = false ∧ ∃ c < n.alphabet.size, n.step X c = Y := by
  rw [expansion, stepRow_eq, List.mem_filter, Array.mem_toList_iff, Array.mem_ofFn,
    Bool.not_eq_true', and_comm]
  refine and_congr_right fun _ => ?_
  constructor
  · rintro ⟨⟨c, hc⟩, rfl⟩
    exact ⟨c, hc, rfl⟩
  · rintro ⟨c, hc, rfl⟩
    exact ⟨⟨c, hc⟩, rfl⟩

theorem get?_subsets_zero : n.subsets.get? 0 = some (.single n.start) := by
  apply get?_discover
  have hnot : StateSet.single n.start ∉ Numbering.empty.toList := by
    simp [Numbering.empty, Numbering.toList]
  rw [← Numbering.getElem?_toList, Numbering.toList_insert_of_not_mem hnot]
  rfl

variable (hn : n.WellFormed)

include hn

theorem WellFormed.step_lt : ∀ t ∈ n.step X c, t < n.size := by
  intro t ht
  obtain ⟨s, -, ht⟩ := StateSet.mem_biUnion.1 ht
  exact hn.targets_lt s c t ht

theorem WellFormed.lt_of_mem_expansion :
    ∀ Y ∈ expansion (n.stepRow n.moveLists) X, ∀ s ∈ Y, s < n.size := by
  intro Y hY
  obtain ⟨-, c, -, rfl⟩ := mem_expansion_iff.1 hY
  exact hn.step_lt

theorem WellFormed.lt_of_mem_first :
    ∀ X ∈ (Numbering.empty.insert (StateSet.single n.start)).toList, ∀ s ∈ X, s < n.size := by
  intro X hX
  rcases Numbering.mem_insert.1 hX with hX | rfl
  · cases hX
  · exact hn.lt_of_mem_single_start

theorem WellFormed.lt_of_mem_subsets : ∀ X ∈ n.subsets.toList, ∀ s ∈ X, s < n.size :=
  forall_mem_discover (P := fun X => ∀ s ∈ X, s < n.size) (fun _ _ => hn.lt_of_mem_expansion)
    hn.lt_of_mem_first

/-- A symbol leads from a subset to a subset, or to no state. -/
theorem WellFormed.step_mem_subsets (hX : X ∈ n.subsets.toList) (hc : c < n.alphabet.size)
    (hstep : (n.step X c).isEmpty = false) : n.step X c ∈ n.subsets.toList :=
  closed_discover (P := fun X => ∀ s ∈ X, s < n.size) (fun _ _ => hn.lt_of_mem_expansion)
    (fun _ => StateSet.length_le_of_nodup) hn.lt_of_mem_first
    (Nat.le_of_eq (Nat.one_shiftLeft n.size).symm)
    (fun j hj => absurd hj (Nat.not_lt_zero j)) X hX _ (mem_expansion_iff.2 ⟨hstep, c, hc, rfl⟩)

omit hn

/-! ## The constructed automaton -/

theorem size_determinize : (n.determinize config).size = n.epsilonFree.subsets.size :=
  StateNames.size_numbered _ _

theorem alphabet_determinize : (n.determinize config).alphabet = n.alphabet :=
  alphabet_epsilonFree

theorem lt_size_of_get?_subsets (hX : n.subsets.get? i = some X) : i < n.subsets.size :=
  Numbering.exists_get?_iff_lt_size.1 ⟨X, hX⟩

/-- A symbol leads from a subset to the subset of the targets of its members. -/
theorem move_determinize (hX : n.epsilonFree.subsets.get? i = some X) (hc : c < n.alphabet.size) :
    (n.determinize config).move i c = n.epsilonFree.subsets.idOf? (n.epsilonFree.step X c) := by
  have hi : i < (n.determinize config).size := by
    rw [size_determinize]
    exact lt_size_of_get?_subsets hX
  have hc' : c < n.epsilonFree.alphabet.size := by rwa [alphabet_epsilonFree]
  have hget := (Numbering.getElem?_toList _ i).trans hX
  show (Dfa.ofFn _ _ _ _ _).move i c = _
  rw [Dfa.move_ofFn, if_pos ⟨hi, hc'⟩]
  simp [hget, stepRow_eq, hc']

theorem isAccepting_determinize (hX : n.epsilonFree.subsets.get? i = some X) :
    (n.determinize config).isAccepting i = n.epsilonFree.anyAccepting X := by
  rw [Bool.eq_iff_iff]
  show i ∈ StateSet.below _ _ ↔ _
  rw [StateSet.mem_below, and_iff_right (lt_size_of_get?_subsets hX), hX]
  rfl

theorem wellFormed_determinize : (n.determinize config).WellFormed := by
  refine .ofFn ?_ ?_ ?_ <;> rw [StateNames.size_numbered]
  · exact lt_size_of_get?_subsets get?_subsets_zero
  · exact fun s hs => (StateSet.mem_below.1 hs).1
  · intro i c j hi hj
    obtain ⟨X, -, hX⟩ := Option.bind_eq_some_iff.1 hj
    exact lt_size_of_get?_subsets (Numbering.idOf?_eq_some_iff.1 hX)

/-- A subset accepts the words of its members. -/
theorem WellFormed.acceptsFrom_determinize_iff (hn : n.WellFormed)
    (hX : n.epsilonFree.subsets.get? i = some X) :
    (n.determinize config).acceptsFrom i w = true ↔
      ∃ s ∈ X, n.epsilonFree.RecognizesFrom s w := by
  have hpath : ∀ s t, n.epsilonFree.Path s [] t ↔ s = t := fun s t =>
    path_nil_iff_of_forall_not_mem fun _ _ => not_mem_epsilonTargets_epsilonFree
  induction w generalizing i X with
  | nil =>
    rw [Dfa.acceptsFrom_nil, isAccepting_determinize hX, anyAccepting, StateSet.meets_iff]
    simp only [recognizesFrom_nil_iff, hpath, exists_eq_right']
    exact exists_congr fun s => and_comm
  | cons a w ih =>
    rw [Dfa.acceptsFrom_cons, Option.any_eq_true]
    simp only [Dfa.next_eq_some_iff, alphabet_determinize, recognizesFrom_cons_iff, hpath, Moves,
      alphabet_epsilonFree]
    constructor
    · rintro ⟨j, ⟨c, hc, hj⟩, h⟩
      rw [move_determinize hX (Alphabet.lt_size_of_idxOf? hc), Numbering.idOf?_eq_some_iff] at hj
      obtain ⟨t, ht, h⟩ := (ih hj).1 h
      obtain ⟨s, hs, ht⟩ := StateSet.mem_biUnion.1 ht
      exact ⟨s, hs, s, t, rfl, ⟨c, hc, ht⟩, h⟩
    · rintro ⟨s, hs, _, t, rfl, ⟨c, hc, ht⟩, h⟩
      have hlt := Alphabet.lt_size_of_idxOf? hc
      have ht : t ∈ n.epsilonFree.step X c := StateSet.mem_biUnion.2 ⟨s, hs, ht⟩
      have hmem : n.epsilonFree.step X c ∈ n.epsilonFree.subsets.toList := by
        refine hn.epsilonFree.step_mem_subsets ?_ (by rwa [alphabet_epsilonFree]) ?_
        · exact Numbering.mem_toList_iff.2 ⟨i, hX⟩
        · exact Bool.eq_false_iff.2 fun hempty => StateSet.isEmpty_iff.1 hempty t ht
      obtain ⟨j, hj⟩ := Numbering.mem_toList_iff.1 hmem
      refine ⟨j, ⟨c, hc, ?_⟩, (ih hj).2 ⟨t, ht, h⟩⟩
      rwa [move_determinize hX hlt, Numbering.idOf?_eq_some_iff]

/-- The subset construction accepts the words of the automaton. -/
theorem WellFormed.language_determinize (hn : n.WellFormed) (config : Config) :
    (n.determinize config).language = n.language := by
  rw [← hn.language_epsilonFree]
  ext w
  refine (hn.acceptsFrom_determinize_iff get?_subsets_zero).trans ?_
  simp only [StateSet.mem_single, exists_eq_left]
  rfl

/-! ## The deterministic form -/

theorem alphabet_toDfa : (n.toDfa config).alphabet = n.alphabet := by
  rw [toDfa]
  split
  · next h => exact alphabet_of_toDfa? h
  · exact alphabet_determinize

theorem WellFormed.toDfa (hn : n.WellFormed) (config : Config) : (n.toDfa config).WellFormed := by
  rw [Nfa.toDfa]
  split
  · next h => exact hn.toDfa? h
  · exact wellFormed_determinize

/-- The deterministic form of an automaton accepts the same words. -/
theorem WellFormed.language_toDfa (hn : n.WellFormed) (config : Config) :
    (n.toDfa config).language = n.language := by
  rw [Nfa.toDfa]
  split
  · next h => exact hn.language_of_toDfa? h
  · exact hn.language_determinize config

end Nfa

end Acceptors
