import Acceptors.Dfa.Embed
import Acceptors.Proofs.Dfa.Language

/-!
# Deterministic automata as nondeterministic ones

Between an automaton without epsilon moves whose sets of targets have at most one member, and the
deterministic automaton of these members, nothing changes but the form of the table: the moves are
the same, and with them the words of every state.

Results:
* `Dfa.WellFormed.language_toNfa`: the words of a deterministic automaton seen as a nondeterministic
  one.
* `Nfa.obstacle?_eq_none_iff`: what keeps an automaton from being deterministic.
* `Nfa.WellFormed.toDfa?`, `Nfa.WellFormed.language_of_toDfa?`: the way back.
-/

namespace Acceptors

variable {n : Nfa} {d : Dfa} {s t c : Nat} {a : String} {w : List String}

/-- An automaton without epsilon moves, and a deterministic one with the same moves and accepting
    states. -/
theorem Nfa.recognizesFrom_iff_acceptsFrom (hepsilon : ∀ s t, t ∉ n.epsilonTargets s)
    (hmoves : ∀ s a t, n.Moves s a t ↔ d.next s a = some t)
    (haccepting : ∀ s, s ∈ n.accepting ↔ d.isAccepting s = true) :
    n.RecognizesFrom s w ↔ d.acceptsFrom s w = true := by
  induction w generalizing s with
  | nil =>
    rw [recognizesFrom_nil_iff, Dfa.acceptsFrom_nil, ← haccepting]
    simp only [path_nil_iff_of_forall_not_mem hepsilon]
    constructor
    · rintro ⟨t, ht, rfl⟩
      exact ht
    · exact fun hs => ⟨s, hs, rfl⟩
  | cons a w ih =>
    rw [recognizesFrom_cons_iff, Dfa.acceptsFrom_cons, Option.any_eq_true]
    simp only [path_nil_iff_of_forall_not_mem hepsilon, hmoves, ih]
    constructor
    · rintro ⟨r, t, rfl, ht, h⟩
      exact ⟨t, ht, h⟩
    · rintro ⟨t, ht, h⟩
      exact ⟨s, t, rfl, ht, h⟩

/-! ## From deterministic to nondeterministic -/

namespace Dfa

theorem mem_targets_toNfa (hd : d.WellFormed) :
    t ∈ d.toNfa.targets s c ↔ d.move s c = some t := by
  rw [toNfa, Nfa.targets_ofFn]
  split
  · cases d.move s c with
    | none => simp [StateSet.not_mem_empty]
    | some r => simp [StateSet.mem_single, eq_comm]
  · next hout =>
    refine iff_of_false (StateSet.not_mem_empty t) fun h => hout ?_
    exact hd.lt_of_move h

theorem moves_toNfa (hd : d.WellFormed) : d.toNfa.Moves s a t ↔ d.next s a = some t := by
  rw [next_eq_some_iff]
  simp only [Nfa.Moves, mem_targets_toNfa hd]
  rfl

theorem not_mem_epsilonTargets_toNfa : t ∉ d.toNfa.epsilonTargets s := by
  rw [toNfa, Nfa.epsilonTargets_ofFn, ite_self]
  exact StateSet.not_mem_empty t

theorem WellFormed.toNfa (hd : d.WellFormed) : d.toNfa.WellFormed where
  shape := Grid.hasShape_ofFn
  epsilon_size := Array.size_ofFn
  start_lt := hd.start_lt
  accepting_lt := hd.accepting_lt
  targets_lt s c t ht := hd.move_lt s c t ((mem_targets_toNfa hd).1 ht)
  epsilonTargets_lt _ _ ht := absurd ht not_mem_epsilonTargets_toNfa

/-- Seen as a nondeterministic automaton, a deterministic one has the same words. -/
theorem WellFormed.language_toNfa (hd : d.WellFormed) : d.toNfa.language = d.language := by
  ext w
  exact Nfa.recognizesFrom_iff_acceptsFrom (fun _ _ => not_mem_epsilonTargets_toNfa)
    (fun _ _ _ => moves_toNfa hd) fun _ => Iff.rfl

end Dfa

/-! ## From nondeterministic to deterministic -/

theorem StateSet.mem_iff_head? {X : StateSet} (h : X.members.length ≤ 1) :
    t ∈ X ↔ X.members.head? = some t := by
  rw [← StateSet.mem_members]
  match X.members, h with
  | [], _ => simp
  | [r], _ => simp [eq_comm]

namespace Nfa

/-- Nothing keeps an automaton from being deterministic if it has no epsilon move and no set of
    several targets. -/
theorem obstacle?_eq_none_iff :
    n.obstacle? = none ↔
      (∀ s < n.size, n.epsilonTargets s = ∅) ∧
        ∀ s < n.size, ∀ c < n.alphabet.size, (n.targets s c).members.length ≤ 1 := by
  have hempty : ∀ X : StateSet, X.isEmpty = true ↔ X = ∅ := by
    intro X
    rw [StateSet.isEmpty_iff]
    constructor
    · exact fun h => StateSet.ext fun s => iff_of_false (h s) (StateSet.not_mem_empty s)
    · rintro rfl
      exact StateSet.not_mem_empty
  simp only [obstacle?, Option.or_eq_none_iff, List.find?_eq_none, List.mem_range, List.any_eq_true,
    decide_eq_true_eq, not_exists, not_and, Bool.not_eq_true', Bool.not_eq_false, hempty,
    Nat.not_le, Nat.lt_succ_iff]

theorem eq_of_toDfa? (h : n.toDfa? = .ok d) :
    n.obstacle? = none ∧
      Dfa.ofFn n.alphabet n.names (fun s c => (n.targets s c).members.head?) n.start n.accepting =
        d := by
  rw [toDfa?] at h
  split at h
  · cases h
  · next hnone => exact ⟨hnone, Except.ok.inj h⟩

theorem alphabet_of_toDfa? (h : n.toDfa? = .ok d) : d.alphabet = n.alphabet := by
  obtain ⟨-, rfl⟩ := eq_of_toDfa? h
  rfl

theorem WellFormed.not_mem_epsilonTargets_of_obstacle? (hn : n.WellFormed)
    (h : n.obstacle? = none) : t ∉ n.epsilonTargets s := by
  intro ht
  rw [(obstacle?_eq_none_iff.1 h).1 s (hn.lt_of_mem_epsilonTargets ht)] at ht
  exact StateSet.not_mem_empty t ht

theorem WellFormed.move_of_toDfa? (hn : n.WellFormed) (h : n.toDfa? = .ok d) :
    d.move s c = some t ↔ t ∈ n.targets s c := by
  obtain ⟨hnone, rfl⟩ := eq_of_toDfa? h
  rw [Dfa.move_ofFn]
  split
  · next hin =>
    exact (StateSet.mem_iff_head? ((obstacle?_eq_none_iff.1 hnone).2 s hin.1 c hin.2)).symm
  · next hout => exact iff_of_false (by simp) fun ht => hout (hn.lt_of_mem_targets ht)

theorem WellFormed.toDfa? (hn : n.WellFormed) (h : n.toDfa? = .ok d) : d.WellFormed := by
  have hmove : ∀ s c t, d.move s c = some t → t < n.size := fun s c t ht =>
    hn.targets_lt s c t ((hn.move_of_toDfa? h).1 ht)
  obtain ⟨-, rfl⟩ := eq_of_toDfa? h
  exact ⟨Grid.hasShape_ofFn, hn.start_lt, hn.accepting_lt, hmove⟩

theorem WellFormed.moves_iff_of_toDfa? (hn : n.WellFormed) (h : n.toDfa? = .ok d) :
    n.Moves s a t ↔ d.next s a = some t := by
  rw [Dfa.next_eq_some_iff, alphabet_of_toDfa? h]
  simp only [hn.move_of_toDfa? h]
  rfl

/-- A nondeterministic automaton whose form is deterministic keeps its words. -/
theorem WellFormed.language_of_toDfa? (hn : n.WellFormed) (h : n.toDfa? = .ok d) :
    d.language = n.language := by
  have hmoves : ∀ s a t, n.Moves s a t ↔ d.next s a = some t := fun _ _ _ =>
    hn.moves_iff_of_toDfa? h
  obtain ⟨hnone, rfl⟩ := eq_of_toDfa? h
  ext w
  exact (recognizesFrom_iff_acceptsFrom
    (fun _ _ => hn.not_mem_epsilonTargets_of_obstacle? hnone) hmoves fun _ => Iff.rfl).symm

end Nfa

end Acceptors
