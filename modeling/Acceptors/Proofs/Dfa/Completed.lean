import Acceptors.Dfa.Complete
import Acceptors.Proofs.Dfa.Language

/-!
# Completion, complement and wider alphabets

A sink takes what has no move and never accepts, so that completion leaves the words of every state
alone. With every move defined, a run on symbols of the alphabet ends in exactly one state, and
swapping the accepting states swaps the words that are accepted. A word with a symbol from outside
the alphabet is accepted neither before nor after; a complement is taken over a wider alphabet by
widening the automaton first.

Results:
* `Dfa.WellFormed.isComplete_complete`, `Dfa.WellFormed.acceptsFrom_complete`: completion.
* `Dfa.WellFormed.accepts_complement_iff`: the words of a complement.
* `Dfa.WellFormed.acceptsFrom_widen`: a wider alphabet changes no word.
-/

namespace Acceptors

namespace Dfa

variable {d : Dfa} {s t c : Nat} {a : String} {w : List String} {sinkName : String}
variable {config : Config} {alphabet : Alphabet}

/-! ## Completion -/

theorem complete_of_isComplete (h : d.isComplete = true) : d.complete sinkName = d := by
  rw [complete, if_pos h]

theorem complete_of_not_isComplete (h : ¬ d.isComplete = true) :
    d.complete sinkName = ofFn d.alphabet (d.names.insert sinkName)
      (fun s c => some ((d.move s c).getD d.size)) d.start d.accepting := by
  rw [complete, if_neg h]

theorem alphabet_complete : (d.complete sinkName).alphabet = d.alphabet := by
  by_cases h : d.isComplete = true
  · rw [complete_of_isComplete h]
  · rw [complete_of_not_isComplete h]
    rfl

theorem start_complete : (d.complete sinkName).start = d.start := by
  by_cases h : d.isComplete = true
  · rw [complete_of_isComplete h]
  · rw [complete_of_not_isComplete h]
    rfl

theorem isAccepting_complete : (d.complete sinkName).isAccepting s = d.isAccepting s := by
  by_cases h : d.isComplete = true
  · rw [complete_of_isComplete h]
  · rw [complete_of_not_isComplete h]
    rfl

theorem toList_names_complete (h : ¬ d.isComplete = true) :
    (d.complete sinkName).names.toList = d.names.toList ++ [d.names.fresh sinkName] := by
  rw [complete_of_not_isComplete h]
  exact StateNames.toList_insert _ _

theorem size_complete_of_not_isComplete (h : ¬ d.isComplete = true) :
    (d.complete sinkName).size = d.size + 1 := by
  rw [complete_of_not_isComplete h]
  exact StateNames.size_insert _ _

theorem size_complete_le (d : Dfa) (sinkName : String) :
    (d.complete sinkName).size ≤ d.size + 1 := by
  by_cases h : d.isComplete = true
  · rw [complete_of_isComplete h]
    exact Nat.le_succ _
  · exact Nat.le_of_eq (size_complete_of_not_isComplete h)

/-- Completion gives no new names to the states that are there. -/
theorem name_complete (hs : s < d.size) : (d.complete sinkName).name s = d.name s := by
  by_cases h : d.isComplete = true
  · rw [complete_of_isComplete h]
  · have hlt : s < (d.complete sinkName).size := by
      rw [size_complete_of_not_isComplete h]
      exact Nat.lt_succ_of_lt hs
    have hname := StateNames.getElem?_toList hlt
    rw [toList_names_complete h, List.getElem?_append_left (by rwa [StateNames.length_toList]),
      StateNames.getElem?_toList hs] at hname
    exact (Option.some.inj hname).symm

theorem WellFormed.complete (hd : d.WellFormed) (sinkName : String) :
    (d.complete sinkName).WellFormed := by
  by_cases h : d.isComplete = true
  · rwa [complete_of_isComplete h]
  · rw [complete_of_not_isComplete h]
    have hsize : (d.names.insert sinkName).size = d.size + 1 := StateNames.size_insert _ _
    refine .ofFn ?_ ?_ ?_ <;> rw [hsize]
    · exact Nat.lt_succ_of_lt hd.start_lt
    · exact fun s hs => Nat.lt_succ_of_lt (hd.accepting_lt s hs)
    · rintro s c _ - ⟨⟩
      cases hmove : d.move s c with
      | none => exact Nat.lt_succ_self _
      | some t => exact Nat.lt_succ_of_lt (hd.move_lt s c t hmove)

/-- A completed automaton has every move. -/
theorem WellFormed.isComplete_complete (hd : d.WellFormed) (sinkName : String) :
    (d.complete sinkName).isComplete = true := by
  rw [(hd.complete sinkName).isComplete_iff]
  by_cases h : d.isComplete = true
  · rw [complete_of_isComplete h]
    exact hd.isComplete_iff.1 h
  · rw [complete_of_not_isComplete h]
    intro s c hs hc
    rw [move_ofFn, if_pos ⟨hs, hc⟩]
    rfl

/-- A completed automaton has the moves that it had before, and moves to the sink. -/
theorem next_complete_eq_some_iff (h : ¬ d.isComplete = true) (hs : s ≤ d.size)
    (sinkName a : String) (t : Nat) :
    (d.complete sinkName).next s a = some t ↔
      a ∈ d.alphabet ∧ (d.next s a).getD d.size = t := by
  have hsize : s < (d.names.insert sinkName).size := by
    rw [StateNames.size_insert]
    exact Nat.lt_succ_of_le hs
  rw [complete_of_not_isComplete h, next_ofFn hsize, ← Alphabet.idxOf?_isSome_iff, next]
  cases d.alphabet.idxOf? a with
  | none => simp
  | some c => simp

/-- No word leads from the sink to an accepting state. -/
theorem WellFormed.dead_sink (hd : d.WellFormed) (h : ¬ d.isComplete = true) :
    (d.complete sinkName).Dead d.size := by
  intro w
  induction w with
  | nil =>
    rw [acceptsFrom_nil, isAccepting_complete, Bool.eq_false_iff]
    exact fun haccepting => absurd (hd.isAccepting_lt haccepting) (Nat.lt_irrefl _)
  | cons a w ih =>
    have hnone : d.next d.size a = none := by
      rw [Option.eq_none_iff_forall_ne_some]
      exact fun t ht => absurd (hd.lt_of_next ht) (Nat.lt_irrefl _)
    rw [acceptsFrom_cons, Option.any_eq_false]
    intro t ht
    obtain ⟨-, rfl⟩ := (next_complete_eq_some_iff h (Nat.le_refl _) _ _ _).1 ht
    rw [hnone]
    exact ih

/-- Completion leaves the words of every state alone. -/
theorem WellFormed.acceptsFrom_complete (hd : d.WellFormed) (hs : s < d.size) :
    (d.complete sinkName).acceptsFrom s w = d.acceptsFrom s w := by
  by_cases h : d.isComplete = true
  · rw [complete_of_isComplete h]
  refine acceptsFrom_eq_of_simulation (R := fun s t => s = t ∧ s < d.size) ?_ ?_ ⟨rfl, hs⟩
  · rintro s _ ⟨rfl, -⟩
    exact isAccepting_complete
  · rintro s _ ⟨rfl, hs⟩ a
    have hnext := next_complete_eq_some_iff h (Nat.le_of_lt hs) sinkName a
    cases ha : d.next s a with
    | some t =>
      have ht := (hnext t).2 ⟨mem_alphabet_of_next ha, by rw [ha]; rfl⟩
      exact .inl ⟨t, t, ht, rfl, rfl, hd.next_lt ha⟩
    | none =>
      refine .inr ⟨fun t ht => ?_, by simp⟩
      obtain ⟨-, rfl⟩ := (hnext t).1 ht
      rw [ha]
      exact hd.dead_sink h

/-- A run that is defined is defined after completion. -/
theorem WellFormed.run_complete (hd : d.WellFormed) (h : d.run s w = some t) :
    (d.complete sinkName).run s w = some t := by
  by_cases hcomplete : d.isComplete = true
  · rwa [complete_of_isComplete hcomplete]
  induction w generalizing s with
  | nil => exact h
  | cons a w ih =>
    rw [run_cons, Option.bind_eq_some_iff] at h
    obtain ⟨r, hr, hrun⟩ := h
    have hnext := (next_complete_eq_some_iff hcomplete (Nat.le_of_lt (hd.lt_of_next hr)) sinkName a
      r).2 ⟨mem_alphabet_of_next hr, by rw [hr]; rfl⟩
    rw [run_cons, hnext]
    exact ih hrun

theorem WellFormed.accepts_complete (hd : d.WellFormed) (sinkName : String) :
    (d.complete sinkName).accepts w = d.accepts w := by
  rw [accepts, start_complete]
  exact hd.acceptsFrom_complete hd.start_lt

/-! ## Complement -/

theorem WellFormed.flip (hd : d.WellFormed) : d.flip.WellFormed where
  shape := hd.shape
  start_lt := hd.start_lt
  accepting_lt _ hs := (StateSet.mem_below.1 hs).1
  move_lt := hd.move_lt

theorem isAccepting_flip (hs : s < d.size) : d.flip.isAccepting s = !d.isAccepting s := by
  rw [Bool.eq_iff_iff]
  show s ∈ StateSet.below d.size (fun s => !d.isAccepting s) ↔ _
  rw [StateSet.mem_below, and_iff_right hs]

/-- Swapping the accepting states of a complete automaton swaps the words over its alphabet that are
    accepted with those that are not. -/
theorem WellFormed.acceptsFrom_flip_iff (hd : d.WellFormed) (hcomplete : d.isComplete = true)
    (hs : s < d.size) :
    d.flip.acceptsFrom s w = true ↔ (∀ a ∈ w, a ∈ d.alphabet) ∧ d.acceptsFrom s w = false := by
  induction w generalizing s with
  | nil =>
    rw [acceptsFrom_nil, acceptsFrom_nil, isAccepting_flip hs]
    simp
  | cons a w ih =>
    have hnext : d.flip.next s a = d.next s a := rfl
    rw [acceptsFrom_cons, acceptsFrom_cons, hnext, List.forall_mem_cons]
    cases ha : d.next s a with
    | some t =>
      rw [Option.any_some, Option.any_some, ih (hd.next_lt ha),
        and_iff_right (mem_alphabet_of_next ha)]
    | none =>
      have hnot : a ∉ d.alphabet := by
        intro hmem
        obtain ⟨t, ht⟩ := hd.exists_next hcomplete hs hmem
        rw [ha] at ht
        cases ht
      simp [hnot]

theorem alphabet_complement : (d.complement config).alphabet = d.alphabet := alphabet_complete

theorem WellFormed.complement (hd : d.WellFormed) (config : Config) :
    (d.complement config).WellFormed := (hd.complete config.sinkName).flip

theorem WellFormed.isComplete_complement (hd : d.WellFormed) (config : Config) :
    (d.complement config).isComplete = true := hd.isComplete_complete config.sinkName

/-- A complement accepts the words over the alphabet that the automaton rejects. -/
theorem WellFormed.accepts_complement_iff (hd : d.WellFormed) (config : Config) :
    (d.complement config).accepts w = true ↔
      (∀ a ∈ w, a ∈ d.alphabet) ∧ d.accepts w = false := by
  have hcomplete := hd.complete config.sinkName
  show (d.complete config.sinkName).flip.acceptsFrom (d.complete config.sinkName).start w = true ↔ _
  rw [hcomplete.acceptsFrom_flip_iff (hd.isComplete_complete _) hcomplete.start_lt, start_complete,
    alphabet_complete, hd.acceptsFrom_complete hd.start_lt]
  rfl

/-! ## Another alphabet -/

theorem move_widen :
    (d.widen alphabet).move s c =
      if s < d.size ∧ c < alphabet.size then
        ((alphabet.columnsIn d.alphabet)[c]?.join).bind (d.move s)
      else none := by
  simp only [move, widen, Grid.get?_ofFn]
  split <;> rfl

theorem WellFormed.widen (hd : d.WellFormed) (alphabet : Alphabet) :
    (d.widen alphabet).WellFormed where
  shape := Grid.hasShape_ofFn
  start_lt := hd.start_lt
  accepting_lt := hd.accepting_lt
  move_lt s c t ht := by
    rw [move_widen] at ht
    split at ht
    · obtain ⟨column, -, ht⟩ := Option.bind_eq_some_iff.1 ht
      exact hd.move_lt s column t ht
    · cases ht

/-- An alphabet that has all symbols of an automaton leaves its moves alone. -/
theorem WellFormed.next_widen (hd : d.WellFormed) (hsub : ∀ x ∈ d.alphabet, x ∈ alphabet) :
    (d.widen alphabet).next s a = d.next s a := by
  show (alphabet.idxOf? a).bind ((d.widen alphabet).move s) = d.next s a
  cases hc : alphabet.idxOf? a with
  | none =>
    have hnot : a ∉ d.alphabet := fun hmem => Alphabet.idxOf?_eq_none_iff.1 hc (hsub a hmem)
    rw [next, Alphabet.idxOf?_eq_none_iff.2 hnot]
    rfl
  | some c =>
    rw [Option.bind_some, move_widen, Alphabet.columnsIn_of_idxOf? hc]
    split
    · rfl
    · next hout =>
      rw [eq_comm, Option.eq_none_iff_forall_ne_some]
      exact fun t ht => hout ⟨hd.lt_of_next ht, Alphabet.lt_size_of_idxOf? hc⟩

theorem WellFormed.acceptsFrom_widen (hd : d.WellFormed) (hsub : ∀ x ∈ d.alphabet, x ∈ alphabet) :
    (d.widen alphabet).acceptsFrom s w = d.acceptsFrom s w := by
  induction w generalizing s with
  | nil => rfl
  | cons a w ih =>
    rw [acceptsFrom_cons, acceptsFrom_cons, hd.next_widen hsub]
    simp only [ih]

theorem WellFormed.accepts_widen (hd : d.WellFormed) (hsub : ∀ x ∈ d.alphabet, x ∈ alphabet) :
    (d.widen alphabet).accepts w = d.accepts w := hd.acceptsFrom_widen hsub

end Dfa

end Acceptors
