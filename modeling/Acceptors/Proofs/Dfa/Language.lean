import Mathlib.Computability.Language
import Acceptors.Dfa.Basic
import Acceptors.Proofs.Nfa.Shape

/-!
# The words of a state of a deterministic automaton

A move is named here by the text of its symbol, not by its column, so that automata over different
alphabets can be compared. Two states accept the same words if they accept alike and each symbol
leads them to two such states again, or leads neither of them to a state that accepts any word.

Results:
* `Dfa.run_append`, `Dfa.acceptsFrom_append`: runs are cut at any place of their words.
* `Dfa.acceptsFrom_eq_of_simulation`: related states accept the same words.
* `Dfa.WellFormed.isComplete_iff`: in a complete automaton every symbol of the alphabet has a move.
* `Dfa.WellFormed.eq_of_next`: automata are equal if their states have the same names and moves.
* `Dfa.WellFormed.ofFn`: tables made from functions are well-formed if the functions stay in range.
* `Dfa.WellFormed.addState`, `Dfa.WellFormed.setMove`, `Dfa.WellFormed.setStart`,
  `Dfa.WellFormed.setAccepting`: automata built step by step.
-/

namespace Acceptors

namespace Dfa

variable {d e : Dfa} {s t c : Nat} {a : String} {v w : List String}

/-- The state to which a state has a move on the symbol `a`, if there is one. -/
def next (d : Dfa) (s : Nat) (a : String) : Option Nat := (d.alphabet.idxOf? a).bind (d.move s)

/-- The words that an automaton accepts. -/
def language (d : Dfa) : Language String := fun w => d.accepts w = true

theorem mem_language : w ∈ d.language ↔ d.accepts w = true := Iff.rfl

/-- No word leads from the state to an accepting one. -/
def Dead (d : Dfa) (s : Nat) : Prop := ∀ w, d.acceptsFrom s w = false

theorem next_eq_some_iff :
    d.next s a = some t ↔ ∃ c, d.alphabet.idxOf? a = some c ∧ d.move s c = some t :=
  Option.bind_eq_some_iff

/-! ## Runs -/

theorem run_cons : d.run s (a :: w) = (d.next s a).bind fun t => d.run t w := by
  rw [run, next]
  cases (d.alphabet.idxOf? a).bind (d.move s) <;> rfl

theorem run_append : d.run s (v ++ w) = (d.run s v).bind fun t => d.run t w := by
  induction v generalizing s with
  | nil => rfl
  | cons a v ih =>
    rw [List.cons_append, run_cons, run_cons]
    cases d.next s a with
    | none => rfl
    | some t => exact ih

theorem acceptsFrom_nil : d.acceptsFrom s [] = d.isAccepting s := rfl

theorem acceptsFrom_cons :
    d.acceptsFrom s (a :: w) = (d.next s a).any fun t => d.acceptsFrom t w := by
  rw [acceptsFrom, run_cons]
  cases d.next s a <;> rfl

theorem acceptsFrom_append :
    d.acceptsFrom s (v ++ w) = (d.run s v).any fun t => d.acceptsFrom t w := by
  rw [acceptsFrom, run_append]
  cases d.run s v <;> rfl

theorem acceptsFrom_iff :
    d.acceptsFrom s w = true ↔ ∃ t, d.run s w = some t ∧ d.isAccepting t = true := by
  rw [acceptsFrom, Option.any_eq_true]

theorem not_dead_iff : ¬ d.Dead s ↔ ∃ w, d.acceptsFrom s w = true := by
  rw [Dead, not_forall]
  simp only [Bool.not_eq_false]

theorem accepts_some_or_none (d : Dfa) :
    (∃ w, d.accepts w = true) ∨ ∀ w, d.accepts w = false := by
  simpa only [not_exists, Bool.not_eq_true] using Classical.em (∃ w, d.accepts w = true)

theorem any_acceptsFrom_eq_false {o : Option Nat} (h : ∀ t, o = some t → d.Dead t)
    (w : List String) : (o.any fun t => d.acceptsFrom t w) = false := by
  cases o with
  | none => rfl
  | some t => exact h t rfl w

/-- Related states accept the same words, if they accept alike and every symbol leads them to
    related states, or leads neither of them to a state that accepts any word. -/
theorem acceptsFrom_eq_of_simulation {R : Nat → Nat → Prop}
    (haccepting : ∀ s t, R s t → d.isAccepting s = e.isAccepting t)
    (hnext : ∀ s t, R s t → ∀ a,
      (∃ s' t', d.next s a = some s' ∧ e.next t a = some t' ∧ R s' t') ∨
        (∀ s', d.next s a = some s' → d.Dead s') ∧ ∀ t', e.next t a = some t' → e.Dead t')
    (h : R s t) : d.acceptsFrom s w = e.acceptsFrom t w := by
  induction w generalizing s t with
  | nil => exact haccepting s t h
  | cons a w ih =>
    rw [acceptsFrom_cons, acceptsFrom_cons]
    rcases hnext s t h a with ⟨s', t', hs, ht, h'⟩ | ⟨hs, ht⟩
    · rw [hs, ht]
      exact ih h'
    · rw [any_acceptsFrom_eq_false hs, any_acceptsFrom_eq_false ht]

/-! ## Range of the tables -/

theorem WellFormed.lt_of_move (hd : d.WellFormed) (h : d.move s c = some t) :
    s < d.size ∧ c < d.alphabet.size := by
  rw [← hd.shape.get?_isSome, Option.isSome_iff_ne_none]
  intro hnone
  rw [move, hnone] at h
  cases h

theorem WellFormed.lt_of_next (hd : d.WellFormed) (h : d.next s a = some t) : s < d.size := by
  obtain ⟨c, -, hc⟩ := next_eq_some_iff.1 h
  exact (hd.lt_of_move hc).1

theorem mem_alphabet_of_next (h : d.next s a = some t) : a ∈ d.alphabet := by
  obtain ⟨c, hc, -⟩ := next_eq_some_iff.1 h
  exact Alphabet.mem_of_idxOf? hc

theorem WellFormed.next_lt (hd : d.WellFormed) (h : d.next s a = some t) : t < d.size := by
  obtain ⟨c, -, hc⟩ := next_eq_some_iff.1 h
  exact hd.move_lt s c t hc

theorem WellFormed.run_lt (hd : d.WellFormed) (hs : s < d.size) (h : d.run s w = some t) :
    t < d.size := by
  induction w generalizing s with
  | nil =>
    cases h
    exact hs
  | cons a w ih =>
    rw [run_cons] at h
    obtain ⟨r, hr, h⟩ := Option.bind_eq_some_iff.1 h
    exact ih (hd.next_lt hr) h

/-- A word that is accepted has no symbol from outside the alphabet. -/
theorem mem_alphabet_of_acceptsFrom (h : d.acceptsFrom s w = true) : ∀ a ∈ w, a ∈ d.alphabet := by
  induction w generalizing s with
  | nil => simp
  | cons a w ih =>
    rw [acceptsFrom_cons, Option.any_eq_true] at h
    obtain ⟨t, ht, h⟩ := h
    exact List.forall_mem_cons.2 ⟨mem_alphabet_of_next ht, ih h⟩

theorem WellFormed.isAccepting_lt (hd : d.WellFormed) (h : d.isAccepting s = true) : s < d.size :=
  hd.accepting_lt s h

/-- Tables made from functions are well-formed if the functions stay in range. -/
theorem WellFormed.ofFn {alphabet : Alphabet} {names : StateNames}
    {move : Nat → Nat → Option Nat} {start : Nat} {accepting : StateSet}
    (hstart : start < names.size) (haccepting : ∀ s ∈ accepting, s < names.size)
    (hmove : ∀ s c t, s < names.size → move s c = some t → t < names.size) :
    (Dfa.ofFn alphabet names move start accepting).WellFormed where
  shape := Grid.hasShape_ofFn
  start_lt := hstart
  accepting_lt := haccepting
  move_lt s c t ht := by
    rw [move_ofFn] at ht
    split at ht
    · next h => exact hmove s c t h.1 ht
    · cases ht

/-- The moves of a table made from a function, on symbols of the alphabet. -/
theorem next_ofFn {alphabet : Alphabet} {names : StateNames} {move : Nat → Nat → Option Nat}
    {start : Nat} {accepting : StateSet} (hs : s < names.size) :
    (ofFn alphabet names move start accepting).next s a = (alphabet.idxOf? a).bind (move s) := by
  show (alphabet.idxOf? a).bind _ = _
  cases hc : alphabet.idxOf? a with
  | none => rfl
  | some c =>
    rw [Option.bind_some, Option.bind_some, move_ofFn,
      if_pos ⟨hs, Alphabet.lt_size_of_idxOf? hc⟩]

/-! ## Equal automata -/

/-- Tables of one shape are the same if they hold the same moves. -/
theorem WellFormed.moves_eq_of_move (hd : d.WellFormed) (he : e.WellFormed)
    (halphabet : d.alphabet = e.alphabet) (hsize : d.size = e.size)
    (hmove : ∀ s c, d.move s c = e.move s c) : d.moves = e.moves := by
  have hshape : e.moves.HasShape d.size d.alphabet.size := by
    rw [hsize, halphabet]
    exact he.shape
  have hcell : ∀ (d : Dfa) s c, (d.moves.get? s c).getD none = d.move s c := by
    intro d s c
    rw [move]
    cases d.moves.get? s c <;> rfl
  exact hd.shape.eq_of_getD hshape none fun s c => by rw [hcell, hcell, hmove]

/-- Automata are the same if they have the same symbols, names and start state, and each of their
    states accepts and moves alike. -/
theorem WellFormed.eq_of_next (hd : d.WellFormed) (he : e.WellFormed)
    (halphabet : d.alphabet = e.alphabet) (hnames : d.names = e.names) (hstart : d.start = e.start)
    (haccepting : ∀ s < d.size, d.isAccepting s = e.isAccepting s)
    (hnext : ∀ s < d.size, ∀ a, d.next s a = e.next s a) : d = e := by
  have hsize : d.size = e.size := congrArg StateNames.size hnames
  have hmove : ∀ s c, d.move s c = e.move s c := by
    intro s c
    by_cases hin : s < d.size ∧ c < d.alphabet.size
    · obtain ⟨a, ha⟩ := Alphabet.exists_idxOf?_eq_some hin.2
      have hcell := hnext s hin.1 a
      rwa [next, next, ← halphabet, ha, Option.bind_some, Option.bind_some] at hcell
    · have hd' : d.move s c = none := Option.eq_none_iff_forall_ne_some.2 fun t ht =>
        hin (hd.lt_of_move ht)
      have he' : e.move s c = none := Option.eq_none_iff_forall_ne_some.2 fun t ht =>
        hin (by rw [hsize, halphabet]; exact he.lt_of_move ht)
      rw [hd', he']
  have hmoves := hd.moves_eq_of_move he halphabet hsize hmove
  have hstates : d.accepting = e.accepting := by
    refine StateSet.ext fun s => ⟨fun hs => ?_, fun hs => ?_⟩
    · exact (haccepting s (hd.accepting_lt s hs)).symm.trans hs
    · exact (haccepting s (hsize ▸ he.accepting_lt s hs)).trans hs
  calc d = ⟨d.alphabet, d.names, d.moves, d.start, d.accepting⟩ := rfl
    _ = ⟨e.alphabet, e.names, e.moves, e.start, e.accepting⟩ := by
      rw [halphabet, hnames, hmoves, hstart, hstates]
    _ = e := rfl

/-! ## The automaton of one state -/

theorem move_new {alphabet : Alphabet} {name : String} : (new alphabet name).move s c = none := by
  have hempty : (Grid.empty : Grid (Option Nat)).HasShape 0 alphabet.size :=
    ⟨rfl, by simp [Grid.empty]⟩
  rw [move, new, Grid.get?_addRow hempty]
  split
  · split <;> rfl
  · simp [Grid.get?, Grid.empty]

theorem next_new {alphabet : Alphabet} {name : String} : (new alphabet name).next s a = none := by
  rw [next, Option.bind_eq_none_iff]
  exact fun c _ => move_new

/-- No word leads anywhere in the automaton of one state. -/
theorem dead_new {alphabet : Alphabet} {name : String} : (new alphabet name).Dead s := by
  intro w
  cases w with
  | nil => exact Bool.eq_false_iff.2 (StateSet.not_mem_empty s)
  | cons a w =>
    rw [acceptsFrom_cons, next_new]
    rfl

theorem size_new {alphabet : Alphabet} {name : String} : (new alphabet name).size = 1 :=
  StateNames.size_insert .empty name

theorem name_new {alphabet : Alphabet} {name : String} : (new alphabet name).name 0 = name := by
  have hname : (StateNames.empty.insert name).toList[0]? =
      some ((StateNames.empty.insert name).name 0) :=
    StateNames.getElem?_toList (by rw [StateNames.size_insert]; exact Nat.zero_lt_one)
  rw [StateNames.toList_insert] at hname
  exact (Option.some.inj hname).symm

theorem wellFormed_new {alphabet : Alphabet} {name : String} :
    (new alphabet name).WellFormed where
  shape := by
    rw [size_new]
    exact Grid.HasShape.addRow ⟨rfl, by simp [Grid.empty]⟩ none
  start_lt := by
    rw [size_new]
    exact Nat.one_pos
  accepting_lt s hs := absurd hs (StateSet.not_mem_empty s)
  move_lt s c t ht := by
    rw [move_new] at ht
    cases ht

/-! ## Automata built step by step -/

theorem size_addState (name : String) : (d.addState name).size = d.size + 1 :=
  StateNames.size_insert d.names name

theorem move_addState (hd : d.WellFormed) (name : String) :
    (d.addState name).move s c = d.move s c := by
  simp only [move, addState, Grid.get?_addRow hd.shape]
  split
  · next hs =>
    have hnone : d.moves.get? s c = none := by
      rw [← Option.not_isSome_iff_eq_none, hd.shape.get?_isSome]
      omega
    rw [hnone]
    split <;> rfl
  · rfl

theorem WellFormed.addState (hd : d.WellFormed) (name : String) :
    (d.addState name).WellFormed where
  shape := by
    rw [size_addState]
    exact hd.shape.addRow none
  start_lt := by
    rw [size_addState]
    exact Nat.lt_succ_of_lt hd.start_lt
  accepting_lt s hs := by
    rw [size_addState]
    exact Nat.lt_succ_of_lt (hd.accepting_lt s hs)
  move_lt s c t ht := by
    rw [move_addState hd] at ht
    rw [size_addState]
    exact Nat.lt_succ_of_lt (hd.move_lt s c t ht)

/-- A cell that is overwritten has the new target, if there is such a cell. -/
theorem move_setMove (hd : d.WellFormed) {source column : Nat} {target : Option Nat} :
    (d.setMove source column target).move s c =
      if (source < d.size ∧ column < d.alphabet.size) ∧ s = source ∧ c = column then target
      else d.move s c := by
  simp only [move, setMove, Grid.get?_set, ← hd.shape.get?_isSome]
  by_cases hcell : s = source ∧ c = column
  · obtain ⟨rfl, rfl⟩ := hcell
    cases d.moves.get? s c <;> simp
  · simp [hcell]

theorem WellFormed.setMove (hd : d.WellFormed) (source column : Nat) {target : Option Nat}
    (htarget : ∀ t, target = some t → t < d.size) :
    (d.setMove source column target).WellFormed where
  shape := hd.shape.set _ _ _
  start_lt := hd.start_lt
  accepting_lt := hd.accepting_lt
  move_lt s c t ht := by
    rw [move_setMove hd] at ht
    split at ht
    · exact htarget t ht
    · exact hd.move_lt s c t ht

theorem WellFormed.setStart (hd : d.WellFormed) {state : Nat} (hstate : state < d.size) :
    (d.setStart state).WellFormed where
  shape := hd.shape
  start_lt := hstate
  accepting_lt := hd.accepting_lt
  move_lt := hd.move_lt

theorem WellFormed.setAccepting (hd : d.WellFormed) {state : Nat} (hstate : state < d.size)
    (accepts : Bool) : (d.setAccepting state accepts).WellFormed where
  shape := hd.shape
  start_lt := hd.start_lt
  accepting_lt s hs := by
    cases accepts with
    | true =>
      rcases StateSet.mem_insert.1 hs with hs | rfl
      · exact hd.accepting_lt s hs
      · exact hstate
    | false => exact hd.accepting_lt s (StateSet.mem_erase.1 hs).1
  move_lt := hd.move_lt

/-! ## Complete automata -/

theorem WellFormed.isComplete_iff (hd : d.WellFormed) :
    d.isComplete = true ↔
      ∀ s c, s < d.size → c < d.alphabet.size → (d.move s c).isSome = true := by
  rw [isComplete, Grid.all_iff]
  constructor
  · intro h s c hs hc
    obtain ⟨x, hx⟩ := Option.isSome_iff_exists.1 (hd.shape.get?_isSome.2 ⟨hs, hc⟩)
    rw [move, hx]
    exact h s c x hx
  · intro h s c x hx
    obtain ⟨hs, hc⟩ := hd.shape.get?_isSome.1 (by rw [hx]; rfl)
    have hmove := h s c hs hc
    rwa [move, hx] at hmove

/-- An automaton is complete if every symbol of the alphabet leads somewhere. -/
theorem WellFormed.isComplete_of_next (hd : d.WellFormed)
    (h : ∀ s < d.size, ∀ a ∈ d.alphabet, ∃ t, d.next s a = some t) : d.isComplete = true := by
  rw [hd.isComplete_iff]
  intro s c hs hc
  obtain ⟨a, ha⟩ := Alphabet.exists_idxOf?_eq_some hc
  obtain ⟨t, ht⟩ := h s hs a (Alphabet.mem_of_idxOf? ha)
  rw [next, ha, Option.bind_some] at ht
  rw [ht]
  rfl

/-- In a complete automaton, every symbol of the alphabet leads somewhere. -/
theorem WellFormed.exists_next (hd : d.WellFormed) (hcomplete : d.isComplete = true)
    (hs : s < d.size) (ha : a ∈ d.alphabet) : ∃ t, d.next s a = some t := by
  obtain ⟨c, hc⟩ := Alphabet.exists_idxOf?_of_mem ha
  obtain ⟨t, ht⟩ := Option.isSome_iff_exists.1
    (hd.isComplete_iff.1 hcomplete s c hs (Alphabet.lt_size_of_idxOf? hc))
  exact ⟨t, next_eq_some_iff.2 ⟨c, hc, ht⟩⟩

end Dfa

end Acceptors
