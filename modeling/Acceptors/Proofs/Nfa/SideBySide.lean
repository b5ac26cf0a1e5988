import Acceptors.Proofs.Grown
import Acceptors.Proofs.Nfa.Joined
import Acceptors.Proofs.Renamed
import Acceptors.Proofs.Widened

/-!
# Automata are put side by side state by state

To join two automata, the columns of the left one are moved to where they belong in the union of
the alphabets. Then the states of the right one are added, each with its name or, if this is taken,
with a suffix, and its moves are added one after the other: the column of a move is looked up by its
symbol, and its two states by the numbers that they were given.

Every cell that is read or written must exist, and so must every number that is looked up. For
well-formed operands the loops have a result. It is the joined automaton, in which the two operands
stand side by side: each has its own states and moves, and no move leads from one to the other.

Results:
* `Nfa.Adds`, `Nfa.Adds.exists_foldlM`: what loops add whose steps add moves.
* `Nfa.WellFormed.joined?_eq`: the loops make the joined automaton.
* `Nfa.SideBySide`, `Nfa.WellFormed.sideBySide_join`: what the joined automaton is made of.
* `Nfa.join_exact`: all of it, and what a wider alphabet does to a deterministic automaton.
-/

namespace Acceptors

open Table (targetsOn)

namespace Nfa

/-! ## The loops -/

/-- Adds states of the given names, and lists their numbers (the first loop of `embed`). -/
def addStates (n : Nfa) : (names : List String) → Nfa × List Nat
  | [] => (n, [])
  | name :: names =>
    let (m, ids) := (n.addState name).addStates names
    (m, n.size :: ids)

/-- Adds a move like `addEdge`, if there is a place for it. -/
def addEdge? (n : Nfa) (s : Nat) (column : Option Nat) (t : Nat) : Option Nfa :=
  match column with
  | some c => (n.moves.get? s c).map fun _ => n.addMove s c t
  | none => n.epsilon[s]?.map fun _ => n.addEpsilon s t

/-- The targets of a state like `targetsOn`, if there is a place for them. -/
def targetsOn? (n : Nfa) (s : Nat) (column : Option Nat) : Option StateSet :=
  match column with
  | some c => n.moves.get? s c
  | none => n.epsilon[s]?

/-- Adds a move from the state with the number `s` in the other automaton to each of its targets
    there. The columns are those of the move in the other automaton and in this one. -/
def embedCell? (other : Nfa) (ids : List Nat) (s : Nat) (old new : Option Nat) (n : Nfa) :
    Option Nfa := do
  let targets ← other.targetsOn? s old
  targets.members.foldlM (fun n t => do n.addEdge? (← ids[s]?) new (← ids[t]?)) n

/-- Adds the moves that a state has in the other automaton on the symbol of a column. A symbol that
    has no column in this one is passed over. -/
def embedColumn? (other : Nfa) (ids : List Nat) (s : Nat) (n : Nfa) :
    Option Nat × Nat → Option Nfa
  | (none, _) => some n
  | (some new, old) => other.embedCell? ids s (some old) (some new) n

/-- Adds the moves that a state has in the other automaton, first those on its symbols and then the
    epsilon moves (the second loop of `embed`). -/
def embedState? (other : Nfa) (ids : List Nat) (columns : List (Option Nat)) (n : Nfa) (s : Nat) :
    Option Nfa := do
  let n ← columns.zipIdx.foldlM (other.embedColumn? ids s) n
  other.embedCell? ids s none none n

/-- Adds the states and the moves of the other automaton, and lists the numbers of its states
    (`embed`). -/
def embedded? (n other : Nfa) : Option (Nfa × List Nat) := do
  guard (n.alphabet.isSupersetOf other.alphabet)
  let (n, ids) := n.addStates ((List.range other.size).map other.name)
  let columns := other.alphabet.symbols.map n.alphabet.idxOf?
  let n ← (List.range other.size).foldlM (other.embedState? ids columns) n
  return (n, ids)

/-- Two automata side by side over the union of their alphabets, and the numbers of the states of
    the right one (`join`). -/
def joined? (l r : Nfa) : Option (Nfa × List Nat) := do
  let n ← l.widened? (l.alphabet.union r.alphabet)
  n.embedded? r

variable {n m l r other : Nfa} {s t p q : Nat} {a : String} {old new column : Option Nat}
variable {front names : List String} {D : Set (Nat × Option Nat × Nat)}

/-! ## States and moves are added -/

/-- The automaton `m` is `n` with more states, of the given names, and with the given moves. -/
structure Adds (n : Nfa) (names : List String) (D : Set (Nat × Option Nat × Nat)) (m : Nfa) :
    Prop where
  wellFormed : m.WellFormed
  alphabet_eq : m.alphabet = n.alphabet
  names_eq : m.names = n.names.insertAll names
  start_eq : m.start = n.start
  accepting_eq : m.accepting = n.accepting
  mem_targetsOn : ∀ s column t,
    t ∈ targetsOn m s column ↔ t ∈ targetsOn n s column ∨ (s, column, t) ∈ D

theorem WellFormed.adds_nil (hn : n.WellFormed) : n.Adds [] ∅ n :=
  ⟨hn, rfl, rfl, rfl, rfl, fun _ _ _ => (or_iff_left (Set.notMem_empty _)).symm⟩

theorem Adds.size_eq (h : n.Adds names D m) : m.size = n.size + names.length := by
  rw [size, h.names_eq, StateNames.size_insertAll]
  rfl

theorem targetsOn_addState (hn : n.WellFormed) (name : String) :
    targetsOn (n.addState name) s column = targetsOn n s column := by
  cases column with
  | some c => exact targets_addState hn name
  | none => exact epsilonTargets_addState name

theorem Adds.addState (h : n.Adds names D m) (name : String) :
    n.Adds (names ++ [name]) D (m.addState name) where
  wellFormed := h.wellFormed.addState name
  alphabet_eq := h.alphabet_eq
  names_eq := by
    show m.names.insert name = _
    rw [h.names_eq, StateNames.insertAll, StateNames.insertAll, List.foldl_append]
    rfl
  start_eq := h.start_eq
  accepting_eq := h.accepting_eq
  mem_targetsOn s column t := by rw [targetsOn_addState h.wellFormed, h.mem_targetsOn]

theorem Adds.addStates (h : n.Adds front D m) (names : List String) :
    n.Adds (front ++ names) D (m.addStates names).1 := by
  induction names generalizing front m with
  | nil =>
    rw [List.append_nil]
    exact h
  | cons name names ih =>
    rw [← List.singleton_append, ← List.append_assoc]
    exact ih (h.addState name)

/-- The states get the next numbers. -/
theorem addStates_snd (n : Nfa) (names : List String) :
    (n.addStates names).2 = List.range' n.size names.length := by
  induction names generalizing n with
  | nil => rfl
  | cons name names ih =>
    rw [List.length_cons, List.range'_succ, ← size_addState name, ← ih]
    rfl

theorem addEdge?_eq (hn : n.WellFormed) (hs : s < n.size) (hcolumn : n.HasColumn column) :
    n.addEdge? s column t = some (n.addEdge s column t) := by
  cases column with
  | some c =>
    obtain ⟨X, hX⟩ := Option.isSome_iff_exists.1 (hn.shape.get?_isSome.2 ⟨hs, hcolumn c rfl⟩)
    rw [addEdge?, hX]
    rfl
  | none =>
    have hlt : s < n.epsilon.size := hn.epsilon_size ▸ hs
    rw [addEdge?, Array.getElem?_eq_getElem hlt]
    rfl

theorem targetsOn?_eq (hn : n.WellFormed) (hs : s < n.size) (hcolumn : n.HasColumn column) :
    n.targetsOn? s column = some (targetsOn n s column) := by
  cases column with
  | some c =>
    obtain ⟨X, hX⟩ := Option.isSome_iff_exists.1 (hn.shape.get?_isSome.2 ⟨hs, hcolumn c rfl⟩)
    rw [targetsOn?, targetsOn, targets, hX]
    rfl
  | none =>
    have hlt : s < n.epsilon.size := hn.epsilon_size ▸ hs
    rw [targetsOn?, targetsOn, epsilonTargets, Array.getElem?_eq_getElem hlt]
    rfl

/-- One more move is added. -/
theorem Adds.addEdge? (h : n.Adds names D m) (hs : s < m.size) (hcolumn : n.HasColumn column)
    (ht : t < m.size) :
    ∃ m', m.addEdge? s column t = some m' ∧ n.Adds names (D ∪ {(s, column, t)}) m' := by
  have hcolumn' : m.HasColumn column := by rwa [HasColumn, h.alphabet_eq]
  refine ⟨m.addEdge s column t, addEdge?_eq h.wellFormed hs hcolumn', ?_⟩
  exact {
    wellFormed := h.wellFormed.addEdge s column ht
    alphabet_eq := alphabet_addEdge.trans h.alphabet_eq
    names_eq := names_addEdge.trans h.names_eq
    start_eq := start_addEdge.trans h.start_eq
    accepting_eq := accepting_addEdge.trans h.accepting_eq
    mem_targetsOn := fun p on q => by
      rw [mem_targetsOn_addEdge h.wellFormed, h.mem_targetsOn, and_iff_right ⟨hs, hcolumn'⟩,
        Set.mem_union, Set.mem_singleton_iff, Prod.mk.injEq, Prod.mk.injEq, or_assoc] }

/-- A loop whose steps add moves adds them all. -/
theorem Adds.exists_foldlM {α : Type} {f : Nfa → α → Option Nfa}
    {E : α → Set (Nat × Option Nat × Nat)} (h : n.Adds names D m) (items : List α)
    (hstep : ∀ a ∈ items, ∀ D m, n.Adds names D m →
      ∃ m', f m a = some m' ∧ n.Adds names (D ∪ E a) m') :
    ∃ m', items.foldlM f m = some m' ∧ n.Adds names (D ∪ {x | ∃ a ∈ items, x ∈ E a}) m' := by
  obtain ⟨m', hloop, hm'⟩ := exists_foldlM_eq_some
    (P := fun k m => n.Adds names (D ∪ {x | ∃ a ∈ items.take k, x ∈ E a}) m) (by simpa using h)
    fun k a m ha hm => by
      obtain ⟨m', hfirst, hm'⟩ := hstep a (List.mem_of_getElem? ha) _ m hm
      refine ⟨m', hfirst, ?_⟩
      have hunion : {x | ∃ b ∈ items.take (k + 1), x ∈ E b} =
          {x | ∃ b ∈ items.take k, x ∈ E b} ∪ E a := by
        ext x
        simp [List.take_add_one, ha, or_and_right, exists_or]
      rwa [hunion, ← Set.union_assoc]
  rw [List.take_length] at hm'
  exact ⟨m', hloop, hm'⟩

/-! ## The other automaton is embedded -/

/-- The moves of a state to the targets that it has in the other automaton. The numbers of the
    states begin at `first`, and the columns are those before and now. -/
def movedCell (other : Nfa) (first s : Nat) (old new : Option Nat) :
    Set (Nat × Option Nat × Nat) :=
  {x | ∃ t ∈ targetsOn other s old, x = (first + s, new, first + t)}

/-- The moves of a state for those that it has in the other automaton, each on the column that its
    symbol has now. -/
inductive MovedUp (alphabet : Alphabet) (other : Nfa) (first s : Nat) :
    Nat × Option Nat × Nat → Prop
  | move {a : String} {c t : Nat} : alphabet.idxOf? a = some c → other.Moves s a t →
      MovedUp alphabet other first s (first + s, some c, first + t)
  | epsilon {t : Nat} : t ∈ other.epsilonTargets s →
      MovedUp alphabet other first s (first + s, none, first + t)

/-- The columns that are looked up are those of the symbols. -/
theorem mem_zipIdx_map_idxOf?_iff {a b : Alphabet} {i : Nat} :
    (new, i) ∈ (a.symbols.map b.idxOf?).zipIdx ↔ ∃ x, a.idxOf? x = some i ∧ b.idxOf? x = new := by
  simp only [List.mem_zipIdx_iff_getElem?, List.getElem?_map, Option.map_eq_some_iff,
    ← Alphabet.get?_eq_some_iff (a := a), Alphabet.get?]

/-- The moves of a state are those on the columns that are looked up, and its epsilon moves. -/
theorem movedUp_eq (alphabet : Alphabet) (other : Nfa) (first s : Nat) :
    {x | MovedUp alphabet other first s x} =
      {x | ∃ column ∈ (other.alphabet.symbols.map alphabet.idxOf?).zipIdx,
        column.1.isSome = true ∧ x ∈ other.movedCell first s (some column.2) column.1} ∪
      other.movedCell first s none none := by
  ext x
  constructor
  · rintro (⟨hnew, i, hold, ht⟩ | ht)
    · exact .inl ⟨_, mem_zipIdx_map_idxOf?_iff.2 ⟨_, hold, hnew⟩, rfl, _, ht, rfl⟩
    · exact .inr ⟨_, ht, rfl⟩
  · rintro (⟨⟨new, old⟩, hcolumn, hsome, t, ht, rfl⟩ | ⟨t, ht, rfl⟩)
    · obtain ⟨x, hold, rfl⟩ := mem_zipIdx_map_idxOf?_iff.1 hcolumn
      obtain ⟨c, hnew⟩ := Option.isSome_iff_exists.1 hsome
      rw [hnew]
      exact .move hnew ⟨old, hold, ht⟩
    · exact .epsilon ht

section Embedded

variable (h : n.Adds other.names.toList D m) (hother : other.WellFormed)
include h hother

theorem Adds.exists_embedCell? (hs : s < other.size) (hold : other.HasColumn old)
    (hnew : n.HasColumn new) :
    ∃ m', other.embedCell? (List.range' n.size other.size) s old new m = some m' ∧
      n.Adds other.names.toList (D ∪ other.movedCell n.size s old new) m' := by
  have hid : ∀ {s}, s < other.size → (List.range' n.size other.size)[s]? = some (n.size + s) := by
    intro s hs
    rw [List.getElem?_range' hs, Nat.one_mul]
  obtain ⟨m', hloop, hm'⟩ := h.exists_foldlM (targetsOn other s old).members
    (f := fun m t => do
      m.addEdge? (← (List.range' n.size other.size)[s]?) new
        (← (List.range' n.size other.size)[t]?))
    (E := fun t => {(n.size + s, new, n.size + t)}) fun t ht D m hm => by
      have ht' : t < other.size := Table.targetsOn_lt hother (StateSet.mem_members.1 ht)
      have hlt : ∀ {s}, s < other.size → n.size + s < m.size := fun hs => by
        rw [hm.size_eq, StateNames.length_toList]
        exact Nat.add_lt_add_left hs _
      simp only [hid hs, hid ht']
      exact hm.addEdge? (hlt hs) hnew (hlt ht')
  refine ⟨m', ?_, ?_⟩
  · rw [embedCell?, targetsOn?_eq hother hs hold]
    exact hloop
  · simpa only [movedCell, StateSet.mem_members, Set.mem_singleton_iff] using hm'

theorem Adds.exists_embedColumn? (hs : s < other.size) {column : Option Nat × Nat}
    (hcolumn : column ∈ (other.alphabet.symbols.map n.alphabet.idxOf?).zipIdx) :
    ∃ m', other.embedColumn? (List.range' n.size other.size) s m column = some m' ∧
      n.Adds other.names.toList (D ∪ {x | column.1.isSome = true ∧
        x ∈ other.movedCell n.size s (some column.2) column.1}) m' := by
  obtain ⟨new, old⟩ := column
  obtain ⟨x, hold, rfl⟩ := mem_zipIdx_map_idxOf?_iff.1 hcolumn
  cases hnew : n.alphabet.idxOf? x with
  | none => exact ⟨m, rfl, by simpa using h⟩
  | some c =>
    have hold' : other.HasColumn (some old) := fun _ hc =>
      Option.some.inj hc ▸ Alphabet.lt_size_of_idxOf? hold
    have hnew' : n.HasColumn (some c) := fun _ hc =>
      Option.some.inj hc ▸ Alphabet.lt_size_of_idxOf? hnew
    simpa [embedColumn?] using h.exists_embedCell? hother hs hold' hnew'

/-- The moves of a state are added, each on the column that its symbol has now. -/
theorem Adds.exists_embedState? (hs : s < other.size) :
    ∃ m', other.embedState? (List.range' n.size other.size)
        (other.alphabet.symbols.map n.alphabet.idxOf?) m s = some m' ∧
      n.Adds other.names.toList (D ∪ {x | MovedUp n.alphabet other n.size s x}) m' := by
  have hnone : ∀ n : Nfa, n.HasColumn none := fun _ => nofun
  obtain ⟨m', hloop, hm'⟩ := h.exists_foldlM _
    (E := fun column => {x | column.1.isSome = true ∧
      x ∈ other.movedCell n.size s (some column.2) column.1})
    fun _ hcolumn _ _ hm => hm.exists_embedColumn? hother hs hcolumn
  obtain ⟨m'', hepsilon, hm''⟩ := hm'.exists_embedCell? hother hs (hnone other) (hnone n)
  refine ⟨m'', ?_, ?_⟩
  · rw [embedState?, hloop]
    exact hepsilon
  · rw [movedUp_eq, ← Set.union_assoc]
    exact hm''

end Embedded

/-- The other automaton is embedded into one that has its symbols: its states get the next numbers,
    and its moves are added between these. -/
theorem WellFormed.exists_embedded? (hn : n.WellFormed) (hother : other.WellFormed)
    (hsub : ∀ x ∈ other.alphabet, x ∈ n.alphabet) :
    ∃ m, n.embedded? other = some (m, List.range' n.size other.size) ∧
      n.Adds other.names.toList {x | ∃ s < other.size, MovedUp n.alphabet other n.size s x} m := by
  have hnames : (List.range other.size).map other.name = other.names.toList :=
    other.names.map_name_range
  have hids : (n.addStates other.names.toList).2 = List.range' n.size other.size := by
    rw [addStates_snd, StateNames.length_toList]
    rfl
  have hstates : n.Adds other.names.toList ∅ (n.addStates other.names.toList).1 :=
    hn.adds_nil.addStates other.names.toList
  obtain ⟨m, hloop, hm⟩ := hstates.exists_foldlM (List.range other.size)
    (E := fun s => {x | MovedUp n.alphabet other n.size s x})
    fun s hs _ _ hm => hm.exists_embedState? hother (List.mem_range.1 hs)
  refine ⟨m, ?_, by simpa using hm⟩
  rw [embedded?, Alphabet.isSupersetOf_iff.2 hsub, hnames]
  dsimp only
  rw [hids, hstates.alphabet_eq, hloop]
  rfl

/-! ## The embedded moves -/

/-- What is embedded moves as before, with the numbers that the states have now. -/
theorem Adds.moves_iff (hm : n.Adds names {x | ∃ s < other.size,
    MovedUp n.alphabet other n.size s x} m) (hother : other.WellFormed)
    (hsub : ∀ x ∈ other.alphabet, x ∈ n.alphabet) :
    m.Moves p a q ↔
      n.Moves p a q ∨ ∃ s t, other.Moves s a t ∧ p = n.size + s ∧ q = n.size + t := by
  have hcell : ∀ c, q ∈ m.targets p c ↔ q ∈ n.targets p c ∨
      ∃ s < other.size, MovedUp n.alphabet other n.size s (p, some c, q) :=
    fun c => hm.mem_targetsOn p (some c) q
  rw [Moves, hm.alphabet_eq]
  constructor
  · rintro ⟨c, hc, hq⟩
    rcases (hcell c).1 hq with hq | ⟨s, -, hq⟩
    · exact .inl ⟨c, hc, hq⟩
    · cases hq with
      | move hc' ht =>
        obtain rfl := Alphabet.eq_of_idxOf? hc hc'
        exact .inr ⟨s, _, ht, rfl, rfl⟩
  · rintro (⟨c, hc, hq⟩ | ⟨s, t, ht, rfl, rfl⟩)
    · exact ⟨c, hc, (hcell c).2 (.inl hq)⟩
    · obtain ⟨c, hc⟩ := Alphabet.exists_idxOf?_of_mem (hsub a (mem_alphabet_of_moves ht))
      exact ⟨c, hc, (hcell c).2 (.inr ⟨s, hother.lt_of_moves ht, .move hc ht⟩)⟩

theorem Adds.mem_epsilonTargets_iff (hm : n.Adds names {x | ∃ s < other.size,
    MovedUp n.alphabet other n.size s x} m) (hother : other.WellFormed) :
    q ∈ m.epsilonTargets p ↔ q ∈ n.epsilonTargets p ∨
      ∃ s t, t ∈ other.epsilonTargets s ∧ p = n.size + s ∧ q = n.size + t := by
  refine (hm.mem_targetsOn p none q).trans (or_congr_right ?_)
  constructor
  · rintro ⟨s, -, hq⟩
    cases hq with
    | epsilon ht => exact ⟨s, _, ht, rfl, rfl⟩
  · rintro ⟨s, t, ht, rfl, rfl⟩
    exact ⟨s, hother.lt_of_mem_epsilonTargets ht, .epsilon ht⟩

/-! ## The joined automaton -/

/-- The targets on a column are those on its symbol. -/
theorem WellFormed.mem_targets_iff (hn : n.WellFormed) {c : Nat} :
    t ∈ n.targets s c ↔ ∃ a, n.alphabet.idxOf? a = some c ∧ n.Moves s a t := by
  constructor
  · intro ht
    obtain ⟨a, ha⟩ := Alphabet.exists_idxOf?_eq_some (hn.lt_of_mem_targets ht).2
    exact ⟨a, ha, c, ha, ht⟩
  · rintro ⟨a, ha, c', ha', ht⟩
    rwa [Option.some.inj (ha.symm.trans ha')]

/-- Automata over one alphabet are the same if they have the same names, moves, start and accepting
    states. -/
theorem WellFormed.eq_of_moves (hn : n.WellFormed) (hm : m.WellFormed)
    (halphabet : n.alphabet = m.alphabet) (hnames : n.names = m.names)
    (hmoves : ∀ s a t, n.Moves s a t ↔ m.Moves s a t)
    (hepsilon : ∀ s t, t ∈ n.epsilonTargets s ↔ t ∈ m.epsilonTargets s)
    (hstart : n.start = m.start) (haccepting : n.accepting = m.accepting) : n = m := by
  refine hn.eq_of_targets hm halphabet hnames (fun s c t => ?_) hepsilon hstart haccepting
  rw [hn.mem_targets_iff, hm.mem_targets_iff, halphabet]
  simp only [hmoves]

/-- What holds of two numbers that are moved up, said about the numbers that they become. -/
theorem exists_add_iff {R : Nat → Nat → Prop} {k : Nat} :
    (∃ s t, R s t ∧ p = k + s ∧ q = k + t) ↔ k ≤ p ∧ k ≤ q ∧ R (p - k) (q - k) := by
  constructor
  · rintro ⟨s, t, h, rfl, rfl⟩
    rw [Nat.add_sub_cancel_left, Nat.add_sub_cancel_left]
    exact ⟨Nat.le_add_right _ _, Nat.le_add_right _ _, h⟩
  · rintro ⟨hp, hq, h⟩
    exact ⟨_, _, h, (Nat.add_sub_cancel' hp).symm, (Nat.add_sub_cancel' hq).symm⟩

/-- The moves of a joined automaton are those of its two sides. -/
theorem WellFormed.moves_join_iff (hl : l.WellFormed) (hr : r.WellFormed) :
    (l.join r).Moves p a q ↔
      l.Moves p a q ∨ ∃ s t, r.Moves s a t ∧ p = l.size + s ∧ q = l.size + t := by
  rw [exists_add_iff (R := fun s t => r.Moves s a t)]
  rcases Nat.lt_or_ge p l.size with hp | hp
  · rw [hl.moves_join_left hp, or_iff_left fun h => Nat.not_le.2 hp h.1]
  · rw [hl.moves_join_right hr hp, and_iff_right hp,
      or_iff_right fun h => Nat.not_lt.2 hp (hl.lt_of_moves h)]

/-- The epsilon moves of a joined automaton are those of its two sides. -/
theorem WellFormed.mem_epsilonTargets_join_iff (hl : l.WellFormed) :
    q ∈ (l.join r).epsilonTargets p ↔
      q ∈ l.epsilonTargets p ∨ ∃ s t, t ∈ r.epsilonTargets s ∧ p = l.size + s ∧ q = l.size + t := by
  rw [exists_add_iff (R := fun s t => t ∈ r.epsilonTargets s)]
  rcases Nat.lt_or_ge p l.size with hp | hp
  · rw [hl.epsilonTargets_join_left hp, or_iff_left fun h => Nat.not_le.2 hp h.1]
  · rw [hl.epsilonTargets_join_right hp, StateSet.mem_shift, and_iff_right hp,
      or_iff_right fun h => Nat.not_lt.2 hp (hl.lt_of_mem_epsilonTargets h)]

/-- The loops put the two automata side by side. -/
theorem WellFormed.joined?_eq (hl : l.WellFormed) (hr : r.WellFormed) :
    l.joined? r = some (l.join r, List.range' l.size r.size) := by
  have hleft : ∀ x ∈ l.alphabet, x ∈ l.alphabet.union r.alphabet :=
    fun x hx => Alphabet.mem_union.2 (.inl hx)
  have hright : ∀ x ∈ r.alphabet, x ∈ l.alphabet.union r.alphabet :=
    fun x hx => Alphabet.mem_union.2 (.inr hx)
  obtain ⟨m, hm, hadds⟩ := (hl.widen (l.alphabet.union r.alphabet)).exists_embedded? hr hright
  -- both have their moves from the two sides, by the text of the symbols
  have hjoin : m = l.join r := by
    refine hadds.wellFormed.eq_of_moves (hl.join hr) hadds.alphabet_eq hadds.names_eq
      (fun p a q => ?_) (fun p q => ?_) hadds.start_eq hadds.accepting_eq
    · rw [hadds.moves_iff hr hright, hl.moves_widen hleft]
      exact (hl.moves_join_iff hr).symm
    · rw [hadds.mem_epsilonTargets_iff hr]
      exact hl.mem_epsilonTargets_join_iff.symm
  rw [joined?, hl.widened?_eq hleft, ← hjoin]
  exact hm

/-- The automaton `m` is made of `l` and `r`, side by side: the states of `l` keep their numbers and
    names, those of `r` come behind them in their order, and each side moves as before. -/
structure SideBySide (l r m : Nfa) : Prop where
  wellFormed : m.WellFormed
  symbols_eq : m.alphabet.symbols =
    l.alphabet.symbols ++ r.alphabet.symbols.filter (· ∉ l.alphabet.symbols)
  size_eq : m.size = l.size + r.size
  /-- A name of `r` gets as few suffixes as make it differ from the names before it. -/
  names : ∃ given, StateNames.GivenInTurn l.names.toList r.names.toList given ∧
    m.names.toList = l.names.toList ++ given
  moves_left : ∀ p < l.size, ∀ q < l.size, ∀ a, m.Moves p a q ↔ l.Moves p a q
  moves_right : ∀ p < r.size, ∀ q < r.size, ∀ a,
    m.Moves (l.size + p) a (l.size + q) ↔ r.Moves p a q
  /-- A side has no move on a symbol that it lacks. -/
  foreign_left : ∀ p < l.size, ∀ q, ∀ a ∉ l.alphabet, ¬ m.Moves p a q
  foreign_right : ∀ p < r.size, ∀ q, ∀ a ∉ r.alphabet, ¬ m.Moves (l.size + p) a q
  epsilon_left : ∀ p < l.size, ∀ q < l.size, q ∈ m.epsilonTargets p ↔ q ∈ l.epsilonTargets p
  epsilon_right : ∀ p < r.size, ∀ q < r.size,
    l.size + q ∈ m.epsilonTargets (l.size + p) ↔ q ∈ r.epsilonTargets p
  /-- No move leads from one side to the other. -/
  apart : ∀ p a q, m.Moves p a q → (p < l.size ↔ q < l.size)
  apart_epsilon : ∀ p q, q ∈ m.epsilonTargets p → (p < l.size ↔ q < l.size)
  start_eq : m.start = l.start
  accepting_eq : m.accepting = l.accepting

theorem WellFormed.sideBySide_join (hl : l.WellFormed) (hr : r.WellFormed) :
    l.SideBySide r (l.join r) where
  wellFormed := hl.join hr
  symbols_eq := rfl
  size_eq := size_join
  names := l.names.exists_toList_insertAll r.names.toList
  moves_left p hp q _ a := hl.moves_join_left hp
  moves_right p _ q _ a := by
    rw [hl.moves_join_right hr (Nat.le_add_right _ _), Nat.add_sub_cancel_left,
      Nat.add_sub_cancel_left, and_iff_right (Nat.le_add_right _ _)]
  foreign_left p hp q a ha := by
    rw [hl.moves_join_left hp]
    exact mt mem_alphabet_of_moves ha
  foreign_right p _ q a ha := by
    rw [hl.moves_join_right hr (Nat.le_add_right _ _)]
    exact fun h => ha (mem_alphabet_of_moves h.2)
  epsilon_left p hp q _ := by rw [hl.epsilonTargets_join_left hp]
  epsilon_right p _ q _ := by
    rw [hl.epsilonTargets_join_right (Nat.le_add_right _ _), StateSet.mem_shift,
      Nat.add_sub_cancel_left, Nat.add_sub_cancel_left, and_iff_right (Nat.le_add_right _ _)]
  apart p a q h := by
    rcases (hl.moves_join_iff hr).1 h with h | ⟨s, t, -, rfl, rfl⟩
    · exact iff_of_true (hl.lt_of_moves h) (hl.moves_lt h)
    · exact iff_of_false (Nat.not_lt.2 (Nat.le_add_right _ _)) (Nat.not_lt.2 (Nat.le_add_right _ _))
  apart_epsilon p q h := by
    rcases hl.mem_epsilonTargets_join_iff.1 h with h | ⟨s, t, -, rfl, rfl⟩
    · exact iff_of_true (hl.lt_of_mem_epsilonTargets h) (hl.epsilonTargets_lt _ _ h)
    · exact iff_of_false (Nat.not_lt.2 (Nat.le_add_right _ _)) (Nat.not_lt.2 (Nat.le_add_right _ _))
  start_eq := rfl
  accepting_eq := rfl

/-- Joining puts both automata into one as they are. The loops have a result: an automaton over the
    symbols of the left one, followed by those that only the right one has, in which the states of
    the left one keep their numbers and names and those of the right one follow in their order. Each
    side has the moves on each symbol that it had, whatever symbols the two share and in whatever
    order, and its epsilon moves, and no move leads from one side to the other. In the same way the
    columns of a deterministic automaton are moved, which accepts the same words over any alphabet
    that has its symbols. -/
theorem join_exact (hl : l.WellFormed) (hr : r.WellFormed) :
    l.joined? r = some (l.join r, List.range' l.size r.size) ∧ l.SideBySide r (l.join r) ∧
      ∀ d : Dfa, d.WellFormed → ∀ alphabet : Alphabet, (∀ x ∈ d.alphabet, x ∈ alphabet) →
        d.widened? alphabet = some (d.widen alphabet) ∧ (d.widen alphabet).alphabet = alphabet ∧
          ∀ w, (d.widen alphabet).accepts w = d.accepts w := by
  refine ⟨hl.joined?_eq hr, hl.sideBySide_join hr, fun d hd alphabet hsub => ⟨?_, rfl, fun w => ?_⟩⟩
  · exact hd.widened?_eq hsub
  · exact hd.accepts_widen hsub

/-- Two automata with the same names, whose shared symbols have other columns, and a deterministic
    one whose columns change places. -/
theorem join_exact_columns :
    let l := (((Nfa.new ⟨["a", "b"], by decide⟩ "p").addState "q").addMove 0 0 1).addEpsilon 1 0
    let r := (((Nfa.new ⟨["c", "b", "a"], by decide⟩ "p").addState "q").addMove 0 2 1).addMove 1 0 0
    let d := ((Dfa.new ⟨["a", "b"], by decide⟩ "p").setMove 0 1 (some 0)).setAccepting 0 true
    let alphabet : Alphabet := ⟨["c", "b", "a"], by decide⟩
    l.WellFormed ∧ r.WellFormed ∧ d.WellFormed ∧
      l.joined? r = some (l.join r, [2, 3]) ∧ l.SideBySide r (l.join r) ∧
      (l.join r).alphabet.symbols = ["a", "b", "c"] ∧
      (l.join r).names.toList = ["p", "q", "p'", "q'"] ∧
      (l.join r).Moves 2 "a" 3 ∧ (¬ (l.join r).Moves 0 "c" 1) ∧
      d.widened? alphabet = some (d.widen alphabet) ∧
      (d.widen alphabet).accepts ["b", "b"] = true ∧
      ∀ w, (d.widen alphabet).accepts w = d.accepts w := by
  intro l r d alphabet
  have hl : l.WellFormed :=
    ((Nfa.wellFormed_new.addState _).addMove 0 0 (by decide)).addEpsilon 1 (by decide)
  have hr : r.WellFormed :=
    ((Nfa.wellFormed_new.addState _).addMove 0 2 (by decide)).addMove 1 0 (by decide)
  have hd : d.WellFormed :=
    (Dfa.wellFormed_new.setMove 0 1 (by decide)).setAccepting (by decide) true
  obtain ⟨hjoined, hsides, hwiden⟩ := join_exact hl hr
  obtain ⟨hwidened, -, haccepts⟩ := hwiden d hd alphabet
    (Alphabet.isSupersetOf_iff.1 (by decide))
  have hmove : r.Moves 0 "a" 1 := ⟨2, by decide, by decide⟩
  refine ⟨hl, hr, hd, hjoined, hsides, by decide, by decide, ?_, ?_, hwidened, ?_, haccepts⟩
  · exact (hsides.moves_right 0 (by decide) 1 (by decide) "a").2 hmove
  · exact hsides.foreign_left 0 (by decide) 1 "c" (Alphabet.idxOf?_eq_none_iff.1 (by decide))
  · rw [haccepts]
    decide

end Nfa

end Acceptors
