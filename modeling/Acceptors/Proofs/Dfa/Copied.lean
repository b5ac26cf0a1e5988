import Acceptors.Proofs.Dfa.Embedded
import Acceptors.Proofs.Nfa.EpsilonFree

/-!
# There and back between the two kinds of automata

A deterministic automaton, seen as a nondeterministic one and made deterministic again, is the same
automaton with the same numbers and names. A nondeterministic automaton has a deterministic form if
no state has an epsilon move or two targets on one symbol, and otherwise the first state that has is
named. Seen as a nondeterministic automaton, the form is the automaton itself.

The tables of either form are filled all at once. Copying an automaton state by state and move by
move comes to the same: the names are distinct already, so that none of them is changed when it is
entered again, and a state that is refused on the way is the first one that would be.

Results:
* `Nfa.FirstObstacle`, `Nfa.WellFormed.firstObstacle_of_obstacle?`: the state that is named.
* `Dfa.WellFormed.toDfa?_toNfa`, `Nfa.WellFormed.toNfa_of_toDfa?`: the two ways there and back.
* `Dfa.WellFormed.copied_eq`, `Nfa.WellFormed.copied?_eq`: the copies.
* `Nfa.toDfa?_lossless`: all of it.
-/

namespace Acceptors

variable {n m : Nfa} {d e : Dfa} {s t c : Nat}

/-! ## What keeps an automaton from being deterministic -/

/-- A set has two members or more if two of its members differ. -/
theorem StateSet.two_le_length_members_iff {X : StateSet} :
    2 ≤ X.members.length ↔ ∃ t ∈ X, ∃ u ∈ X, t ≠ u := by
  simp only [← mem_members]
  have hpairwise := members_pairwise X
  match X.members, hpairwise with
  | [], _ => simp
  | [t], _ => simp
  | t :: u :: rest, hpairwise =>
    have hlt := (List.pairwise_cons.1 hpairwise).1 u List.mem_cons_self
    exact iff_of_true (by simp) ⟨t, by simp, u, by simp, Nat.ne_of_lt hlt⟩

namespace Nfa

/-- The state has two targets or more on some symbol. -/
def Branches (n : Nfa) (s : Nat) : Prop := ∃ c, ∃ t ∈ n.targets s c, ∃ u ∈ n.targets s c, t ≠ u

/-- The state is the first with an epsilon move or, where there is no epsilon move, the first with
    two targets or more on some symbol. -/
def FirstObstacle (n : Nfa) (s : Nat) : Prop :=
  ((∃ t, t ∈ n.epsilonTargets s) ∧ ∀ r < s, ∀ t, t ∉ n.epsilonTargets r) ∨
    ((∀ r t, t ∉ n.epsilonTargets r) ∧ n.Branches s ∧ ∀ r < s, ¬ n.Branches r)

theorem not_isEmpty_epsilonTargets_iff :
    (!(n.epsilonTargets s).isEmpty) = true ↔ ∃ t, t ∈ n.epsilonTargets s := by
  rw [Bool.not_eq_true', Bool.eq_false_iff, Ne, StateSet.isEmpty_iff, not_forall]
  simp only [not_not]

/-- Whether a state has several targets on one symbol is seen in its row. -/
theorem WellFormed.any_several_iff (hn : n.WellFormed) :
    ((List.range n.alphabet.size).any fun c => 2 ≤ (n.targets s c).members.length) = true ↔
      n.Branches s := by
  simp only [List.any_eq_true, List.mem_range, decide_eq_true_eq,
    StateSet.two_le_length_members_iff]
  constructor
  · rintro ⟨c, -, h⟩
    exact ⟨c, h⟩
  · rintro ⟨c, t, ht, h⟩
    exact ⟨c, (hn.lt_of_mem_targets ht).2, t, ht, h⟩

/-- A state that the search finds is the first of its kind. -/
theorem WellFormed.firstObstacle_of_obstacle? (hn : n.WellFormed) (h : n.obstacle? = some s) :
    s < n.size ∧ n.FirstObstacle s := by
  rw [obstacle?, Option.or_eq_some_iff] at h
  rcases h with h | ⟨hnone, h⟩
  · obtain ⟨hs, hlt, hfirst⟩ := List.find?_range_eq_some.1 h
    refine ⟨List.mem_range.1 hlt, .inl ⟨not_isEmpty_epsilonTargets_iff.1 hs, fun r hr t ht => ?_⟩⟩
    have hr := hfirst r hr
    rw [not_isEmpty_epsilonTargets_iff.2 ⟨t, ht⟩] at hr
    cases hr
  · obtain ⟨hs, hlt, hfirst⟩ := List.find?_range_eq_some.1 h
    refine ⟨List.mem_range.1 hlt,
      .inr ⟨fun r t ht => ?_, hn.any_several_iff.1 hs, fun r hr hb => ?_⟩⟩
    · have hr := List.find?_range_eq_none.1 hnone r (hn.lt_of_mem_epsilonTargets ht)
      rw [not_isEmpty_epsilonTargets_iff.2 ⟨t, ht⟩] at hr
      cases hr
    · have hr := hfirst r hr
      rw [hn.any_several_iff.2 hb] at hr
      cases hr

/-- The automata without obstacle are those without an epsilon move or a state with several targets
    on one symbol. -/
theorem WellFormed.obstacle?_eq_none_iff_isDeterministic (hn : n.WellFormed) :
    n.obstacle? = none ↔ n.isDeterministic = true := by
  have hcells : n.moves.all (fun X => X.members.length ≤ 1) = true ↔
      ∀ s < n.size, ∀ c < n.alphabet.size, (n.targets s c).members.length ≤ 1 := by
    rw [Grid.all_iff]
    constructor
    · intro h s hs c hc
      obtain ⟨X, hX⟩ := Option.isSome_iff_exists.1 (hn.shape.get?_isSome.2 ⟨hs, hc⟩)
      rw [targets, hX]
      exact of_decide_eq_true (h s c X hX)
    · intro h s c X hX
      obtain ⟨hs, hc⟩ := hn.shape.get?_isSome.1 (by rw [hX]; rfl)
      have hcell := h s hs c hc
      rw [targets, hX] at hcell
      exact decide_eq_true hcell
  rw [isDeterministic, Bool.and_eq_true, Bool.not_eq_true', hcells, obstacle?_eq_none_iff,
    hasEpsilonMoves_eq_false_iff]
  refine and_congr_left fun _ => ⟨fun h s t ht => ?_, fun h s _ => ?_⟩
  · rw [h s (hn.lt_of_mem_epsilonTargets ht)] at ht
    exact StateSet.not_mem_empty t ht
  · exact StateSet.ext fun t => iff_of_false (h s t) (StateSet.not_mem_empty t)

/-- The deterministic automata have a deterministic form, and no others. -/
theorem WellFormed.exists_toDfa?_iff (hn : n.WellFormed) :
    (∃ d, n.toDfa? = .ok d) ↔ n.isDeterministic = true := by
  rw [← hn.obstacle?_eq_none_iff_isDeterministic, Nfa.toDfa?]
  cases n.obstacle? with
  | none => exact iff_of_true ⟨_, rfl⟩ rfl
  | some s =>
    constructor
    · rintro ⟨d, h⟩
      cases h
    · intro h
      cases h

end Nfa

/-! ## There and back -/

/-- Nothing keeps a deterministic automaton from being deterministic. -/
theorem Dfa.WellFormed.obstacle?_toNfa (hd : d.WellFormed) : d.toNfa.obstacle? = none := by
  cases hobstacle : d.toNfa.obstacle? with
  | none => rfl
  | some s =>
    rcases (hd.toNfa.firstObstacle_of_obstacle? hobstacle).2 with
      ⟨⟨t, ht⟩, -⟩ | ⟨-, ⟨c, t, ht, u, hu, hne⟩, -⟩
    · exact absurd ht not_mem_epsilonTargets_toNfa
    · rw [mem_targets_toNfa hd] at ht hu
      exact absurd (Option.some.inj (ht.symm.trans hu)) hne

/-- Automata are the same if they have the same symbols, names, moves, start and accepting
    states. -/
theorem Dfa.WellFormed.eq_of_move (hd : d.WellFormed) (he : e.WellFormed)
    (halphabet : d.alphabet = e.alphabet) (hnames : d.names = e.names)
    (hmove : ∀ s c t, d.move s c = some t ↔ e.move s c = some t) (hstart : d.start = e.start)
    (haccepting : d.accepting = e.accepting) : d = e := by
  refine hd.eq_of_next he halphabet hnames hstart (fun s _ => ?_) fun s _ a => ?_
  · rw [isAccepting, isAccepting, haccepting]
  · rw [next, next, halphabet]
    exact congrArg _ (funext fun c => Option.ext fun t => hmove s c t)

/-- A deterministic automaton comes back as it was. -/
theorem Dfa.WellFormed.toDfa?_toNfa (hd : d.WellFormed) : d.toNfa.toDfa? = .ok d := by
  obtain ⟨e, he⟩ := hd.toNfa.exists_toDfa?_iff.2
    (hd.toNfa.obstacle?_eq_none_iff_isDeterministic.1 hd.obstacle?_toNfa)
  have hmove : ∀ s c t, e.move s c = some t ↔ d.move s c = some t := fun s c t =>
    (hd.toNfa.move_of_toDfa? he).trans (mem_targets_toNfa hd)
  have hwell := hd.toNfa.toDfa? he
  rw [he]
  obtain ⟨-, rfl⟩ := Nfa.eq_of_toDfa? he
  exact congrArg Except.ok (hwell.eq_of_move hd rfl rfl hmove rfl rfl)

/-- Automata are the same if they have the same symbols, names, moves, start and accepting
    states. -/
theorem Nfa.WellFormed.eq_of_targets (hn : n.WellFormed) (hm : m.WellFormed)
    (halphabet : n.alphabet = m.alphabet) (hnames : n.names = m.names)
    (htargets : ∀ s c t, t ∈ n.targets s c ↔ t ∈ m.targets s c)
    (hepsilon : ∀ s t, t ∈ n.epsilonTargets s ↔ t ∈ m.epsilonTargets s)
    (hstart : n.start = m.start) (haccepting : n.accepting = m.accepting) : n = m := by
  have halike : n.Alike m := (hn.alike_iff hm).2 ⟨halphabet, congrArg StateNames.size hnames,
    fun s c => StateSet.ext (htargets s c), fun s => StateSet.ext (hepsilon s), hstart, haccepting⟩
  exact halike.eq_of_names_eq hnames

/-- A nondeterministic automaton comes back as it was from its deterministic form. -/
theorem Nfa.WellFormed.toNfa_of_toDfa? (hn : n.WellFormed) (h : n.toDfa? = .ok d) :
    d.toNfa = n := by
  have hd := hn.toDfa? h
  have htargets : ∀ s c t, t ∈ d.toNfa.targets s c ↔ t ∈ n.targets s c := fun s c t =>
    (Dfa.mem_targets_toNfa hd).trans (hn.move_of_toDfa? h)
  obtain ⟨hnone, rfl⟩ := eq_of_toDfa? h
  exact hd.toNfa.eq_of_targets hn rfl rfl htargets (fun s t =>
    iff_of_false Dfa.not_mem_epsilonTargets_toNfa (hn.not_mem_epsilonTargets_of_obstacle? hnone))
    rfl rfl

/-! ## Copies, state by state -/

/-- States of the given names, of which the first starts, none of them with a move. -/
def Nfa.ofNames (alphabet : Alphabet) (names : StateNames) : Nfa :=
  ((List.range names.size).drop 1).foldl (fun n s => n.addState (names.name s))
    (.new alphabet (names.name 0))

/-- States of the given names, of which the first starts, none of them with a move. -/
def Dfa.ofNames (alphabet : Alphabet) (names : StateNames) : Dfa :=
  ((List.range names.size).drop 1).foldl (fun d s => d.addState (names.name s))
    (.new alphabet (names.name 0))

/-- Copies the move on the symbol of a column, if it is defined. -/
def Dfa.copyMove (d : Dfa) (s : Nat) (n : Nfa) (c : Nat) : Nfa :=
  (d.move s c).elim n (n.addMove s c)

/-- Copies the moves of a state, and whether it accepts (the loop of `from`). -/
def Dfa.copyState (d : Dfa) (n : Nfa) (s : Nat) : Nfa :=
  ((List.range d.alphabet.size).foldl (d.copyMove s) n).setAccepting s (d.isAccepting s)

/-- A nondeterministic copy of the automaton, made state by state (`from`). -/
def Dfa.copied (d : Dfa) : Nfa :=
  ((List.range d.size).foldl d.copyState (.ofNames d.alphabet d.names)).setStart d.start

/-- Copies the only target on the symbol of a column. Several targets are refused. -/
def Nfa.copyMove? (n : Nfa) (s : Nat) (d : Dfa) (c : Nat) : Except Error Dfa :=
  if 2 ≤ (n.targets s c).members.length then .error (.notDeterministic (n.name s))
  else .ok (d.setMove s c (n.targets s c).members.head?)

/-- Copies the moves of a state, and whether it accepts (the loop of `try_from`). -/
def Nfa.copyState? (n : Nfa) (d : Dfa) (s : Nat) : Except Error Dfa := do
  let d ← (List.range n.alphabet.size).foldlM (n.copyMove? s) d
  return d.setAccepting s (n.isAccepting s)

/-- A deterministic copy of the automaton, made state by state (`try_from`). Epsilon moves are
    refused before anything is copied. -/
def Nfa.copied? (n : Nfa) : Except Error Dfa :=
  match (List.range n.size).find? fun s => !(n.epsilonTargets s).isEmpty with
  | some s => .error (.notDeterministic (n.name s))
  | none => do
    let d ← (List.range n.size).foldlM n.copyState? (.ofNames n.alphabet n.names)
    return d.setStart n.start

/-! ## Loops -/

section Loops

variable {α β ε : Type} {l : List α} {b : β} {rows columns : Nat}

/-- A loop that refuses some elements ends with the first of them. -/
theorem foldlM_eq_find? {f : β → α → Except ε β} {g : β → α → β} {p : α → Bool} {e : α → ε}
    (hbad : ∀ b a, p a = true → f b a = .error (e a))
    (hgood : ∀ b a, p a = false → f b a = .ok (g b a)) :
    l.foldlM f b = match l.find? p with
      | some a => .error (e a)
      | none => .ok (l.foldl g b) := by
  induction l generalizing b with
  | nil => rfl
  | cons a l ih =>
    rw [List.foldlM_cons, List.find?_cons]
    cases ha : p a with
    | true => rw [hbad b a ha]; rfl
    | false => rw [hgood b a ha]; exact ih

/-- What holds of the cells and the states that are done holds of all when a table is done row by
    row, if each step adds its own. -/
theorem foldl_table {P : Set (Nat × Nat) → Set Nat → β → Prop} {move : Nat → β → Nat → β}
    {accept : β → Nat → β} (h : P ∅ ∅ b)
    (hmove : ∀ cells states b s c, s < rows → c < columns → P cells states b →
      P (insert (s, c) cells) states (move s b c))
    (haccept : ∀ cells states b s, s < rows → P cells states b →
      P cells (insert s states) (accept b s)) :
    P {x | x.1 < rows ∧ x.2 < columns} {s | s < rows}
      ((List.range rows).foldl
        (fun b s => accept ((List.range columns).foldl (move s) b) s) b) := by
  have hrow : ∀ s < rows, ∀ cells states b, P cells states b → ∀ k ≤ columns,
      P (cells ∪ {x | x.1 = s ∧ x.2 < k}) states ((List.range k).foldl (move s) b) := by
    intro s hs cells states b hb k hk
    induction k with
    | zero => simpa using hb
    | succ k ih =>
      have hcells : insert (s, k) (cells ∪ {x | x.1 = s ∧ x.2 < k}) =
          cells ∪ {x | x.1 = s ∧ x.2 < k + 1} := by
        ext ⟨r, c⟩
        simp only [Set.mem_union, Set.mem_ofPred_eq, Set.mem_insert_iff, Prod.mk.injEq,
          Nat.lt_succ_iff_lt_or_eq, and_or_left]
        exact or_comm.trans or_assoc
      rw [List.range_succ, List.foldl_append, ← hcells]
      exact hmove _ _ _ s k hs hk (ih (Nat.le_of_succ_le hk))
  have hrows : ∀ k ≤ rows, P {x | x.1 < k ∧ x.2 < columns} {s | s < k}
      ((List.range k).foldl (fun b s => accept ((List.range columns).foldl (move s) b) s) b) := by
    intro k hk
    induction k with
    | zero => simpa using h
    | succ k ih =>
      have hcells : {x : Nat × Nat | x.1 < k ∧ x.2 < columns} ∪ {x | x.1 = k ∧ x.2 < columns} =
          {x | x.1 < k + 1 ∧ x.2 < columns} := by
        ext x
        simp only [Set.mem_union, Set.mem_ofPred_eq, Nat.lt_succ_iff_lt_or_eq, or_and_right]
      have hstates : insert k {s | s < k} = {s | s < k + 1} := by
        ext s
        simp only [Set.mem_insert_iff, Set.mem_ofPred_eq]
        omega
      rw [List.range_succ, List.foldl_append, ← hcells, ← hstates]
      exact haccept _ _ _ k hk (hrow k hk _ _ _ (ih (Nat.le_of_succ_le hk)) _ le_rfl)
  exact hrows rows le_rfl

end Loops

/-! ## Names that are entered again -/

/-- Of the numbers below a positive one, zero comes first. -/
theorem range_eq_zero_cons {size : Nat} (h : 0 < size) :
    List.range size = 0 :: (List.range size).drop 1 := by
  obtain ⟨k, rfl⟩ := Nat.exists_eq_succ_of_ne_zero (Nat.ne_of_gt h)
  rw [List.range_succ_eq_map]
  rfl

/-- The names of a table, entered one after the other, are not changed. -/
theorem StateNames.foldl_insert_name (t : StateNames) (h : 0 < t.size) :
    ((List.range t.size).drop 1).foldl (fun u s => u.insert (t.name s))
      (StateNames.empty.insert (t.name 0)) = t := by
  have hrange := range_eq_zero_cons h
  calc _ = StateNames.ofList ((List.range t.size).map t.name) := by
        rw [StateNames.ofList, StateNames.insertAll, List.foldl_map, hrange, List.foldl_cons]
        rfl
    _ = t := by rw [map_name_range, ofList_toList]

/-! ## Copies in progress -/

namespace Nfa

variable {cells : Set (Nat × Nat)} {states : Set Nat} {l : List Nat}

/-- Adds moves on the symbol of a column, one after the other. -/
def addMoves (n : Nfa) (source column : Nat) (l : List Nat) : Nfa :=
  l.foldl (fun n t => n.addMove source column t) n

/-- Nothing but moves is added. -/
theorem addMoves_eq (n : Nfa) (s c : Nat) (l : List Nat) :
    n.addMoves s c l = { n with moves := (n.addMoves s c l).moves } := by
  induction l generalizing n with
  | nil => rfl
  | cons t l ih => exact ih (n.addMove s c t)

theorem WellFormed.addMoves (hn : n.WellFormed) (s c : Nat) (hl : ∀ t ∈ l, t < n.size) :
    (n.addMoves s c l).WellFormed := by
  induction l generalizing n with
  | nil => exact hn
  | cons t l ih =>
    obtain ⟨ht, hl⟩ := List.forall_mem_cons.1 hl
    exact ih (hn.addMove s c ht) hl

theorem mem_targets_addMoves (hn : n.WellFormed) (hl : ∀ t ∈ l, t < n.size) {source column : Nat} :
    t ∈ (n.addMoves source column l).targets s c ↔
      t ∈ n.targets s c ∨
        (source < n.size ∧ column < n.alphabet.size) ∧ s = source ∧ c = column ∧ t ∈ l := by
  induction l generalizing n with
  | nil => simp [addMoves]
  | cons u l ih =>
    obtain ⟨hu, hl⟩ := List.forall_mem_cons.1 hl
    have hrest := ih (hn.addMove source column hu) hl
    rw [mem_targets_addMove hn] at hrest
    refine hrest.trans ?_
    simp only [List.mem_cons, size, addMove]
    grind

/-- The copy has the states of `m`, and of its moves and its accepting states those of the given
    cells and states. -/
structure CopiedTo (m : Nfa) (cells : Set (Nat × Nat)) (states : Set Nat) (n : Nfa) : Prop where
  wellFormed : n.WellFormed
  alphabet_eq : n.alphabet = m.alphabet
  names_eq : n.names = m.names
  mem_targets : ∀ s c t, t ∈ n.targets s c ↔ (s, c) ∈ cells ∧ t ∈ m.targets s c
  not_mem_epsilonTargets : ∀ s t, t ∉ n.epsilonTargets s
  mem_accepting : ∀ s, s ∈ n.accepting ↔ s ∈ states ∧ s ∈ m.accepting

theorem CopiedTo.size_eq (h : m.CopiedTo cells states n) : n.size = m.size :=
  congrArg StateNames.size h.names_eq

/-- Before anything is copied there are the states alone. -/
theorem WellFormed.copiedTo_ofNames (hm : m.WellFormed) :
    m.CopiedTo ∅ ∅ (ofNames m.alphabet m.names) := by
  have hblank : (ofNames m.alphabet m.names).WellFormed ∧
      (ofNames m.alphabet m.names).alphabet = m.alphabet ∧
      (∀ s c, (ofNames m.alphabet m.names).targets s c = ∅) ∧
      (∀ s, (ofNames m.alphabet m.names).epsilonTargets s = ∅) ∧
      (ofNames m.alphabet m.names).accepting = ∅ := by
    refine List.foldlRecOn (motive := fun n : Nfa => n.WellFormed ∧ n.alphabet = m.alphabet ∧
      (∀ s c, n.targets s c = ∅) ∧ (∀ s, n.epsilonTargets s = ∅) ∧ n.accepting = ∅) _ _
      ⟨wellFormed_new, rfl, fun _ _ => targets_new, fun _ => epsilonTargets_new, rfl⟩ ?_
    rintro n ⟨hn, halphabet, htargets, hepsilon, haccepting⟩ s -
    refine ⟨hn.addState _, halphabet, fun r c => ?_, fun r => ?_, haccepting⟩
    · rw [targets_addState hn, htargets]
    · rw [epsilonTargets_addState, hepsilon]
  obtain ⟨hn, halphabet, htargets, hepsilon, haccepting⟩ := hblank
  exact {
    wellFormed := hn
    alphabet_eq := halphabet
    names_eq := (List.foldl_hom names fun _ _ => rfl).symm.trans
      (m.names.foldl_insert_name (Nat.zero_lt_of_lt hm.start_lt))
    mem_targets := fun s c t => by simp [htargets, StateSet.not_mem_empty]
    not_mem_epsilonTargets := fun s t => by simp [hepsilon, StateSet.not_mem_empty]
    mem_accepting := fun s => by simp [haccepting, StateSet.not_mem_empty] }

/-- A cell is copied by adding its targets, one after the other. -/
theorem CopiedTo.addMoves (h : m.CopiedTo cells states n) (hm : m.WellFormed)
    (hl : ∀ t, t ∈ l ↔ t ∈ m.targets s c) :
    m.CopiedTo (insert (s, c) cells) states (n.addMoves s c l) := by
  have hlt : ∀ t ∈ l, t < n.size := fun t ht =>
    h.size_eq ▸ hm.targets_lt s c t ((hl t).1 ht)
  have hmoves := n.addMoves_eq s c l
  refine ⟨h.wellFormed.addMoves s c hlt, ?_, ?_, fun r b t => ?_, ?_, ?_⟩
  · rw [hmoves]
    exact h.alphabet_eq
  · rw [hmoves]
    exact h.names_eq
  · rw [mem_targets_addMoves h.wellFormed hlt, h.mem_targets, h.size_eq, h.alphabet_eq, hl,
      Set.mem_insert_iff, Prod.mk.injEq]
    have hin := @WellFormed.lt_of_mem_targets m s t c hm
    grind
  · rw [hmoves]
    exact h.not_mem_epsilonTargets
  · rw [hmoves]
    exact h.mem_accepting

theorem CopiedTo.setAccepting (h : m.CopiedTo cells states n) (hs : s < m.size) :
    m.CopiedTo cells (insert s states) (n.setAccepting s (m.isAccepting s)) := by
  refine { h with
    wellFormed := h.wellFormed.setAccepting (h.size_eq ▸ hs) _
    mem_accepting := fun r => ?_ }
  show r ∈ (if m.isAccepting s then n.accepting.insert s else n.accepting.erase s) ↔ _
  have haccepting : m.isAccepting s = true ↔ s ∈ m.accepting := Iff.rfl
  rw [Set.mem_insert_iff]
  split
  · rw [StateSet.mem_insert, h.mem_accepting]
    grind
  · rw [StateSet.mem_erase, h.mem_accepting]
    grind

/-- It is enough to put a state in among the accepting ones if it accepts. -/
theorem CopiedTo.insertAccepting (h : m.CopiedTo cells states n) (hs : s < m.size) :
    m.CopiedTo cells (insert s states)
      (if m.isAccepting s then n.setAccepting s true else n) := by
  split
  · next haccepting =>
    have hset := h.setAccepting hs
    rwa [haccepting] at hset
  · next haccepting =>
    refine { h with mem_accepting := fun t => ?_ }
    rw [h.mem_accepting, Set.mem_insert_iff]
    refine and_congr_left fun ht => (or_iff_right ?_).symm
    rintro rfl
    exact haccepting ht

/-- When all is copied but the start state, the copy is the automaton itself. -/
theorem CopiedTo.setStart_eq (hm : m.WellFormed) (hfree : ∀ s t, t ∉ m.epsilonTargets s)
    (h : m.CopiedTo {x | x.1 < m.size ∧ x.2 < m.alphabet.size} {s | s < m.size} n) :
    n.setStart m.start = m := by
  have hstart : m.start < n.size := h.size_eq ▸ hm.start_lt
  refine (h.wellFormed.setStart hstart).eq_of_targets hm h.alphabet_eq h.names_eq
    (fun s c t => ?_) (fun s t => ?_) rfl (StateSet.ext fun s => ?_)
  · exact (h.mem_targets s c t).trans (and_iff_right_of_imp hm.lt_of_mem_targets)
  · exact iff_of_false (h.not_mem_epsilonTargets s t) (hfree s t)
  · exact (h.mem_accepting s).trans (and_iff_right_of_imp (hm.accepting_lt s))

end Nfa

namespace Dfa

variable {cells : Set (Nat × Nat)} {states : Set Nat}

/-! ## Nondeterministic copies -/

theorem copyMove_eq (d : Dfa) (s : Nat) (n : Nfa) (c : Nat) :
    d.copyMove s n c = n.addMoves s c (d.move s c).toList := by
  unfold copyMove
  cases d.move s c <;> rfl

theorem copyMove_copiedTo (hd : d.WellFormed) (h : d.toNfa.CopiedTo cells states n) :
    d.toNfa.CopiedTo (insert (s, c) cells) states (d.copyMove s n c) := by
  rw [copyMove_eq]
  refine h.addMoves hd.toNfa fun t => ?_
  rw [Option.mem_toList, mem_targets_toNfa hd]

/-- The copy is the automaton seen as a nondeterministic one. -/
theorem WellFormed.copied_eq (hd : d.WellFormed) : d.copied = d.toNfa := by
  have htable : d.toNfa.CopiedTo {x | x.1 < d.size ∧ x.2 < d.alphabet.size} {s | s < d.size} _ :=
    foldl_table hd.toNfa.copiedTo_ofNames (fun _ _ _ _ _ _ _ h => copyMove_copiedTo hd h)
      fun _ _ _ _ hs h => h.setAccepting hs
  exact htable.setStart_eq hd.toNfa fun _ _ => not_mem_epsilonTargets_toNfa

/-! ## Deterministic copies -/

theorem WellFormed.copiedTo_toNfa_ofNames (hd : d.WellFormed) :
    (ofNames d.alphabet d.names).WellFormed ∧
      d.toNfa.CopiedTo ∅ ∅ (ofNames d.alphabet d.names).toNfa := by
  have hblank : (ofNames d.alphabet d.names).WellFormed ∧
      (ofNames d.alphabet d.names).alphabet = d.alphabet ∧
      (∀ s c, (ofNames d.alphabet d.names).move s c = none) ∧
      (ofNames d.alphabet d.names).accepting = ∅ := by
    refine List.foldlRecOn (motive := fun e : Dfa => e.WellFormed ∧ e.alphabet = d.alphabet ∧
      (∀ s c, e.move s c = none) ∧ e.accepting = ∅) _ _
      ⟨wellFormed_new, rfl, fun _ _ => move_new, rfl⟩ ?_
    rintro e ⟨he, halphabet, hmove, haccepting⟩ s -
    refine ⟨he.addState _, halphabet, fun r c => ?_, haccepting⟩
    rw [move_addState he, hmove]
  obtain ⟨he, halphabet, hmove, haccepting⟩ := hblank
  exact ⟨he, {
    wellFormed := he.toNfa
    alphabet_eq := halphabet
    names_eq := (List.foldl_hom Dfa.names fun _ _ => rfl).symm.trans
      (d.names.foldl_insert_name (Nat.zero_lt_of_lt hd.start_lt))
    mem_targets := fun s c t => by simp [mem_targets_toNfa he, hmove]
    not_mem_epsilonTargets := fun _ _ => not_mem_epsilonTargets_toNfa
    mem_accepting := fun s => by
      show s ∈ (ofNames d.alphabet d.names).accepting ↔ _
      simp [haccepting, StateSet.not_mem_empty] }⟩

theorem setMove_copiedTo (he : e.WellFormed) (h : d.toNfa.CopiedTo cells states e.toNfa)
    (hd : d.WellFormed) (hs : s < d.size) (hc : c < d.alphabet.size) :
    (e.setMove s c (d.move s c)).WellFormed ∧
      d.toNfa.CopiedTo (insert (s, c) cells) states (e.setMove s c (d.move s c)).toNfa := by
  have hnames : e.names = d.names := h.names_eq
  have halphabet : e.alphabet = d.alphabet := h.alphabet_eq
  have he' : (e.setMove s c (d.move s c)).WellFormed := he.setMove s c fun t ht => by
    rw [size, hnames]
    exact hd.move_lt s c t ht
  refine ⟨he', { h with
    wellFormed := he'.toNfa
    mem_targets := fun r b t => ?_
    not_mem_epsilonTargets := fun _ _ => not_mem_epsilonTargets_toNfa }⟩
  have hcells := h.mem_targets r b t
  rw [mem_targets_toNfa he, mem_targets_toNfa hd] at hcells
  rw [mem_targets_toNfa he', mem_targets_toNfa hd, move_setMove he, size, hnames, halphabet,
    Set.mem_insert_iff, Prod.mk.injEq]
  grind [size]

theorem insertAccepting_copiedTo (he : e.WellFormed) (h : d.toNfa.CopiedTo cells states e.toNfa)
    (hs : s < d.size) :
    (if d.isAccepting s then e.setAccepting s true else e).WellFormed ∧
      d.toNfa.CopiedTo cells (insert s states)
        (if d.isAccepting s then e.setAccepting s true else e).toNfa := by
  have hsize : e.size = d.size := h.size_eq
  have hinsert := h.insertAccepting hs
  have hsame : d.toNfa.isAccepting s = d.isAccepting s := rfl
  rw [hsame] at hinsert
  by_cases haccepting : d.isAccepting s = true
  · rw [if_pos haccepting] at hinsert ⊢
    exact ⟨he.setAccepting (hsize ▸ hs) true, hinsert⟩
  · rw [if_neg haccepting] at hinsert ⊢
    exact ⟨he, hinsert⟩

/-- When all is copied but the start state, a deterministic copy is the automaton itself. -/
theorem WellFormed.setStart_eq_of_copiedTo (hd : d.WellFormed) (he : e.WellFormed)
    (h : d.toNfa.CopiedTo {x | x.1 < d.size ∧ x.2 < d.alphabet.size} {s | s < d.size} e.toNfa) :
    e.setStart d.start = d := by
  have heq := h.setStart_eq hd.toNfa fun _ _ => not_mem_epsilonTargets_toNfa
  have hsize : e.size = d.size := h.size_eq
  have hwell := he.setStart (hsize ▸ hd.start_lt)
  exact Except.ok.inj (hwell.toDfa?_toNfa.symm.trans ((congrArg _ heq).trans hd.toDfa?_toNfa))

/-- A deterministic automaton whose cells are filled one after the other. -/
theorem WellFormed.foldl_setMove_eq (hd : d.WellFormed) :
    ((List.range d.size).foldl (fun e s => ((List.range d.alphabet.size).foldl
      (fun e c => e.setMove s c (d.move s c)) e).setAccepting s (d.isAccepting s))
      (ofNames d.alphabet d.names)).setStart d.start = d := by
  have htable : Dfa.WellFormed _ ∧ d.toNfa.CopiedTo _ _ (Dfa.toNfa _) :=
    foldl_table
      (P := fun cells states (e : Dfa) => e.WellFormed ∧ d.toNfa.CopiedTo cells states e.toNfa)
      hd.copiedTo_toNfa_ofNames (fun _ _ _ _ _ hs hc h => setMove_copiedTo h.1 h.2 hd hs hc)
      fun _ _ e s hs h =>
        have hsize : e.size = d.size := h.2.size_eq
        have hs' : s < e.size := hsize ▸ hs
        ⟨h.1.setAccepting hs' _, h.2.setAccepting hs⟩
  exact hd.setStart_eq_of_copiedTo htable.1 htable.2

end Dfa

namespace Nfa

/-- A state without several targets on a symbol, copied. -/
def copyState (n : Nfa) (e : Dfa) (s : Nat) : Dfa :=
  ((List.range n.alphabet.size).foldl
    (fun e c => e.setMove s c (n.targets s c).members.head?) e).setAccepting s (n.isAccepting s)

/-- A state is refused if it has several targets on one symbol, and copied otherwise. -/
theorem copyState?_eq (n : Nfa) (e : Dfa) (s : Nat) :
    n.copyState? e s =
      if (List.range n.alphabet.size).any fun c => 2 ≤ (n.targets s c).members.length then
        .error (.notDeterministic (n.name s))
      else .ok (n.copyState e s) := by
  have hrow := foldlM_eq_find? (l := List.range n.alphabet.size) (b := e) (f := n.copyMove? s)
    (fun _ _ hc => if_pos (of_decide_eq_true hc)) fun _ _ hc => if_neg (of_decide_eq_false hc)
  rw [copyState?, hrow, ← List.isSome_find?]
  cases (List.range n.alphabet.size).find? fun c => decide (2 ≤ (n.targets s c).members.length) <;>
    rfl

/-- Where no state is refused, the copy is the deterministic form. -/
theorem WellFormed.foldl_copyState_eq (hn : n.WellFormed) (h : n.toDfa? = .ok d) :
    ((List.range n.size).foldl n.copyState (.ofNames n.alphabet n.names)).setStart n.start = d := by
  have hd := hn.toDfa? h
  obtain ⟨-, rfl⟩ := eq_of_toDfa? h
  refine Eq.trans (congrArg (Dfa.setStart · _) ?_) hd.foldl_setMove_eq
  refine List.foldl_ext _ _ _ fun e s hs => congrArg (Dfa.setAccepting · s _) ?_
  refine List.foldl_ext _ _ _ fun e c hc => congrArg (e.setMove s c) ?_
  rw [Dfa.move_ofFn, if_pos ⟨List.mem_range.1 hs, List.mem_range.1 hc⟩]

/-- The copy is the deterministic form of the automaton, and where there is none, the state that is
    refused is the same. -/
theorem WellFormed.copied?_eq (hn : n.WellFormed) : n.copied? = n.toDfa? := by
  rw [copied?]
  split
  · next s hs => rw [Nfa.toDfa?, obstacle?, hs, Option.some_or]
  · next hnone =>
    have hobstacle : n.obstacle? = (List.range n.size).find? fun s =>
        (List.range n.alphabet.size).any fun c => 2 ≤ (n.targets s c).members.length := by
      rw [obstacle?, hnone, Option.none_or]
    rw [foldlM_eq_find? (fun e s hs => (n.copyState?_eq e s).trans (if_pos hs)) fun e s hs =>
      (n.copyState?_eq e s).trans (if_neg (ne_true_of_eq_false hs)), ← hobstacle]
    cases hd : n.toDfa? with
    | error x =>
      cases hs : n.obstacle? with
      | none =>
        rw [Nfa.toDfa?, hs] at hd
        cases hd
      | some s =>
        rw [Nfa.toDfa?, hs] at hd
        exact hd
    | ok d =>
      rw [(eq_of_toDfa? hd).1]
      exact congrArg Except.ok (hn.foldl_copyState_eq hd)

/-! ## Both ways -/

/-- A deterministic automaton comes back from the nondeterministic ones as it was: numbers, names,
    columns, moves, start and accepting states. A nondeterministic one has a deterministic form
    exactly if it is deterministic, and then it comes back from it as it was. Otherwise the first
    state with an epsilon move is named and, where there is none, the first with several targets on
    one symbol. Copying state by state gives the same automata and the same refusals. -/
theorem toDfa?_lossless (hd : d.WellFormed) (hn : n.WellFormed) :
    d.copied = d.toNfa ∧ d.toNfa.toDfa? = .ok d ∧ n.copied? = n.toDfa? ∧
      ((∃ e, n.toDfa? = .ok e) ↔ n.isDeterministic = true) ∧
      (∀ e, n.toDfa? = .ok e → e.toNfa = n) ∧
      (n.isDeterministic = false →
        ∃ s < n.size, n.toDfa? = .error (.notDeterministic (n.name s)) ∧ n.FirstObstacle s) := by
  refine ⟨hd.copied_eq, hd.toDfa?_toNfa, hn.copied?_eq, hn.exists_toDfa?_iff,
    fun e he => hn.toNfa_of_toDfa? he, fun hmany => ?_⟩
  have hsome : n.obstacle? ≠ none := fun hnone => by
    rw [hn.obstacle?_eq_none_iff_isDeterministic.1 hnone] at hmany
    cases hmany
  obtain ⟨s, hs⟩ := Option.ne_none_iff_exists'.1 hsome
  obtain ⟨hlt, hfirst⟩ := hn.firstObstacle_of_obstacle? hs
  refine ⟨s, hlt, ?_, hfirst⟩
  rw [Nfa.toDfa?, hs]

/-- A deterministic automaton that starts in its second state, and a nondeterministic one of which
    the second state has two targets on one symbol. -/
theorem toDfa?_lossless_branch :
    let d := (((Dfa.new (.single "a") "p").addState "q").setMove 1 0 (some 0)).setStart 1
    let n := (((Nfa.new (.single "a") "p").addState "q").addMove 1 0 0).addMove 1 0 1
    (d.copied = d.toNfa ∧ d.toNfa.toDfa? = .ok d ∧ n.copied? = n.toDfa? ∧
      ∃ s < n.size, n.toDfa? = .error (.notDeterministic (n.name s)) ∧ n.FirstObstacle s) ∧
      n.toDfa? = .error (.notDeterministic "q") := by
  intro d n
  have hd : d.WellFormed := ((Dfa.wellFormed_new.addState _).setMove 1 0
    fun t ht => by obtain rfl := Option.some.inj ht; decide).setStart (by decide)
  have hn : n.WellFormed :=
    ((wellFormed_new.addState _).addMove 1 0 (by decide)).addMove 1 0 (by decide)
  obtain ⟨hcopied, hback, hcopied?, -, -, hrefused⟩ := toDfa?_lossless hd hn
  exact ⟨⟨hcopied, hback, hcopied?, hrefused (by decide)⟩, by decide⟩

end Nfa

end Acceptors
