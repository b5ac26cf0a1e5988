import Acceptors.Proofs.Dfa.Copied
import Acceptors.Proofs.Dfa.Determinized

/-!
# The subset construction, state by state

The sets of states can be found first and the automaton read off them. It can also be made while the
sets are found: a set that is met for the first time gets a new state under the next name and is put
at the end of a worklist, and a move is entered as soon as it is known where it leads. The next set
of the worklist is expanded until the worklist is empty.

After each move, the automaton made so far is that of the sets found so far, with the moves of the
sets that have left the worklist. No set is expanded twice, so that the worklist runs empty, and
what there is then is the automaton read off all sets.

Results:
* `Construction.Reflects.follow`: what one more move keeps.
* `Construction.Reflects.expand`: what the expansion of a set keeps.
* `Construction.Reflects.exists_run_eq`: the loop ends once all sets are found.
* `Nfa.WellFormed.constructed_eq`: the loop makes the automaton of the subset construction.
-/

namespace Acceptors

/-! ## The loop -/

/-- Has a state accept if it is told to. -/
def Dfa.acceptIf (d : Dfa) (s : Nat) (accepts : Bool) : Dfa :=
  if accepts then d.setAccepting s true else d

/-- A subset construction that is under way. -/
structure Construction where
  /-- The automaton made so far. -/
  dfa : Dfa
  /-- The sets that have a state, each with its state. -/
  mapping : List (StateSet × Nat)
  /-- The sets that are still to be expanded. -/
  worklist : List StateSet

namespace Construction

/-- The start: the set of the start state alone has the only state and is still to be expanded (what
    `determinize` begins with). -/
def start (config : Config) (n : Nfa) : Construction :=
  let initial := StateSet.single n.start
  let d := Dfa.new n.alphabet (config.dfaPrefix ++ "0")
  { dfa := d.acceptIf 0 (n.anyAccepting initial)
    mapping := [(initial, 0)]
    worklist := [initial] }

/-- The state of a set (the look-up in `determinize`). A set that has none gets a new one and goes
    to the end of the worklist. -/
def stateOf (config : Config) (n : Nfa) (b : Construction) (X : StateSet) : Construction × Nat :=
  match b.mapping.lookup X with
  | some existing => (b, existing)
  | none =>
    let id := b.dfa.size
    let d := b.dfa.addState (config.dfaPrefix ++ toString b.mapping.length)
    ({ dfa := d.acceptIf id (n.anyAccepting X)
       mapping := b.mapping ++ [(X, id)]
       worklist := b.worklist ++ [X] }, id)

/-- Enters the move of the set `X`, whose state is `source`, on the symbol of a column: the body of
    the inner loop of `determinize`. A move to no state at all is left undefined. -/
def follow (config : Config) (n : Nfa) (X : StateSet) (source : Nat) (b : Construction) (c : Nat) :
    Construction :=
  let reached := n.step X c
  if reached.isEmpty then b
  else
    let (b, target) := b.stateOf config n reached
    { b with dfa := b.dfa.setMove source c (some target) }

/-- Enters the moves of a set on all symbols. -/
def expand (config : Config) (n : Nfa) (X : StateSet) (source : Nat) (b : Construction) :
    Construction :=
  (List.range n.alphabet.size).foldl (follow config n X source) b

/-- Expands the sets of the worklist from its front until there are none, in fewer rounds than are
    given: the outer loop of `determinize`. A set without a state would end it as well. -/
def run (config : Config) (n : Nfa) : (rounds : Nat) → (b : Construction) → Option Dfa
  | 0, _ => none
  | rounds + 1, b =>
    match b.worklist with
    | [] => some b.dfa
    | X :: worklist => do
      let source ← b.mapping.lookup X
      let b : Construction := { b with worklist := worklist }
      run config n rounds (b.expand config n X source)

end Construction

/-- The subset construction of an automaton, made in fewer rounds than are given (`determinize`).
    Epsilon moves are eliminated first. -/
def Nfa.constructed (config : Config) (n : Nfa) (rounds : Nat) : Option Dfa :=
  Construction.run config n.epsilonFree rounds (.start config n.epsilonFree)

/-! ## Sets and their states -/

/-- In a list whose members are paired with their places, a member is found with its first place. -/
theorem lookup_zipIdx {α : Type} [DecidableEq α] {x : α} (l : List α) (k : Nat) :
    (l.zipIdx k).lookup x = (l.idxOf? x).map (· + k) := by
  induction l generalizing k with
  | nil => rfl
  | cons y l ih =>
    rw [List.zipIdx_cons, List.lookup_cons, List.idxOf?_cons, ih]
    by_cases hxy : x = y
    · simp [hxy]
    · have hyx : (y == x) = false := by simpa using Ne.symm hxy
      simp only [beq_false_of_ne hxy, hyx]
      cases l.idxOf? x <;> simp; omega

/-- In a numbering, the place of a value is its number. -/
theorem Numbering.lookup_zipIdx_eq_some_iff {found : Numbering StateSet} {X : StateSet} {i : Nat} :
    found.toList.zipIdx.lookup X = some i ↔ found.get? i = some X := by
  rw [lookup_zipIdx, ← getElem?_toList]
  simp only [Nat.add_zero, Option.map_id', idxOf?_eq_some_iff_getElem? found.nodup_toList]

/-! ## States that are made to accept -/

namespace Dfa

variable {d : Dfa} {s t : Nat} {accepts : Bool}

theorem acceptIf_eq (d : Dfa) (s : Nat) (accepts : Bool) :
    d.acceptIf s accepts =
      { d with accepting := if accepts then d.accepting.insert s else d.accepting } := by
  cases accepts <;> rfl

theorem WellFormed.acceptIf (hd : d.WellFormed) (hs : s < d.size) (accepts : Bool) :
    (d.acceptIf s accepts).WellFormed := by
  unfold Dfa.acceptIf
  split
  · exact hd.setAccepting hs true
  · exact hd

theorem mem_accepting_acceptIf :
    t ∈ (d.acceptIf s accepts).accepting ↔ t ∈ d.accepting ∨ t = s ∧ accepts = true := by
  rw [acceptIf_eq]
  cases accepts <;> simp [StateSet.mem_insert]

end Dfa

namespace Construction

variable {config : Config} {n : Nfa} {found : Numbering StateSet} {b : Construction}
variable {X Y : StateSet} {i c q s t : Nat} {target : Option Nat}

/-! ## What the loop has done -/

/-- A move leads to the state of a set, and there is none to the empty set. -/
def Leads (found : Numbering StateSet) (Y : StateSet) (target : Option Nat) : Prop :=
  (Y.isEmpty = true ∧ target = none) ∨ ∃ t, found.get? t = some Y ∧ target = some t

/-- What has been made is the automaton of the sets found so far, with all moves of the sets
    numbered below `i` and, of the set numbered `i`, those on the symbols before column `c`. The
    sets numbered below `q` have left the worklist. -/
structure Reflects (config : Config) (n : Nfa) (i c q : Nat) (found : Numbering StateSet)
    (b : Construction) : Prop where
  wellFormed : b.dfa.WellFormed
  alphabet_eq : b.dfa.alphabet = n.alphabet
  names_eq : b.dfa.names = .numbered config.dfaPrefix found.size
  start_eq : b.dfa.start = 0
  accepting_iff : ∀ s, s ∈ b.dfa.accepting ↔ ∃ X, found.get? s = some X ∧ n.anyAccepting X = true
  leads : ∀ s a X, s < i ∨ s = i ∧ a < c → a < n.alphabet.size → found.get? s = some X →
    Leads found (n.step X a) (b.dfa.move s a)
  blank : ∀ s a, i < s ∨ s = i ∧ c ≤ a → b.dfa.move s a = none
  mapping_eq : b.mapping = found.toList.zipIdx
  worklist_eq : b.worklist = found.toList.drop q

theorem Reflects.size_eq (h : Reflects config n i c q found b) : b.dfa.size = found.size := by
  rw [Dfa.size, h.names_eq, StateNames.size_numbered]

/-- Where a move leads does not change when more sets are found. -/
theorem Leads.insert (h : Leads found Y target) : Leads (found.insert X) Y target := by
  rcases h with h | ⟨t, ht, h⟩
  · exact .inl h
  · exact .inr ⟨t, Numbering.get?_foldl_insert (l := [X]) ht, h⟩

/-- A set without a state gets one. -/
theorem Reflects.addSet (h : Reflects config n i c q found b) (hi : i < found.size)
    (hq : q ≤ found.size) (hY : Y ∉ found.toList) :
    Reflects config n i c q (found.insert Y)
      { dfa := (b.dfa.addState (config.dfaPrefix ++ toString b.mapping.length)).acceptIf
          b.dfa.size (n.anyAccepting Y)
        mapping := b.mapping ++ [(Y, b.dfa.size)]
        worklist := b.worklist ++ [Y] } := by
  have hlength : b.mapping.length = found.size := by
    rw [h.mapping_eq, List.length_zipIdx, Numbering.length_toList]
  rw [hlength]
  have hlist := Numbering.toList_insert_of_not_mem hY
  have hsize : (found.insert Y).size = found.size + 1 := by
    rw [← Numbering.length_toList, hlist, List.length_append, Numbering.length_toList]
    rfl
  have hget : ∀ {s X}, (found.insert Y).get? s = some X ↔
      found.get? s = some X ∨ s = found.size ∧ Y = X := Numbering.get?_insert_eq_some_iff hY
  have hmove : ∀ s a, ((b.dfa.addState (config.dfaPrefix ++ toString found.size)).acceptIf
      b.dfa.size (n.anyAccepting Y)).move s a = b.dfa.move s a := by
    intro s a
    rw [Dfa.acceptIf_eq]
    exact Dfa.move_addState h.wellFormed (config.dfaPrefix ++ toString found.size)
  refine ⟨(h.wellFormed.addState _).acceptIf ?_ _, ?_, ?_, ?_, fun s => ?_,
    fun s a X hs ha hX => ?_, fun s a hs => (hmove s a).trans (h.blank s a hs), ?_, ?_⟩
  · rw [Dfa.size_addState]
    exact Nat.lt_succ_self _
  · rw [Dfa.acceptIf_eq]
    exact h.alphabet_eq
  · rw [Dfa.acceptIf_eq, hsize, ← StateNames.insert_numbered, ← h.names_eq]
    rfl
  · rw [Dfa.acceptIf_eq]
    exact h.start_eq
  · rw [Dfa.mem_accepting_acceptIf, h.size_eq]
    show s ∈ b.dfa.accepting ∨ _ ↔ _
    rw [h.accepting_iff]
    simp only [hget, or_and_right, exists_or]
    simp
  · rw [hmove]
    have hold : found.get? s = some X := (hget.1 hX).resolve_right (by omega)
    exact (h.leads s a X hs ha hold).insert
  · rw [hlist, List.zipIdx_append, h.mapping_eq, h.size_eq, Numbering.length_toList]
    simp
  · rw [hlist, h.worklist_eq, List.drop_append_of_le_length]
    rwa [Numbering.length_toList]

/-- A set that has a state keeps it, and a set that has none gets the next number. -/
theorem Reflects.stateOf (h : Reflects config n i c q found b) (hi : i < found.size)
    (hq : q ≤ found.size) (Y : StateSet) :
    Reflects config n i c q (found.insert Y) (b.stateOf config n Y).1 ∧
      (found.insert Y).get? (b.stateOf config n Y).2 = some Y := by
  unfold Construction.stateOf
  rw [h.mapping_eq]
  cases hlookup : found.toList.zipIdx.lookup Y with
  | some t =>
    have ht := Numbering.lookup_zipIdx_eq_some_iff.1 hlookup
    rw [Numbering.insert_of_mem (Numbering.mem_toList_iff.2 ⟨t, ht⟩)]
    exact ⟨h, ht⟩
  | none =>
    have hY : Y ∉ found.toList := by
      intro hY
      obtain ⟨t, ht⟩ := Numbering.mem_toList_iff.1 hY
      rw [Numbering.lookup_zipIdx_eq_some_iff.2 ht] at hlookup
      cases hlookup
    have hnew := h.addSet hi hq hY
    rw [h.mapping_eq] at hnew
    exact ⟨hnew, (Numbering.get?_insert_eq_some_iff hY).2 (.inr ⟨h.size_eq, rfl⟩)⟩

/-! ## What the loop does next -/

/-- A move that is entered leads to the state of its set. -/
theorem Reflects.setMove (h : Reflects config n i c q found b) (hX : found.get? i = some X)
    (hc : c < n.alphabet.size) (ht : found.get? t = some (n.step X c)) :
    Reflects config n i (c + 1) q found { b with dfa := b.dfa.setMove i c (some t) } := by
  have hin : i < b.dfa.size ∧ c < b.dfa.alphabet.size := by
    rw [h.size_eq, h.alphabet_eq]
    exact ⟨Numbering.exists_get?_iff_lt_size.1 ⟨X, hX⟩, hc⟩
  have hmove : ∀ s a, (b.dfa.setMove i c (some t)).move s a =
      if s = i ∧ a = c then some t else b.dfa.move s a := by
    intro s a
    rw [Dfa.move_setMove h.wellFormed]
    simp only [hin, and_self, true_and]
  refine { h with
    wellFormed := h.wellFormed.setMove i c fun u hu => ?_
    leads := fun s a Z hs ha hZ => ?_
    blank := fun s a hs => ?_ }
  · rw [h.size_eq, ← Option.some.inj hu]
    exact Numbering.exists_get?_iff_lt_size.1 ⟨_, ht⟩
  · show Leads _ _ ((b.dfa.setMove i c (some t)).move s a)
    rw [hmove]
    split
    · next hcell =>
      obtain ⟨rfl, rfl⟩ := hcell
      obtain rfl : X = Z := Option.some.inj (hX.symm.trans hZ)
      exact .inr ⟨t, ht, rfl⟩
    · exact h.leads s a Z (by omega) ha hZ
  · show (b.dfa.setMove i c (some t)).move s a = none
    rw [hmove, if_neg (by omega)]
    exact h.blank s a (by omega)

/-- One more move is entered, and the set to which it leads has been found. -/
theorem Reflects.follow (h : Reflects config n i c (i + 1) found b) (hX : found.get? i = some X)
    (hc : c < n.alphabet.size) :
    Reflects config n i (c + 1) (i + 1)
      (if (n.step X c).isEmpty then found else found.insert (n.step X c))
      (b.follow config n X i c) := by
  by_cases hempty : (n.step X c).isEmpty = true
  · have hfollow : b.follow config n X i c = b := if_pos hempty
    rw [hfollow, if_pos hempty]
    refine { h with leads := fun s a Z hs ha hZ => ?_, blank := fun s a hs => ?_ }
    · by_cases hcell : s = i ∧ a = c
      · obtain ⟨rfl, rfl⟩ := hcell
        obtain rfl : X = Z := Option.some.inj (hX.symm.trans hZ)
        exact .inl ⟨hempty, h.blank s a (by omega)⟩
      · exact h.leads s a Z (by omega) ha hZ
    · exact h.blank s a (by omega)
  · have hfollow : b.follow config n X i c =
        { (b.stateOf config n (n.step X c)).1 with
          dfa := (b.stateOf config n (n.step X c)).1.dfa.setMove i c
            (some (b.stateOf config n (n.step X c)).2) } := if_neg hempty
    have hi : i < found.size := Numbering.exists_get?_iff_lt_size.1 ⟨X, hX⟩
    obtain ⟨h', ht⟩ := h.stateOf hi hi (n.step X c)
    rw [hfollow, if_neg hempty]
    exact h'.setMove (Numbering.get?_foldl_insert (l := [n.step X c]) hX) hc ht

/-- A set is expanded column by column. -/
theorem expansion_eq_map_range (n : Nfa) (X : StateSet) :
    Nfa.expansion (n.stepRow n.moveLists) X =
      ((List.range n.alphabet.size).map (n.step X)).filter (!·.isEmpty) := by
  rw [Nfa.expansion, Nfa.stepRow_eq]
  congr 1
  apply List.ext_getElem
  · simp
  · intro c hc hc'
    simp

/-- The moves on the first symbols are entered, column by column. -/
theorem Reflects.foldl_follow {k : Nat} (h : Reflects config n i 0 (i + 1) found b)
    (hX : found.get? i = some X) (hk : k ≤ n.alphabet.size) :
    Reflects config n i k (i + 1)
      ((((List.range k).map (n.step X)).filter (!·.isEmpty)).foldl .insert found)
      ((List.range k).foldl (Construction.follow config n X i) b) := by
  induction k with
  | zero => exact h
  | succ k ih =>
    have hnext := (ih (Nat.le_of_succ_le hk)).follow (Numbering.get?_foldl_insert hX) hk
    rw [List.range_succ, List.map_append, List.filter_append, List.foldl_append, List.foldl_append]
    cases hempty : (n.step X k).isEmpty <;> simpa [hempty] using hnext

/-- With the moves on all symbols, a set is done. -/
theorem Reflects.succ (h : Reflects config n i n.alphabet.size q found b) :
    Reflects config n (i + 1) 0 q found b :=
  { h with
    leads := fun s a X hs ha hX => h.leads s a X (by omega) ha hX
    blank := fun s a hs => h.blank s a (by omega) }

/-- The first set of the worklist is expanded. -/
theorem Reflects.expand (h : Reflects config n i 0 i found b) (hX : found.get? i = some X) :
    ∃ rest, b.worklist = X :: rest ∧ b.mapping.lookup X = some i ∧
      Reflects config n (i + 1) 0 (i + 1)
        ((Nfa.expansion (n.stepRow n.moveLists) X).foldl .insert found)
        (({ b with worklist := rest } : Construction).expand config n X i) := by
  have hdrop : found.toList.drop i = X :: found.toList.drop (i + 1) := by
    rw [← Numbering.getElem?_toList] at hX
    obtain ⟨hi, rfl⟩ := List.getElem?_eq_some_iff.1 hX
    exact List.drop_eq_getElem_cons hi
  refine ⟨found.toList.drop (i + 1), h.worklist_eq.trans hdrop, ?_, ?_⟩
  · rw [h.mapping_eq, Numbering.lookup_zipIdx_eq_some_iff]
    exact hX
  · have htaken : Reflects config n i 0 (i + 1) found
        { b with worklist := found.toList.drop (i + 1) } := { h with worklist_eq := rfl }
    rw [expansion_eq_map_range]
    exact (htaken.foldl_follow hX le_rfl).succ

open Nfa (discover)

/-- With an empty worklist the loop ends. -/
theorem Reflects.run_eq {rounds : Nat} (h : Reflects config n i c q found b)
    (hsize : found.size ≤ q) (hrounds : rounds ≠ 0) : b.run config n rounds = some b.dfa := by
  obtain ⟨rounds, rfl⟩ := Nat.exists_eq_succ_of_ne_zero hrounds
  have hempty : b.worklist = [] := by
    rw [h.worklist_eq, List.drop_eq_nil_iff, Numbering.length_toList]
    exact hsize
  rw [run, hempty]

/-- The worklist runs empty once all sets are found, and then all of them have their moves. -/
theorem Reflects.exists_run_eq {steps rounds : Nat} (h : Reflects config n i 0 i found b)
    (hsize : (discover (n.stepRow n.moveLists) steps i found).size ≤ i + steps)
    (hrounds : steps < rounds) :
    ∃ j b', b.run config n rounds = some b'.dfa ∧
      (discover (n.stepRow n.moveLists) steps i found).size ≤ j ∧
      Reflects config n j 0 j (discover (n.stepRow n.moveLists) steps i found) b' := by
  induction steps generalizing i found b rounds with
  | zero => exact ⟨i, b, h.run_eq hsize (Nat.ne_zero_of_lt hrounds), hsize, h⟩
  | succ steps ih =>
    cases hnext : found.get? i with
    | none =>
      have hle : found.size ≤ i := by
        rw [← Numbering.length_toList]
        rwa [← Numbering.getElem?_toList, List.getElem?_eq_none_iff] at hnext
      rw [discover, hnext]
      exact ⟨i, b, h.run_eq hle (Nat.ne_zero_of_lt hrounds), hle, h⟩
    | some X =>
      obtain ⟨rest, hworklist, hlookup, h'⟩ := h.expand hnext
      obtain ⟨rounds, rfl⟩ := Nat.exists_eq_succ_of_ne_zero (Nat.ne_zero_of_lt hrounds)
      rw [discover, hnext] at hsize ⊢
      rw [run, hworklist]
      show ∃ j b', (b.mapping.lookup X).bind _ = _ ∧ _
      rw [hlookup]
      have hle : (discover (n.stepRow n.moveLists) steps (i + 1)
          ((Nfa.expansion (n.stepRow n.moveLists) X).foldl .insert found)).size ≤
            i + 1 + steps := by
        rw [Nat.add_right_comm]
        exact hsize
      exact ih h' hle (Nat.lt_of_succ_lt_succ hrounds)

/-- At the start the only set is found, and nothing is entered. -/
theorem reflects_start (config : Config) (n : Nfa) :
    Reflects config n 0 0 0 (Numbering.empty.insert (.single n.start)) (start config n) := by
  have hnot : StateSet.single n.start ∉ Numbering.empty.toList := by
    simp [Numbering.empty, Numbering.toList]
  have hlist := Numbering.toList_insert_of_not_mem hnot
  have hget : ∀ {s X}, (Numbering.empty.insert (StateSet.single n.start)).get? s = some X ↔
      s = 0 ∧ StateSet.single n.start = X := by
    intro s X
    rw [Numbering.get?_insert_eq_some_iff hnot]
    simp [Numbering.empty, Numbering.get?, Numbering.size]
  have hsize : (Numbering.empty.insert (StateSet.single n.start)).size = 1 := by
    rw [← Numbering.length_toList, hlist]
    rfl
  refine ⟨Dfa.wellFormed_new.acceptIf Nat.zero_lt_one _, ?_, ?_, ?_, fun s => ?_,
    fun s a X hs => by omega, fun s a _ => ?_, ?_, ?_⟩
  · exact congrArg Dfa.alphabet (Dfa.acceptIf_eq _ _ _)
  · rw [hsize, ← StateNames.insert_numbered]
    exact congrArg Dfa.names (Dfa.acceptIf_eq _ _ _)
  · exact congrArg Dfa.start (Dfa.acceptIf_eq _ _ _)
  · refine Dfa.mem_accepting_acceptIf.trans ?_
    have hnone : s ∉ (Dfa.new n.alphabet (config.dfaPrefix ++ "0")).accepting :=
      StateSet.not_mem_empty s
    simp [hget, hnone]
  · have hblank : (Dfa.new n.alphabet (config.dfaPrefix ++ "0")).move s a = none := Dfa.move_new
    exact (congrArg (Dfa.move · s a) (Dfa.acceptIf_eq _ _ _)).trans hblank
  · rw [hlist]
    rfl
  · rw [hlist]
    rfl

/-- What a move leads to is looked up among the sets found, of which none is empty. -/
theorem Leads.eq_idOf? (h : Leads found Y target) (hempty : ∀ X ∈ found.toList, X.isEmpty = false) :
    target = found.idOf? Y := by
  rcases h with ⟨hY, rfl⟩ | ⟨t, ht, rfl⟩
  · symm
    rw [Option.eq_none_iff_forall_ne_some]
    intro t ht
    have hfalse := hempty Y (Numbering.mem_toList_iff.2 ⟨t, Numbering.idOf?_eq_some_iff.1 ht⟩)
    rw [hY] at hfalse
    cases hfalse
  · exact (Numbering.idOf?_eq_some_iff.2 ht).symm

/-- When all sets have their moves, the automaton is the one that is read off them. -/
theorem Reflects.dfa_eq (h : Reflects config n.epsilonFree i 0 q n.epsilonFree.subsets b)
    (hsize : n.epsilonFree.subsets.size ≤ i) : b.dfa = n.determinize config := by
  have hd : (n.determinize config).WellFormed := Nfa.wellFormed_determinize
  have hmove : ∀ s a, s < n.epsilonFree.subsets.size → a < n.epsilonFree.alphabet.size →
      b.dfa.move s a = (n.determinize config).move s a := by
    intro s a hs ha
    obtain ⟨X, hX⟩ := Numbering.exists_get?_iff_lt_size.2 hs
    rw [Nfa.move_determinize hX (Nfa.alphabet_epsilonFree ▸ ha)]
    exact (h.leads s a X (.inl (Nat.lt_of_lt_of_le hs hsize)) ha hX).eq_idOf?
      Nfa.isEmpty_of_mem_subsets
  refine h.wellFormed.eq_of_move hd h.alphabet_eq h.names_eq (fun s a t => ?_) h.start_eq
    (StateSet.ext fun s => ?_)
  · constructor
    · intro ht
      obtain ⟨hs, ha⟩ := h.wellFormed.lt_of_move ht
      rw [h.size_eq] at hs
      rw [h.alphabet_eq] at ha
      rwa [← hmove s a hs ha]
    · intro ht
      obtain ⟨hs, ha⟩ := hd.lt_of_move ht
      rw [Nfa.size_determinize] at hs
      rw [Nfa.alphabet_determinize, ← Nfa.alphabet_epsilonFree] at ha
      rwa [hmove s a hs ha]
  · rw [h.accepting_iff]
    constructor
    · rintro ⟨X, hX, haccepts⟩
      exact (Nfa.isAccepting_determinize hX).trans haccepts
    · intro hs
      have hlt := hd.accepting_lt s hs
      rw [Nfa.size_determinize] at hlt
      obtain ⟨X, hX⟩ := Numbering.exists_get?_iff_lt_size.2 hlt
      exact ⟨X, hX, (Nfa.isAccepting_determinize hX).symm.trans hs⟩

end Construction

namespace Nfa

variable {n : Nfa}

/-- The loop ends, and makes the automaton that is read off the sets found. -/
theorem WellFormed.constructed_eq (hn : n.WellFormed) (config : Config) {rounds : Nat}
    (hrounds : 2 ^ n.size < rounds) :
    n.constructed config rounds = some (n.determinize config) := by
  have hlt := hn.epsilonFree.size_subsets_lt
  have hstart := Construction.reflects_start config n.epsilonFree
  rw [← size_epsilonFree, ← Nat.one_shiftLeft] at hrounds
  have hle : n.epsilonFree.subsets.size ≤ 0 + 1 <<< n.epsilonFree.size := by
    rw [Nat.one_shiftLeft]
    omega
  obtain ⟨i, b, hrun, hsize, h⟩ := hstart.exists_run_eq hle hrounds
  rw [constructed, hrun, h.dfa_eq hsize]

end Nfa

end Acceptors
