import Acceptors.Proofs.Dfa.Copied
import Acceptors.Proofs.Minimal.Minimized
import Acceptors.Proofs.Stacked

/-!
# Restriction, state by state

A restricted automaton accepts a word exactly if the run of the automaton on it is defined, stays
among the states that are kept and ends in an accepting one. Nothing is lost by a restriction to the
reachable states, nor by one to the productive states if the start is among them.

The searches for these states can keep a stack, and the restricted automaton can be made in two
passes. The first enters the states that are kept in ascending order and notes the number that each
gets. The second looks up the numbers of the targets, where a target that has none leaves the move
undefined. The searches find the same states, and the two passes make the same automaton.

Results:
* `Dfa.WellFormed.reached_eq`, `Dfa.WellFormed.producing_eq`: the searches with a stack.
* `Dfa.numberOf?_enterStates`: the numbers that the first pass notes.
* `Dfa.WellFormed.retained_eq`: the automaton that the two passes make.
* `Dfa.Restricts`, `Dfa.restrict_exact`: which runs a restriction keeps.
-/

namespace Acceptors

namespace Dfa

variable {d e : Dfa} {keep : StateSet} {number : Array (Option Nat)} {l : List Nat}
variable {s t i j c : Nat}

/-! ## The searches and the passes -/

/-- The states that are met by following moves from the start (`reachable`). -/
def reached (d : Dfa) : Option StateSet :=
  Search.walk d.successors d.size (.single d.start) [d.start]

/-- The states that are met by following moves backwards from the accepting states, of which the
    highest is on top of the stack (`productive`). -/
def producing (d : Dfa) : Option StateSet :=
  let sources := Search.sources d.size d.successors
  Search.walk (fun s => sources[s]?.getD []) d.size d.accepting d.accepting.members.reverse

/-- The number that is noted for a state. -/
def numberOf? (number : Array (Option Nat)) (s : Nat) : Option Nat := number[s]?.join

/-- Enters a state of `d` and notes the number that it gets (the first loop of `retain`). -/
def enterState (d : Dfa) (entered : Array (Option Nat) × Dfa) (s : Nat) :
    Array (Option Nat) × Dfa :=
  (entered.1.setIfInBounds s (some entered.2.size), entered.2.addState (d.name s))

/-- Enters the states of a list in turn, of which none has a number at first. -/
def enterStates (d : Dfa) (l : List Nat) : Array (Option Nat) × Dfa :=
  let blank : Dfa :=
    { alphabet := d.alphabet, names := .empty, moves := .empty, start := 0, accepting := ∅ }
  l.foldl d.enterState (Array.replicate d.size none, blank)

/-- Enters the move of a state on the symbol of a column: it is undefined unless there is a target
    that has a number. -/
def enterMove (d : Dfa) (number : Array (Option Nat)) (s i : Nat) (e : Dfa) (c : Nat) : Dfa :=
  e.setMove i c ((d.move s c).bind (numberOf? number))

/-- Enters the moves of a state that has a number, and that it accepts if it does (the second loop
    of `retain`). -/
def enterMoves (d : Dfa) (number : Array (Option Nat)) (e : Dfa) (s : Nat) : Dfa :=
  match numberOf? number s with
  | none => e
  | some i =>
    let e := (List.range d.alphabet.size).foldl (d.enterMove number s i) e
    if d.isAccepting s then e.setAccepting i true else e

/-- The automaton with the states of `keep` alone, made in two passes over them (`retain`). -/
def retained (d : Dfa) (keep : StateSet) : Dfa :=
  let (number, e) := d.enterStates keep.members
  (keep.members.foldl (d.enterMoves number) e).setStart ((numberOf? number d.start).getD 0)

/-! ## What the searches find -/

/-- The search from the start finds the reachable states. -/
theorem WellFormed.reached_eq (hd : d.WellFormed) : d.reached = some d.reachable := by
  have hsuccessors : ∀ s < d.size, ∀ t ∈ d.successors s, t < d.size := fun _ _ =>
    hd.successors_lt
  have hroots : ∀ s ∈ [d.start], s < d.size := List.forall_mem_singleton.2 hd.start_lt
  have hmet : ∀ s, s ∈ StateSet.single d.start ↔ s ∈ [d.start] := fun s =>
    StateSet.mem_single.trans List.mem_singleton.symm
  exact Search.walk_eq_reach hsuccessors hmet hroots (List.nodup_singleton _) le_rfl

/-- The search from the accepting states finds the productive states. -/
theorem WellFormed.producing_eq (hd : d.WellFormed) : d.producing = some d.productive := by
  have hsources : ∀ t < d.size, ∀ s ∈ (Search.sources d.size d.successors)[t]?.getD [],
      s < d.size := fun t _ s hs => (Search.mem_sources.1 hs).1
  exact Search.walk_members_eq_reach hsources hd.accepting_lt le_rfl

/-! ## The first pass -/

theorem enterStates_concat : d.enterStates (l ++ [s]) = d.enterState (d.enterStates l) s :=
  List.foldl_concat ..

theorem enterStates_snd (d : Dfa) (l : List Nat) :
    (d.enterStates l).2 = (l.map d.name).foldl addState (d.enterStates []).2 := by
  rw [List.foldl_map]
  exact (List.foldl_hom Prod.snd fun _ _ => rfl).symm

theorem size_enterStates (d : Dfa) (l : List Nat) :
    (d.enterStates l).1.size = d.size ∧ (d.enterStates l).2.size = l.length := by
  induction l using List.reverseRecOn with
  | nil => exact ⟨Array.size_replicate, rfl⟩
  | append_singleton l s ih =>
    rw [enterStates_concat, enterState, Array.size_setIfInBounds, size_addState, ih.2,
      List.length_append]
    exact ⟨ih.1, rfl⟩

/-- The number of one state is noted, and the numbers of the others are kept. -/
theorem numberOf?_setIfInBounds (hs : s < number.size) :
    numberOf? (number.setIfInBounds s (some j)) t = some i ↔
      s = t ∧ i = j ∨ s ≠ t ∧ numberOf? number t = some i := by
  rw [numberOf?, numberOf?, Array.getElem?_setIfInBounds]
  by_cases hst : s = t
  · simp [hst, hst ▸ hs, eq_comm]
  · simp [hst]

/-- Distinct states are numbered in the order in which they are entered. -/
theorem numberOf?_enterStates (hl : l.Nodup) (hlt : ∀ s ∈ l, s < d.size) :
    numberOf? (d.enterStates l).1 t = some i ↔ l[i]? = some t := by
  -- from the end of the list, as a state gets for its number how many are entered before it
  induction l using List.reverseRecOn with
  | nil =>
    have hnone : numberOf? (Array.replicate d.size none) t = none := by
      by_cases ht : t < d.size <;> simp [numberOf?, ht]
    refine iff_of_false (fun h => ?_) (by simp)
    cases hnone.symm.trans h
  | append_singleton l s ih =>
    obtain ⟨hl, -, hs⟩ := List.nodup_append.1 hl
    obtain ⟨hlt, hslt⟩ := List.forall_mem_append.1 hlt
    obtain ⟨hsize, hlength⟩ := d.size_enterStates l
    have hbound : s < (d.enterStates l).1.size := hsize ▸ hslt s (List.mem_singleton_self s)
    rw [enterStates_concat, enterState, hlength, numberOf?_setIfInBounds hbound, ih hl hlt,
      getElem?_concat_eq_some_iff]
    constructor
    · rintro (⟨rfl, rfl⟩ | ⟨-, h⟩)
      · exact .inr ⟨rfl, rfl⟩
      · exact .inl h
    · rintro (h | ⟨rfl, rfl⟩)
      · exact .inr ⟨fun heq => hs t (List.mem_of_getElem? h) s (by simp) heq.symm, h⟩
      · exact .inl ⟨rfl, rfl⟩

/-- The first pass gives the states their numbers in the restricted automaton. -/
theorem numberOf?_enterStates_kept :
    numberOf? (d.enterStates (d.kept keep)).1 = (d.kept keep).idxOf? := by
  funext t
  refine Option.ext fun i => ?_
  rw [numberOf?_enterStates nodup_kept fun s hs => (mem_kept_iff.1 hs).1,
    idxOf?_eq_some_iff_getElem? nodup_kept]

/-- The first pass enters the states of the restricted automaton. -/
theorem enterStates_kept_snd (hpos : 0 < (d.restrict keep).size) :
    (d.enterStates (d.kept keep)).2 =
      ofNames (d.restrict keep).alphabet (d.restrict keep).names := by
  have hrange : List.range (d.restrict keep).names.size = _ := range_eq_zero_cons hpos
  rw [enterStates_snd, ← toList_names_restrict, ← StateNames.map_name_range, List.foldl_map,
    hrange, List.foldl_cons]
  rfl

/-! ## The second pass -/

/-- An automaton whose cells are filled one after the other, and whose accepting states are put in
    on the way. -/
theorem WellFormed.foldl_setMove_insert_eq (hd : d.WellFormed) :
    ((List.range d.size).foldl (fun e s =>
      let e := (List.range d.alphabet.size).foldl (fun e c => e.setMove s c (d.move s c)) e
      if d.isAccepting s then e.setAccepting s true else e)
      (ofNames d.alphabet d.names)).setStart d.start = d := by
  have htable : Dfa.WellFormed _ ∧ d.toNfa.CopiedTo _ _ (Dfa.toNfa _) :=
    foldl_table
      (P := fun cells states (e : Dfa) => e.WellFormed ∧ d.toNfa.CopiedTo cells states e.toNfa)
      hd.copiedTo_toNfa_ofNames (fun _ _ _ _ _ hs hc h => setMove_copiedTo h.1 h.2 hd hs hc)
      fun _ _ _ _ hs h => insertAccepting_copiedTo h.1 h.2 hs
  exact hd.setStart_eq_of_copiedTo htable.1 htable.2

/-- The moves of the restricted automaton are those that the second pass enters. -/
theorem move_restrict (hi : i < (d.restrict keep).size) (hc : c < d.alphabet.size) :
    (d.restrict keep).move i c = (d.move (d.oldState keep i) c).bind (d.kept keep).idxOf? := by
  have hold := getElem?_kept_oldState hi
  rw [← List.getElem?_toArray] at hold
  rw [restrict_eq, renumber, move_ofFn, if_pos ⟨hi, hc⟩, hold]
  rfl

/-- What is entered for a state that is kept, by its number in the restricted automaton. -/
theorem enterMoves_oldState (e : Dfa) (hi : i < (d.restrict keep).size) :
    d.enterMoves (d.enterStates (d.kept keep)).1 e (d.oldState keep i) =
      let e := (List.range d.alphabet.size).foldl
        (fun e c => e.setMove i c ((d.restrict keep).move i c)) e
      if (d.restrict keep).isAccepting i then e.setAccepting i true else e := by
  have hold := getElem?_kept_oldState hi
  have hnumber := (idxOf?_eq_some_iff_getElem? nodup_kept).2 hold
  have hmoves : (List.range d.alphabet.size).foldl
      (d.enterMove (d.enterStates (d.kept keep)).1 (d.oldState keep i) i) e =
      (List.range d.alphabet.size).foldl
        (fun e c => e.setMove i c ((d.restrict keep).move i c)) e := by
    refine List.foldl_ext _ _ _ fun e c hc => ?_
    rw [enterMove, numberOf?_enterStates_kept, move_restrict hi (List.mem_range.1 hc)]
  simp only [enterMoves, numberOf?_enterStates_kept, hnumber, isAccepting_restrict hold, hmoves]

/-- The states that are kept, in ascending order. -/
theorem members_eq_kept (hkeep : ∀ s ∈ keep, s < d.size) : keep.members = d.kept keep := by
  refine (StateSet.members_pairwise keep).eq_of_mem_iff pairwise_kept fun s => ?_
  rw [StateSet.mem_members, mem_kept_iff]
  exact (and_iff_right_of_imp (hkeep s)).symm

/-- The second pass goes through the states of the restricted automaton. -/
theorem foldl_enterMoves_kept (e : Dfa) :
    (d.kept keep).foldl (d.enterMoves (d.enterStates (d.kept keep)).1) e =
      (List.range (d.restrict keep).size).foldl (fun e i =>
        let e := (List.range d.alphabet.size).foldl
          (fun e c => e.setMove i c ((d.restrict keep).move i c)) e
        if (d.restrict keep).isAccepting i then e.setAccepting i true else e) e :=
  calc _ = ((List.range (d.restrict keep).size).map (d.oldState keep)).foldl
        (d.enterMoves (d.enterStates (d.kept keep)).1) e := by rw [← kept_eq_map]
    _ = _ := List.foldl_map
    _ = _ := List.foldl_ext _ _ _ fun e _ hi => enterMoves_oldState e (List.mem_range.1 hi)

/-- The two passes make the restricted automaton. -/
theorem WellFormed.retained_eq (hd : d.WellFormed) (hstart : d.start ∈ keep)
    (hkeep : ∀ s ∈ keep, s < d.size) : d.retained keep = d.restrict keep := by
  have hr := hd.restrict hstart
  have hstates := enterStates_kept_snd (Nat.zero_lt_of_lt hr.start_lt)
  rw [retained, members_eq_kept hkeep]
  dsimp only
  rw [foldl_enterMoves_kept, hstates, numberOf?_enterStates_kept]
  exact hr.foldl_setMove_insert_eq

/-! ## Which runs are kept -/

/-- The automaton `e` is what `d` is among the states of `keep`. Its states are those of `keep` in
    ascending order, with their names; its runs are the runs of `d` that stay in `keep`, and what it
    accepts are the words on which the run of `d` stays in `keep` and ends in an accepting state. -/
structure Restricts (d : Dfa) (keep : StateSet) (e : Dfa) : Prop where
  wellFormed : e.WellFormed
  alphabet_eq : e.alphabet = d.alphabet
  names_eq : e.names.toList = keep.members.map d.name
  start : keep.members[e.start]? = some d.start
  isAccepting_eq : ∀ i s, keep.members[i]? = some s → e.isAccepting i = d.isAccepting s
  run_iff : ∀ i s, keep.members[i]? = some s → ∀ w j, e.run i w = some j ↔
    ∃ t, keep.members[j]? = some t ∧ d.run s w = some t ∧ d.StaysIn keep s w
  accepts_iff : ∀ w, e.accepts w = true ↔
    ∃ t, d.run d.start w = some t ∧ d.StaysIn keep d.start w ∧ d.isAccepting t = true

theorem WellFormed.restricts_restrict (hd : d.WellFormed) (hstart : d.start ∈ keep)
    (hkeep : ∀ s ∈ keep, s < d.size) : d.Restricts keep (d.restrict keep) where
  wellFormed := hd.restrict hstart
  alphabet_eq := rfl
  names_eq := by rw [members_eq_kept hkeep, toList_names_restrict]
  start := by
    rw [members_eq_kept hkeep]
    exact hd.getElem?_kept_start hstart
  isAccepting_eq i s hi := by
    rw [members_eq_kept hkeep] at hi
    exact isAccepting_restrict hi
  run_iff i s hi w j := by
    rw [members_eq_kept hkeep] at hi ⊢
    exact hd.run_restrict_iff hi
  accepts_iff _ := hd.acceptsFrom_restrict_iff (hd.getElem?_kept_start hstart)

/-- A restriction to states that contain the start, made in two passes, keeps exactly the runs among
    them. The search from the start finds the states that some word leads to, the search backwards
    those from which some word leads to an accepting state, and no word is lost by a restriction to
    the first, nor by one to the second if the start is among them. -/
theorem restrict_exact (hd : d.WellFormed) :
    (∀ keep : StateSet, d.start ∈ keep → (∀ s ∈ keep, s < d.size) →
      d.retained keep = d.restrict keep ∧ d.Restricts keep (d.restrict keep)) ∧
    (d.reached = some d.reachable ∧ ∀ s, s ∈ d.reachable ↔ ∃ w, d.run d.start w = some s) ∧
    (d.producing = some d.productive ∧
      ∀ s, s ∈ d.productive ↔ ∃ w t, d.run s w = some t ∧ d.isAccepting t = true) ∧
    (∀ w, (d.restrict d.reachable).accepts w = d.accepts w) ∧
    (d.start ∈ d.productive → ∀ w, (d.restrict d.productive).accepts w = d.accepts w) := by
  refine ⟨fun keep hstart hkeep => ⟨hd.retained_eq hstart hkeep, ?_⟩,
    ⟨hd.reached_eq, fun s => hd.mem_reachable_iff⟩, ⟨hd.producing_eq, fun s => ?_⟩,
    fun w => hd.accepts_restrict_reachable, fun hstart w => ?_⟩
  · exact hd.restricts_restrict hstart hkeep
  · simp only [hd.mem_productive_iff, acceptsFrom_iff]
  · exact hd.acceptsFrom_restrict_productive (hd.getElem?_kept_start hstart)

/-- A loop between the first and the third of four states. The second leads nowhere and the fourth
    is not reached; without the second state the third is numbered anew. -/
theorem restrict_exact_loop :
    let states := (((Dfa.new ⟨["a", "b"], by decide⟩ "p").addState "q").addState "r").addState "s"
    let d := ((((states.setMove 0 0 (some 2)).setMove 0 1 (some 1)).setMove 2 0 (some 0)).setMove
      3 0 (some 2)).setAccepting 2 true
    let keep := StateSet.ofList [0, 2, 3]
    d.WellFormed ∧ d.start ∈ keep ∧ (∀ s ∈ keep, s < d.size) ∧ d.start ∈ d.productive ∧
      (d.retained keep).names.toList = ["p", "r", "s"] ∧ (d.retained keep).move 1 0 = some 0 ∧
      d.reached = some (.ofList [0, 1, 2]) ∧ d.producing = some (.ofList [0, 2, 3]) ∧
      d.Restricts keep (d.restrict keep) ∧
      (∃ w, d.run d.start w = some 1) ∧ (∃ w t, d.run 3 w = some t ∧ d.isAccepting t = true) ∧
      (∀ w, (d.restrict d.reachable).accepts w = d.accepts w) ∧
      ∀ w, (d.restrict d.productive).accepts w = d.accepts w := by
  intro states d keep
  have hstates : states.WellFormed := ((wellFormed_new.addState _).addState _).addState _
  have htarget : ∀ t u : Nat, some t = some u → t < 4 → u < 4 := fun t u h ht =>
    Option.some.inj h ▸ ht
  have hd : d.WellFormed :=
    ((((hstates.setMove 0 0 fun t ht => htarget 2 t ht (by decide)).setMove 0 1
      fun t ht => htarget 1 t ht (by decide)).setMove 2 0
      fun t ht => htarget 0 t ht (by decide)).setMove 3 0
      fun t ht => htarget 2 t ht (by decide)).setAccepting (by decide) true
  have hlist : ∀ s ∈ [0, 2, 3], s < d.size := by decide
  have hkeep : ∀ s ∈ keep, s < d.size := fun s hs => hlist s (StateSet.mem_ofList.1 hs)
  obtain ⟨hrestrict, ⟨hreached, hreachable⟩, ⟨hproducing, hproductive⟩, hforward, hbackward⟩ :=
    restrict_exact hd
  obtain ⟨hretained, hruns⟩ := hrestrict keep (by decide) hkeep
  have hstart : d.start ∈ d.productive := by decide
  exact ⟨hd, by decide, hkeep, hstart, by decide, by decide, by decide, by decide, hruns,
    (hreachable 1).1 (by decide), (hproductive 3).1 (by decide), hforward, hbackward hstart⟩

end Dfa

end Acceptors
