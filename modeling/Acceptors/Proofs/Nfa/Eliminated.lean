import Acceptors.Proofs.Dfa.Copied

/-!
# Epsilon moves eliminated one move at a time

The automaton without epsilon moves is filled all at once. It can also be made step by step: the
states are entered again under their names, and then, for each state and each symbol, a move is
added to every state in the closure of a target of a state in the closure. Most of these moves are
added many times over.

The names are distinct already, so that none is changed on the way, and what the loops add to a cell
are the targets that the cell has in the end.

Results:
* `Nfa.WellFormed.mem_reachedOn`: what the three inner loops add to a cell.
* `Nfa.WellFormed.eliminated_eq`: the loops make the automaton without epsilon moves.
-/

namespace Acceptors

namespace Nfa

variable {n e : Nfa} {s t c : Nat}

/-! ## The loops -/

/-- Adds moves to what the targets of a member of the closure close to: the two innermost loops of
    `eliminate_epsilon`. -/
def eliminateMember (n : Nfa) (closures : Array StateSet) (s c : Nat) (e : Nfa) (member : Nat) :
    Nfa :=
  (n.targets member c).members.foldl
    (fun e target => (closures[target]?.getD ∅).members.foldl
      (fun e reached => e.addMove s c reached) e) e

/-- Goes through the closure of a state, for the symbol of a column. -/
def eliminateColumn (n : Nfa) (closures : Array StateSet) (s : Nat) (e : Nfa) (c : Nat) : Nfa :=
  (closures[s]?.getD ∅).members.foldl (n.eliminateMember closures s c) e

/-- Adds the moves of a state on all symbols, and has it accept if its closure does: the body of the
    outer loop of `eliminate_epsilon`. -/
def eliminateState (n : Nfa) (closures : Array StateSet) (e : Nfa) (s : Nat) : Nfa :=
  let e := (List.range n.alphabet.size).foldl (n.eliminateColumn closures s) e
  if n.anyAccepting (closures[s]?.getD ∅) then e.setAccepting s true else e

/-- The automaton without epsilon moves, made state by state (`eliminate_epsilon`). -/
def eliminated (n : Nfa) : Nfa :=
  (List.range n.size).foldl (n.eliminateState n.closures)
    ((ofNames n.alphabet n.names).setStart n.start)

/-! ## What is added to a cell -/

/-- The targets that are added for a state and a column, in the order of the loops. -/
def reachedOn (n : Nfa) (closures : Array StateSet) (s c : Nat) : List Nat :=
  (closures[s]?.getD ∅).members.flatMap fun member =>
    (n.targets member c).members.flatMap fun target => (closures[target]?.getD ∅).members

theorem eliminateColumn_eq (closures : Array StateSet) :
    n.eliminateColumn closures s e c = e.addMoves s c (n.reachedOn closures s c) := by
  unfold addMoves reachedOn
  simp only [List.foldl_flatMap]
  rfl

/-- What is added to a cell are its targets after the elimination. -/
theorem WellFormed.mem_reachedOn (hn : n.WellFormed) (hs : s < n.size) (hc : c < n.alphabet.size) :
    t ∈ n.reachedOn n.closures s c ↔ t ∈ n.eliminateEpsilon.targets s c := by
  have hclosure : ∀ u < n.size, n.closures[u]?.getD ∅ = n.closure (.single u) := by
    intro u hu
    rw [getElem?_closures hu, Option.getD_some]
  rw [targets_eliminateEpsilon hn hs hc, reachedOn, hclosure s hs]
  simp only [List.mem_flatMap, StateSet.mem_members, StateSet.mem_biUnion, step]
  constructor
  · rintro ⟨r, hr, u, hu, ht⟩
    rw [hclosure u (hn.targets_lt r c u hu)] at ht
    exact ⟨u, ⟨r, hr, hu⟩, ht⟩
  · rintro ⟨u, ⟨r, hr, hu⟩, ht⟩
    rw [← hclosure u (hn.targets_lt r c u hu)] at ht
    exact ⟨r, hr, u, hu, ht⟩

/-- A state accepts after the elimination if its closure does. -/
theorem isAccepting_eliminateEpsilon (hs : s < n.size) :
    n.eliminateEpsilon.isAccepting s = n.anyAccepting (n.closures[s]?.getD ∅) := by
  rw [Bool.eq_iff_iff]
  exact StateSet.mem_below.trans (and_iff_right hs)

/-! ## The automaton they make -/

/-- Nothing changes the start state on the way. -/
theorem start_eliminateState (closures : Array StateSet) :
    (n.eliminateState closures e s).start = e.start := by
  have hcolumns : ((List.range n.alphabet.size).foldl
      (n.eliminateColumn closures s) e).start = e.start := by
    refine List.foldlRecOn (motive := fun m : Nfa => m.start = e.start) _ _ rfl fun m hm c _ => ?_
    rw [eliminateColumn_eq, addMoves_eq]
    exact hm
  unfold eliminateState
  split
  · exact hcolumns
  · exact hcolumns

/-- Elimination state by state, each move added as it is found, makes the automaton without epsilon
    moves. -/
theorem WellFormed.eliminated_eq (hn : n.WellFormed) : n.eliminated = n.eliminateEpsilon := by
  have he := hn.eliminateEpsilon
  have hstates : n.eliminateEpsilon.CopiedTo ∅ ∅ (ofNames n.alphabet n.names) := he.copiedTo_ofNames
  have hblank : n.eliminateEpsilon.CopiedTo ∅ ∅ ((ofNames n.alphabet n.names).setStart n.start) :=
    { hstates with wellFormed := hstates.wellFormed.setStart (hstates.size_eq ▸ hn.start_lt) }
  have hcolumn : ∀ cells states m s c, s < n.size → c < n.alphabet.size →
      n.eliminateEpsilon.CopiedTo cells states m →
      n.eliminateEpsilon.CopiedTo (insert (s, c) cells) states
        (n.eliminateColumn n.closures s m c) := by
    intro cells states m s c hs hc h
    rw [eliminateColumn_eq]
    exact h.addMoves he fun t => hn.mem_reachedOn hs hc
  have haccept : ∀ cells states m s, s < n.size → n.eliminateEpsilon.CopiedTo cells states m →
      n.eliminateEpsilon.CopiedTo cells (insert s states)
        (if n.anyAccepting (n.closures[s]?.getD ∅) then m.setAccepting s true else m) := by
    intro cells states m s hs h
    rw [← isAccepting_eliminateEpsilon hs]
    exact h.insertAccepting hs
  have htable := foldl_table hblank hcolumn haccept
  have hstart : n.eliminated.start = n.start :=
    List.foldlRecOn (motive := fun m : Nfa => m.start = n.start) _ _ rfl
      fun m hm s _ => (start_eliminateState n.closures).trans hm
  calc n.eliminated = n.eliminated.setStart n.start := by
        rw [← hstart]
        rfl
    _ = n.eliminateEpsilon :=
        htable.setStart_eq he fun _ _ => not_mem_epsilonTargets_eliminateEpsilon

/-- Two states that epsilon moves join in both directions, each with a move to itself: every move is
    added twice. -/
example :
    let states := (((new (.single "a") "p").addState "q").addEpsilon 0 1).addEpsilon 1 0
    let n := (states.addMove 0 0 0).addMove 1 0 1
    n.reachedOn n.closures 0 0 = [0, 1, 0, 1] ∧ n.eliminated = n.eliminateEpsilon := by
  decide

end Nfa

end Acceptors
