import Mathlib.Logic.Relation
import Acceptors.Proofs.InRange
import Acceptors.Proofs.Nfa.EpsilonFree
import Acceptors.Proofs.Simulated
import Acceptors.Proofs.Stacked

/-!
# Epsilon moves are followed with a stack

The states to which epsilon moves lead from a set can be found with a stack. At first the states of
the set are met and on the stack. A state that is taken off has its epsilon moves looked up, and
each of their targets that is met for the first time is put on the stack. So every state is taken
off once at most, on circles of epsilon moves as well.

What is found is the closure of the set: the states to which the reflexive and transitive closure of
the epsilon moves leads. A state of it is found from a single state already, so that the closure of
a set is made of the closures of its states.

Results:
* `Nfa.path_nil_iff`: paths without symbols are chains of epsilon moves.
* `Nfa.WellFormed.followed?_eq`, `Nfa.WellFormed.followedEach?_eq`: the searches with a stack end
  and find the closures.
* `Nfa.WellFormed.closure_closure`, `Nfa.WellFormed.closure_union`,
  `Nfa.WellFormed.closure_eq_biUnion`: closures of closures and of unions.
* `Nfa.closure_exact`: all of it.
-/

namespace Acceptors

namespace Nfa

variable {n : Nfa} {X Y met : StateSet} {stack : List Nat} {steps s t : Nat}

/-! ## The loop -/

/-- `n.EpsilonMove s t`: the state `s` has an epsilon move to `t`. -/
def EpsilonMove (n : Nfa) (s t : Nat) : Prop := t ∈ n.epsilonTargets s

/-- Takes states off the stack and meets the targets of their epsilon moves until the stack is empty
    (the loop of `epsilon_closure`). There is no result if the steps do not suffice, or if there is
    no place where the moves of a state could be looked up. -/
def follow? (n : Nfa) : (steps : Nat) → (met : StateSet) → (stack : List Nat) → Option StateSet
  | _, met, [] => some met
  | 0, _, _ :: _ => none
  | steps + 1, met, s :: stack => do
    let targets ← n.epsilon[s]?
    let (met, stack) := targets.members.foldl Search.meet (met, stack)
    n.follow? steps met stack

/-- The states that are met from those of a set, of which the highest is on top of the stack
    (`epsilon_closure`). -/
def followed? (n : Nfa) (steps : Nat) (X : StateSet) : Option StateSet :=
  n.follow? steps X X.members.reverse

/-- The states that are met from each state alone, in the order of the states
    (`epsilon_closures`). -/
def followedEach? (n : Nfa) (steps : Nat) : Option (List StateSet) :=
  (List.range n.size).mapM fun s => n.followed? steps (.single s)

/-! ## Chains of epsilon moves -/

/-- A path without symbols is a chain of epsilon moves. -/
theorem path_nil_iff : n.Path s [] t ↔ Relation.ReflTransGen n.EpsilonMove s t := by
  constructor
  · intro hpath
    generalize hw : ([] : List String) = w at hpath
    induction hpath with
    | refl s => exact .refl
    | epsilon ht _ ih => exact .head ht (ih hw)
    | symbol => cases hw
  · intro hchain
    induction hchain using Relation.ReflTransGen.head_induction_on with
    | refl => exact .refl t
    | head ht _ ih => exact .epsilon ht ih

/-! ## What the loop finds -/

section

variable (hn : n.WellFormed)
include hn

/-- There is a place for the moves of every state that comes onto the stack. -/
theorem WellFormed.follow?_eq_walk (hstack : ∀ s ∈ stack, s < n.size) :
    n.follow? steps met stack =
      Search.walk (fun s => (n.epsilonTargets s).members) steps met stack := by
  induction steps generalizing met stack with
  | zero => cases stack <;> rfl
  | succ steps ih =>
    cases stack with
    | nil => rfl
    | cons s stack =>
      obtain ⟨hs, hstack⟩ := List.forall_mem_cons.1 hstack
      rw [follow?, Search.walk, hn.getElem?_epsilon hs]
      -- what is on the stack afterwards was there before, or is a target
      refine ih fun t ht => ?_
      rcases Search.mem_stack_foldl_meet.1 ht with ht | ⟨ht, -⟩
      · exact hstack t ht
      · exact hn.epsilonTargets_lt s t (StateSet.mem_members.1 ht)

/-- The loop ends after as many steps as there are states, and it finds the closure. -/
theorem WellFormed.followed?_eq (hX : ∀ s ∈ X, s < n.size) (hsteps : n.size ≤ steps) :
    n.followed? steps X = some (n.closure X) := by
  have hnext : ∀ s < n.size, ∀ t ∈ (n.epsilonTargets s).members, t < n.size := fun s _ t ht =>
    hn.epsilonTargets_lt s t (StateSet.mem_members.1 ht)
  have hstack : ∀ s ∈ X.members.reverse, s < n.size := fun s hs =>
    hX s (StateSet.mem_members.1 (List.mem_reverse.1 hs))
  rw [followed?, hn.follow?_eq_walk hstack]
  exact Search.walk_members_eq_reach hnext hX hsteps

/-- The loops from all states find the closures of all states. -/
theorem WellFormed.followedEach?_eq (hsteps : n.size ≤ steps) :
    n.followedEach? steps = some n.closures.toList := by
  have hlist : (List.range n.size).map (fun s => n.closure (.single s)) = n.closures.toList := by
    refine map_range_eq (by rw [Array.length_toList, size_closures]) fun s Y hY => ?_
    rw [Array.getElem?_toList] at hY
    have hs : s < n.size := n.size_closures ▸ (Array.getElem?_eq_some_iff.1 hY).1
    exact Option.some.inj ((getElem?_closures hs).symm.trans hY)
  rw [← hlist]
  refine mapM_eq_pure_map fun s hs => ?_
  exact hn.followed?_eq (StateSet.forall_mem_single.2 (List.mem_range.1 hs)) hsteps

/-! ## Laws -/

theorem WellFormed.closure_lt (hX : ∀ s ∈ X, s < n.size) : ∀ t ∈ n.closure X, t < n.size := by
  intro t ht
  obtain ⟨s, hs, hpath⟩ := (hn.mem_closure hX).1 ht
  exact hn.path_lt (hX s hs) hpath

theorem WellFormed.subset_closure (hX : ∀ s ∈ X, s < n.size) : ∀ s ∈ X, s ∈ n.closure X :=
  fun s hs => (hn.mem_closure hX).2 ⟨s, hs, .refl s⟩

theorem WellFormed.closure_mono (hY : ∀ s ∈ Y, s < n.size) (hsub : ∀ s ∈ X, s ∈ Y) :
    ∀ t ∈ n.closure X, t ∈ n.closure Y := by
  intro t ht
  obtain ⟨s, hs, hpath⟩ := (hn.mem_closure fun s hs => hY s (hsub s hs)).1 ht
  exact (hn.mem_closure hY).2 ⟨s, hsub s hs, hpath⟩

/-- A set that epsilon moves do not lead out of is its own closure. -/
theorem WellFormed.closure_eq_self (hX : ∀ s ∈ X, s < n.size) (hclosed : n.Closed X) :
    n.closure X = X := by
  apply StateSet.ext
  intro t
  constructor
  · intro ht
    obtain ⟨s, hs, hpath⟩ := (hn.mem_closure hX).1 ht
    exact hclosed s hs t hpath
  · exact hn.subset_closure hX t

theorem WellFormed.closure_closure (hX : ∀ s ∈ X, s < n.size) :
    n.closure (n.closure X) = n.closure X :=
  hn.closure_eq_self (hn.closure_lt hX) (hn.closed_closure hX)

theorem WellFormed.closure_union (hX : ∀ s ∈ X, s < n.size) (hY : ∀ s ∈ Y, s < n.size) :
    n.closure (X.union Y) = (n.closure X).union (n.closure Y) := by
  have hXY : ∀ s ∈ X.union Y, s < n.size := fun s hs =>
    (StateSet.mem_union.1 hs).elim (hX s) (hY s)
  apply StateSet.ext
  intro t
  simp only [StateSet.mem_union, hn.mem_closure hX, hn.mem_closure hY, hn.mem_closure hXY,
    or_and_right, exists_or]

/-- The closure of a set is made of the closures of its states. -/
theorem WellFormed.closure_eq_biUnion (hX : ∀ s ∈ X, s < n.size) :
    n.closure X = X.biUnion fun s => n.closures[s]?.getD ∅ := by
  apply StateSet.ext
  intro t
  rw [hn.mem_closure hX, StateSet.mem_biUnion]
  refine exists_congr fun s => and_congr_right fun hs => ?_
  rw [getElem?_closures (hX s hs), Option.getD_some, hn.mem_closure_single (hX s hs)]

end

/-- The loop that follows epsilon moves with a stack ends from every set of states, however the
    moves lead round in circles, and it finds the states to which zero or more epsilon moves lead
    from a state of the set. They include the set. A larger set has a larger closure, what is closed
    already stays as it is, and the closure of a union is the union of the closures; so the closure
    of a set is the union of the closures that the loop finds from each of its states alone. -/
theorem closure_exact (hn : n.WellFormed) :
    (∀ steps ≥ n.size, n.followedEach? steps = some n.closures.toList) ∧
      n.closures.size = n.size ∧
      ∀ X, (∀ s ∈ X, s < n.size) →
        (∀ steps ≥ n.size, n.followed? steps X = some (n.closure X)) ∧
        (∀ t, t ∈ n.closure X ↔ ∃ s ∈ X, Relation.ReflTransGen n.EpsilonMove s t) ∧
        (∀ s ∈ X, s ∈ n.closure X) ∧
        n.closure (n.closure X) = n.closure X ∧
        (n.closure X = X.biUnion fun s => n.closures[s]?.getD ∅) ∧
        ∀ Y, (∀ s ∈ Y, s < n.size) →
          ((∀ s ∈ X, s ∈ Y) → ∀ t ∈ n.closure X, t ∈ n.closure Y) ∧
          n.closure (X.union Y) = (n.closure X).union (n.closure Y) := by
  refine ⟨fun _ hsteps => hn.followedEach?_eq hsteps, n.size_closures, fun X hX => ?_⟩
  refine ⟨fun _ hsteps => hn.followed?_eq hX hsteps, fun t => ?_, hn.subset_closure hX,
    hn.closure_closure hX, hn.closure_eq_biUnion hX, fun Y hY => ⟨hn.closure_mono hY, ?_⟩⟩
  · simp only [hn.mem_closure hX, path_nil_iff]
  · exact hn.closure_union hX hY

/-- Two states that epsilon moves join in both directions, one of them with an epsilon move to
    itself, and a third state from which they are entered. -/
theorem closure_exact_circle :
    let states := ((new (.single "a") "p").addState "q").addState "r"
    let n := (((states.addEpsilon 0 1).addEpsilon 1 0).addEpsilon 1 1).addEpsilon 2 0
    let X := StateSet.single 2
    let Y := StateSet.single 1
    n.WellFormed ∧ n.followed? 3 X = some (.ofList [0, 1, 2]) ∧
      n.followedEach? 3 = some [.ofList [0, 1], .ofList [0, 1], .ofList [0, 1, 2]] ∧
      Relation.ReflTransGen n.EpsilonMove 2 1 ∧ (¬ Relation.ReflTransGen n.EpsilonMove 1 2) ∧
      n.closure (n.closure Y) = n.closure Y ∧
      n.closure (X.union Y) = (n.closure X).union (n.closure Y) := by
  intro states n X Y
  have hstates : states.WellFormed := (wellFormed_new.addState _).addState _
  have hcircle : ((states.addEpsilon 0 1).addEpsilon 1 0).WellFormed :=
    (hstates.addEpsilon 0 (by decide)).addEpsilon 1 (by decide)
  have hn : n.WellFormed := (hcircle.addEpsilon 1 (by decide)).addEpsilon 2 (by decide)
  obtain ⟨heach, -, hset⟩ := closure_exact hn
  have hX : ∀ s ∈ X, s < n.size := StateSet.forall_mem_single.2 (by decide)
  have hY : ∀ s ∈ Y, s < n.size := StateSet.forall_mem_single.2 (by decide)
  obtain ⟨hfollowed, hmem, -, -, -, hunion⟩ := hset X hX
  obtain ⟨-, hmemY, -, hagain, -⟩ := hset Y hY
  have hclosure : n.closure X = .ofList [0, 1, 2] := by decide
  have hclosures : n.closures.toList = [.ofList [0, 1], .ofList [0, 1], .ofList [0, 1, 2]] := by
    decide
  refine ⟨hn, hclosure ▸ hfollowed 3 (by decide), hclosures ▸ heach 3 (by decide), ?_, ?_, hagain,
    (hunion Y hY).2⟩
  · obtain ⟨s, hs, hchain⟩ := (hmem 1).1 (by decide)
    rwa [StateSet.mem_single.1 hs] at hchain
  · intro hchain
    have hnot : 2 ∉ n.closure Y := by decide
    exact hnot ((hmemY 2).2 ⟨1, StateSet.mem_single.2 rfl, hchain⟩)

end Nfa

end Acceptors
