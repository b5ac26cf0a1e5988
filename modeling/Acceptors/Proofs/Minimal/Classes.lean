import Acceptors.Proofs.Minimal.Minimized

/-!
# Classes of states that accept the same words

The states that words reach fall into classes of states that accept the same words. The classes come
in the order of their smallest members. The restriction to the states that are reached gives new
numbers to the states in their old order, and so it keeps the classes, their order and their names.
Merging keeps the smallest member of each class: the merged states are the classes in order, and
they get the names of their members, one after the other.

Results:
* `Dfa.wordClasses`: the classes in order.
* `Dfa.WellFormed.wordClasses_eq_map`, `Dfa.WellFormed.map_joinedName_eq`: restriction.
* `Dfa.WellFormed.wordClasses_eq_map_merge`, `Dfa.WellFormed.names_merge`: merging.
-/

namespace Acceptors

namespace Dfa

variable {d : Dfa} {i s t : Nat} {members : List Nat} {words : List String → Bool}

/-! ## Classes -/

/-- Some word leads from the start to the state. -/
def Reached (d : Dfa) (s : Nat) : Prop := ∃ w, d.run d.start w = some s

open Classical in
/-- The states that are reached, in order. -/
noncomputable def reachedStates (d : Dfa) : List Nat :=
  (List.range d.size).filter fun s => d.Reached s

open Classical in
/-- The states that are reached and accept the given words and no others, in order. -/
noncomputable def statesFor (d : Dfa) (words : List String → Bool) : List Nat :=
  d.reachedStates.filter fun s => d.acceptsFrom s = words

open Classical in
/-- The states that are reached and accept other words than the reached states before them. -/
noncomputable def firstStates (d : Dfa) : List Nat :=
  d.reachedStates.filter fun s =>
    ∀ r ∈ d.reachedStates, r < s → d.acceptsFrom r ≠ d.acceptsFrom s

/-- The reached states in classes of those that accept the same words, by smallest members. -/
noncomputable def wordClasses (d : Dfa) : List (List Nat) :=
  d.firstStates.map fun s => d.statesFor (d.acceptsFrom s)

/-- The names of some states, one after the other. -/
def joinedName (d : Dfa) (members : List Nat) : String := String.join (members.map d.name)

theorem WellFormed.lt_of_reached (hd : d.WellFormed) (hs : d.Reached s) : s < d.size := by
  obtain ⟨w, hw⟩ := hs
  exact hd.run_lt hd.start_lt hw

theorem same_iff : d.Same s t ↔ d.acceptsFrom s = d.acceptsFrom t := funext_iff.symm

open Classical in
theorem WellFormed.mem_reachedStates_iff (hd : d.WellFormed) :
    s ∈ d.reachedStates ↔ d.Reached s := by
  rw [reachedStates, List.mem_filter, List.mem_range, decide_eq_true_eq]
  exact and_iff_right_of_imp hd.lt_of_reached

open Classical in
theorem WellFormed.mem_statesFor_iff (hd : d.WellFormed) :
    s ∈ d.statesFor words ↔ d.Reached s ∧ d.acceptsFrom s = words := by
  rw [statesFor, List.mem_filter, hd.mem_reachedStates_iff, decide_eq_true_eq]

/-- Every class has members. -/
theorem WellFormed.exists_mem_of_mem_wordClasses (hd : d.WellFormed)
    (h : members ∈ d.wordClasses) : ∃ s, s ∈ members := by
  obtain ⟨s, hs, rfl⟩ := List.mem_map.1 h
  have hreached := hd.mem_reachedStates_iff.1 (List.mem_of_mem_filter hs)
  exact ⟨s, hd.mem_statesFor_iff.2 ⟨hreached, rfl⟩⟩

theorem pairwise_statesFor : (d.statesFor words).Pairwise (· < ·) :=
  (List.pairwise_lt_range.filter _).filter _

/-! ## Restriction -/

open Classical in
theorem reachedStates_eq_range (h : d.AllReached) :
    d.reachedStates = List.range d.size :=
  List.filter_eq_self.2 fun s hs => decide_eq_true (h s (List.mem_range.1 hs))

section Reachable

variable (hd : d.WellFormed)

include hd

theorem WellFormed.reachedStates_restrict :
    (d.restrict d.reachable).reachedStates = List.range (d.restrict d.reachable).size :=
  reachedStates_eq_range hd.allReached_restrict_reachable

open Classical in
theorem WellFormed.reachedStates_eq_map :
    d.reachedStates =
      (d.restrict d.reachable).reachedStates.map (d.oldState d.reachable) := by
  rw [hd.reachedStates_restrict, ← kept_eq_map]
  refine List.filter_congr fun s _ => ?_
  exact Bool.eq_iff_iff.2 (decide_eq_true_iff.trans hd.mem_reachable_iff.symm)

theorem WellFormed.acceptsFrom_oldState (hi : i < (d.restrict d.reachable).size) :
    d.acceptsFrom (d.oldState d.reachable i) = (d.restrict d.reachable).acceptsFrom i :=
  funext fun _ => (hd.acceptsFrom_restrict_reachable (getElem?_kept_oldState hi)).symm

/-- The restriction to the states that are reached keeps the states for some words. -/
theorem WellFormed.statesFor_eq_map :
    d.statesFor words =
      ((d.restrict d.reachable).statesFor words).map (d.oldState d.reachable) := by
  rw [statesFor, hd.reachedStates_eq_map, List.filter_map]
  refine congrArg _ (List.filter_congr fun i hi => ?_)
  rw [hd.reachedStates_restrict, List.mem_range] at hi
  rw [Function.comp_apply, hd.acceptsFrom_oldState hi]

/-- The restriction to the states that are reached keeps the smallest members of the classes. -/
theorem WellFormed.firstStates_eq_map :
    d.firstStates = (d.restrict d.reachable).firstStates.map (d.oldState d.reachable) := by
  rw [firstStates, hd.reachedStates_eq_map, List.filter_map]
  refine congrArg _ (List.filter_congr fun i hi => ?_)
  rw [hd.reachedStates_restrict] at hi ⊢
  rw [Function.comp_apply, decide_eq_decide, List.forall_mem_map]
  refine forall₂_congr fun j hj => ?_
  rw [List.mem_range] at hi hj
  rw [oldState_lt_iff hj hi, hd.acceptsFrom_oldState hi, hd.acceptsFrom_oldState hj]

/-- The restriction to the states that are reached keeps the classes and their order. -/
theorem WellFormed.wordClasses_eq_map :
    d.wordClasses =
      (d.restrict d.reachable).wordClasses.map (List.map (d.oldState d.reachable)) := by
  rw [wordClasses, hd.firstStates_eq_map, List.map_map, wordClasses, List.map_map]
  refine List.map_congr_left fun i hi => ?_
  have hlt : i < (d.restrict d.reachable).size := by
    have hmem := List.mem_of_mem_filter hi
    rwa [hd.reachedStates_restrict, List.mem_range] at hmem
  rw [Function.comp_apply, Function.comp_apply, hd.acceptsFrom_oldState hlt, hd.statesFor_eq_map]

/-- The restriction to the states that are reached keeps the names of the classes. -/
theorem WellFormed.map_joinedName_eq :
    d.wordClasses.map d.joinedName =
      (d.restrict d.reachable).wordClasses.map (d.restrict d.reachable).joinedName := by
  rw [hd.wordClasses_eq_map, List.map_map]
  refine List.map_congr_left fun members hmembers => ?_
  obtain ⟨s, -, rfl⟩ := List.mem_map.1 hmembers
  rw [Function.comp_apply, joinedName, joinedName, List.map_map]
  refine congrArg String.join (List.map_congr_left fun i hi => ?_)
  have hreached := (hd.restrict hd.start_mem_reachable).mem_statesFor_iff.1 hi
  have hlt := (hd.restrict hd.start_mem_reachable).lt_of_reached hreached.1
  exact (name_restrict (getElem?_kept_oldState hlt)).symm

end Reachable

/-! ## Merging -/

/-- The members of the class with the given root. -/
def membersOf (d : Dfa) (r : Nat) : List Nat :=
  (List.range d.size).filter fun s => d.roots[s]? = some r

section Merge

variable (hd : d.WellFormed) (hcomplete : d.isComplete = true) (hreached : d.AllReached)

include hd hcomplete

/-- A root is a state that accepts other words than the states before it. -/
theorem WellFormed.root_eq_self_iff (hs : s < d.size) :
    d.classes.root s = s ↔ ∀ r < s, ¬ d.Same r s := by
  have hroot := (hd.classes hcomplete).ordered.root_le
  constructor
  · intro h r hr hsame
    rw [← hd.root_classes_eq_iff hcomplete (Nat.lt_trans hr hs) hs, h] at hsame
    exact absurd (hroot r) (by omega)
  · intro h
    refine Nat.le_antisymm (hroot s) (Nat.not_lt.1 fun hlt => ?_)
    exact h _ hlt ((hd.classes hcomplete).same_root hs)

include hreached

/-- Merging keeps the smallest members of the classes. -/
theorem WellFormed.firstStates_eq_smallest : d.firstStates = d.smallest := by
  rw [firstStates, reachedStates_eq_range hreached]
  refine List.filter_congr fun s hs => ?_
  rw [List.mem_range] at hs
  rw [decide_eq_decide, hd.getElem?_roots hcomplete hs, Option.some.injEq,
    hd.root_eq_self_iff hcomplete hs]
  simp only [same_iff, List.mem_range]
  exact ⟨fun h r hr => h r (Nat.lt_trans hr hs) hr, fun h r _ hr => h r hr⟩

theorem WellFormed.membersOf_eq_statesFor (hs : s ∈ d.smallest) :
    d.membersOf s = d.statesFor (d.acceptsFrom s) := by
  obtain ⟨hlt, hroot⟩ := (hd.mem_smallest_iff hcomplete).1 hs
  rw [statesFor, reachedStates_eq_range hreached]
  refine List.filter_congr fun t ht => ?_
  rw [List.mem_range] at ht
  rw [decide_eq_decide, hd.getElem?_roots hcomplete ht, Option.some.injEq, ← same_iff,
    ← hd.root_classes_eq_iff hcomplete ht hlt, hroot]

/-- Merging names the classes in turn. -/
theorem WellFormed.names_merge : d.merge.names = .ofList (d.wordClasses.map d.joinedName) := by
  show StateNames.ofList (d.smallest.map d.mergedName) = _
  rw [wordClasses, hd.firstStates_eq_smallest hcomplete hreached, List.map_map]
  refine congrArg _ (List.map_congr_left fun s hs => ?_)
  show d.joinedName (d.membersOf s) = d.joinedName (d.statesFor (d.acceptsFrom s))
  rw [hd.membersOf_eq_statesFor hcomplete hreached hs]

/-- The merged states are the classes in order. -/
theorem WellFormed.wordClasses_eq_map_merge :
    d.wordClasses = (List.range d.merge.size).map fun i => d.statesFor (d.merge.acceptsFrom i) := by
  rw [wordClasses, hd.firstStates_eq_smallest hcomplete hreached]
  refine (map_range_eq (by rw [List.length_map, size_merge]) fun i members hi => ?_).symm
  rw [List.getElem?_map, Option.map_eq_some_iff] at hi
  obtain ⟨s, hs, rfl⟩ := hi
  have hwords : d.merge.acceptsFrom i = d.acceptsFrom s :=
    funext fun _ => hd.acceptsFrom_merge hcomplete (hd.stands_of_getElem? hcomplete hs)
  rw [hwords]

end Merge

end Dfa

end Acceptors
