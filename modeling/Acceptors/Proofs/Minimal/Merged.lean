import Acceptors.Minimal.Minimize
import Acceptors.Proofs.Dfa.Renumbered
import Acceptors.Proofs.Minimal.Roots
import Acceptors.Proofs.Minimal.Separated

/-!
# Merged states

The classes that the table leads to are the classes of states that accept the same words, and the
root of a class is its smallest member. A merged automaton has one state for each root. It moves
like the root, and as states of one class lead to states of one class, like every other member as
well. So its states accept the words of their members, and two of its states never accept the same
words.

Results:
* `Dfa.WellFormed.root_classes_eq_iff`: what the classes are.
* `Dfa.WellFormed.acceptsFrom_merge`, `Dfa.WellFormed.run_merge`: words and runs of merged states.
* `Dfa.WellFormed.separated_merge`: merged states can be told apart.
-/

namespace Acceptors

namespace Dfa

variable {d : Dfa} {s t i j : Nat} {a : String} {w : List String}

/-! ## The classes -/

/-- One step of the formation of the classes. -/
def uniteEquivalent (table : PairTable) (sets : DisjointSets) (pair : Nat × Nat) : DisjointSets :=
  if table.equivalent pair.1 pair.2 then sets.union pair.1 pair.2 else sets

/-- Classes of states that accept the same words. -/
structure Classes (d : Dfa) (sets : DisjointSets) : Prop where
  ordered : sets.Ordered
  size : sets.parent.size = d.size
  same : ∀ s < d.size, ∀ t < d.size, sets.root s = sets.root t → d.Same s t

theorem Classes.singletons : Classes d (.singletons d.size) := by
  refine ⟨DisjointSets.ordered_singletons d.size, Array.size_ofFn, fun s _ t _ h => ?_⟩
  rw [DisjointSets.root_singletons, DisjointSets.root_singletons] at h
  rw [h]
  exact fun _ => rfl

theorem Classes.same_root {sets : DisjointSets} (h : Classes d sets) (hs : s < d.size) :
    d.Same (sets.root s) s :=
  h.same _ (Nat.lt_of_le_of_lt (h.ordered.root_le s) hs) s hs (h.ordered.root_root s)

/-- To unite two states that accept the same words leaves classes of such states. -/
theorem Classes.union {sets : DisjointSets} (h : Classes d sets) (hs : s < d.size) (ht : t < d.size)
    (hsame : d.Same s t) : Classes d (sets.union s t) := by
  have hs' : s < sets.parent.size := h.size.symm ▸ hs
  have ht' : t < sets.parent.size := h.size.symm ▸ ht
  obtain ⟨hordered, hsize, -⟩ := h.ordered.union hs' ht'
  refine ⟨hordered, hsize.trans h.size, fun x hx y hy hxy => ?_⟩
  -- a state whose root is one of the two roots accepts what they accept
  have hclass : ∀ z < d.size, sets.root z = sets.root s ∨ sets.root z = sets.root t →
      d.Same z s := by
    rintro z hz (hzs | hzt)
    · exact h.same z hz s hs hzs
    · exact (h.same z hz t ht hzt).trans hsame.symm
  rcases h.ordered.root_eq_of_root_union hs' ht' hxy with hold | ⟨hx', hy'⟩
  · exact h.same x hx y hy hold
  · exact (hclass x hx hx').trans (hclass y hy hy').symm

/-- A step unites the states of a pair if the table says that they are equivalent, and separates no
    states. -/
theorem Classes.uniteEquivalent {table : PairTable} {sets : DisjointSets} (h : Classes d sets)
    (hs : s < d.size) (ht : t < d.size) (hsame : table.equivalent s t = true → d.Same s t) :
    Classes d (uniteEquivalent table sets (s, t)) ∧
      (∀ x y, sets.root x = sets.root y →
        (Dfa.uniteEquivalent table sets (s, t)).root x =
          (Dfa.uniteEquivalent table sets (s, t)).root y) ∧
      (table.equivalent s t = true →
        (Dfa.uniteEquivalent table sets (s, t)).root s =
          (Dfa.uniteEquivalent table sets (s, t)).root t) := by
  have hs' : s < sets.parent.size := h.size.symm ▸ hs
  have ht' : t < sets.parent.size := h.size.symm ▸ ht
  rw [Dfa.uniteEquivalent]
  split
  · next hequivalent =>
    exact ⟨h.union hs ht (hsame hequivalent), fun x y => h.ordered.root_union_congr hs' ht',
      fun _ => h.ordered.root_union_self hs' ht'⟩
  · next hnot => exact ⟨h, fun x y hxy => hxy, fun hequivalent => absurd hequivalent hnot⟩

/-- The classes after all pairs of a list, and which states they unite. -/
theorem Classes.unite_all {table : PairTable} {pairs : List (Nat × Nat)} {sets : DisjointSets}
    (h : Classes d sets)
    (hpairs : ∀ s t, (s, t) ∈ pairs → s < d.size ∧ t < d.size ∧
      (table.equivalent s t = true → d.Same s t)) :
    Classes d (pairs.foldl (Dfa.uniteEquivalent table) sets) ∧
      (∀ s t, sets.root s = sets.root t →
        (pairs.foldl (Dfa.uniteEquivalent table) sets).root s =
          (pairs.foldl (Dfa.uniteEquivalent table) sets).root t) ∧
      ∀ s t, (s, t) ∈ pairs → table.equivalent s t = true →
        (pairs.foldl (Dfa.uniteEquivalent table) sets).root s =
          (pairs.foldl (Dfa.uniteEquivalent table) sets).root t := by
  induction pairs generalizing sets with
  | nil => exact ⟨h, fun _ _ hst => hst, fun _ _ hmem => absurd hmem List.not_mem_nil⟩
  | cons pair pairs ih =>
    obtain ⟨a, b⟩ := pair
    obtain ⟨ha, hb, hsame⟩ := hpairs a b List.mem_cons_self
    obtain ⟨hstep, hkeeps, hunites⟩ := h.uniteEquivalent ha hb hsame
    obtain ⟨hall, hkeep, hunite⟩ :=
      ih hstep fun s t hmem => hpairs s t (List.mem_cons_of_mem _ hmem)
    refine ⟨hall, fun s t hst => hkeep s t (hkeeps s t hst), fun s t hmem hequivalent => ?_⟩
    rcases List.mem_cons.1 hmem with heq | hmem
    · obtain ⟨rfl, rfl⟩ := Prod.mk.inj heq
      exact hkeep s t (hunites hequivalent)
    · exact hunite s t hmem hequivalent

/-! ## The representatives -/

/-- The root of each state. -/
def roots (d : Dfa) : Array Nat := Array.ofFn fun s : Fin d.size => (d.classes.find s.val).1

/-- The smallest members of the classes, by the numbers of the merged states. -/
def smallest (d : Dfa) : List Nat := (List.range d.size).filter fun s => d.roots[s]? = some s

/-- The merged state `i` stands for the class of `s`. -/
def Stands (d : Dfa) (i s : Nat) : Prop := s < d.size ∧ d.smallest[i]? = some (d.classes.root s)

/-- The number of the merged state of a state's class. -/
def classOf (d : Dfa) (s : Nat) : Option Nat := d.roots[s]?.bind d.smallest.idxOf?

/-- The name of a merged state is made of the names of its members. -/
def mergedName (d : Dfa) (r : Nat) : String :=
  String.join (((List.range d.size).filter fun s => d.roots[s]? = some r).map d.name)

theorem merge_eq (d : Dfa) :
    d.merge = d.renumber (.ofList (d.smallest.map d.mergedName)) d.smallest d.classOf
      ((d.classOf d.start).getD 0) := rfl

theorem alphabet_merge : d.merge.alphabet = d.alphabet := rfl

theorem nodup_smallest : d.smallest.Nodup := List.nodup_range.filter _

theorem size_merge : d.merge.size = d.smallest.length := by
  show (StateNames.ofList _).size = _
  rw [StateNames.size_ofList, List.length_map]
  rfl

theorem getElem?_smallest_of_lt (hi : i < d.merge.size) : ∃ s, d.smallest[i]? = some s := by
  rw [size_merge] at hi
  exact ⟨_, List.getElem?_eq_getElem hi⟩

section Merge

variable (hd : d.WellFormed) (hcomplete : d.isComplete = true)

include hd hcomplete

theorem WellFormed.same_of_mem_pairs :
    ∀ s t, (s, t) ∈ PairTable.pairs d.size → s < d.size ∧ t < d.size ∧
      ((PairTable.fill d).equivalent s t = true → d.Same s t) := by
  intro s t hmem
  obtain ⟨hst, ht⟩ := PairTable.mem_pairs_iff.1 hmem
  have hs := Nat.lt_trans hst ht
  exact ⟨hs, ht, (PairTable.equivalent_fill_iff hd hcomplete hs ht).1⟩

theorem WellFormed.classes : Classes d d.classes :=
  (Classes.singletons.unite_all (hd.same_of_mem_pairs hcomplete)).1

/-- States are in one class if they accept the same words. -/
theorem WellFormed.root_classes_eq_iff (hs : s < d.size) (ht : t < d.size) :
    d.classes.root s = d.classes.root t ↔ d.Same s t := by
  obtain ⟨hclasses, -, hunites⟩ := Classes.singletons.unite_all (hd.same_of_mem_pairs hcomplete)
  refine ⟨hclasses.same s hs t ht, fun h => ?_⟩
  have hequivalent : ∀ {x y}, x < d.size → y < d.size → d.Same x y →
      (PairTable.fill d).equivalent x y = true := fun hx hy =>
    (PairTable.equivalent_fill_iff hd hcomplete hx hy).2
  rcases Nat.lt_trichotomy s t with hst | rfl | hts
  · exact hunites s t (PairTable.mem_pairs_iff.2 ⟨hst, ht⟩) (hequivalent hs ht h)
  · rfl
  · exact (hunites t s (PairTable.mem_pairs_iff.2 ⟨hts, hs⟩) (hequivalent ht hs h.symm)).symm

theorem WellFormed.root_classes_lt (hs : s < d.size) : d.classes.root s < d.size :=
  Nat.lt_of_le_of_lt ((hd.classes hcomplete).ordered.root_le s) hs

theorem WellFormed.getElem?_roots (hs : s < d.size) : d.roots[s]? = some (d.classes.root s) := by
  rw [← ((hd.classes hcomplete).ordered.find s).1]
  simp [roots, hs]

theorem WellFormed.mem_smallest_iff : s ∈ d.smallest ↔ s < d.size ∧ d.classes.root s = s := by
  rw [smallest, List.mem_filter, List.mem_range, decide_eq_true_eq]
  refine and_congr_right fun hs => ?_
  rw [hd.getElem?_roots hcomplete hs, Option.some.injEq]

/-- A merged state stands for its smallest member. -/
theorem WellFormed.stands_of_getElem? (hi : d.smallest[i]? = some s) : d.Stands i s := by
  obtain ⟨hs, hroot⟩ := (hd.mem_smallest_iff hcomplete).1 (List.mem_of_getElem? hi)
  exact ⟨hs, by rw [hroot]; exact hi⟩

/-- Every state has a merged state that stands for its class. -/
theorem WellFormed.exists_stands (hs : s < d.size) : ∃ i, d.Stands i s := by
  have hmem : d.classes.root s ∈ d.smallest := (hd.mem_smallest_iff hcomplete).2
    ⟨hd.root_classes_lt hcomplete hs, (hd.classes hcomplete).ordered.root_root s⟩
  obtain ⟨i, hi⟩ := List.mem_iff_getElem?.1 hmem
  exact ⟨i, hs, hi⟩

/-- Members of one class have one merged state. -/
theorem WellFormed.stands_of_same (h : d.Stands i s) (ht : t < d.size) (hsame : d.Same s t) :
    d.Stands i t := by
  refine ⟨ht, ?_⟩
  rw [← (hd.root_classes_eq_iff hcomplete h.1 ht).2 hsame]
  exact h.2

/-! ## The merged automaton -/

theorem WellFormed.classOf_eq_some_iff (hs : s < d.size) :
    d.classOf s = some i ↔ d.Stands i s := by
  rw [classOf, hd.getElem?_roots hcomplete hs, Option.bind_some,
    idxOf?_eq_some_iff_getElem? nodup_smallest, Stands, and_iff_right hs]

/-- A merged state moves like its smallest member. -/
theorem WellFormed.next_merge_eq_some_iff (hi : d.smallest[i]? = some s) :
    d.merge.next i a = some j ↔ ∃ t, d.next s a = some t ∧ d.Stands j t := by
  have hnext : d.merge.next i a = (d.next s a).bind d.classOf := by
    rw [merge_eq]
    exact next_renumber size_merge hi
  rw [hnext, Option.bind_eq_some_iff]
  refine exists_congr fun t => and_congr_right fun ht => ?_
  exact hd.classOf_eq_some_iff hcomplete (hd.next_lt ht)

omit hd hcomplete in
theorem isAccepting_merge (hi : d.smallest[i]? = some s) :
    d.merge.isAccepting i = d.isAccepting s := by
  rw [merge_eq]
  exact isAccepting_renumber hi

theorem WellFormed.stands_start : d.Stands d.merge.start d.start := by
  obtain ⟨i, hi⟩ := hd.exists_stands hcomplete hd.start_lt
  have hclass := (hd.classOf_eq_some_iff hcomplete hd.start_lt).2 hi
  show d.Stands ((d.classOf d.start).getD 0) d.start
  rwa [hclass]

theorem WellFormed.merge : d.merge.WellFormed := by
  rw [merge_eq]
  refine wellFormed_renumber size_merge ?_ fun t j hj => ?_
  · exact (List.getElem?_eq_some_iff.1 (hd.stands_start hcomplete).2).1
  · obtain ⟨r, -, hr⟩ := Option.bind_eq_some_iff.1 hj
    exact (List.getElem?_eq_some_iff.1 ((idxOf?_eq_some_iff_getElem? nodup_smallest).1 hr)).1

/-- A symbol leads a merged state and each of its members to a merged state and its member. -/
theorem WellFormed.next_merge (h : d.Stands i s) (ha : a ∈ d.alphabet) :
    ∃ j t, d.merge.next i a = some j ∧ d.next s a = some t ∧ d.Stands j t := by
  have hroot := hd.root_classes_lt hcomplete h.1
  obtain ⟨t, ht⟩ := hd.exists_next hcomplete h.1 ha
  obtain ⟨t', ht'⟩ := hd.exists_next hcomplete hroot ha
  obtain ⟨j, hj⟩ := hd.exists_stands hcomplete (hd.next_lt ht')
  have hsame : d.Same t' t := ((hd.classes hcomplete).same_root h.1).next ht' ht
  exact ⟨j, t, (hd.next_merge_eq_some_iff hcomplete h.2).2 ⟨t', ht', hj⟩, ht,
    hd.stands_of_same hcomplete hj (hd.next_lt ht) hsame⟩

/-- A run of the automaton is followed by a run of the merged one. -/
theorem WellFormed.run_merge (h : d.Stands i s) (hrun : d.run s w = some t) :
    ∃ j, d.merge.run i w = some j ∧ d.Stands j t := by
  induction w generalizing i s with
  | nil =>
    cases hrun
    exact ⟨i, rfl, h⟩
  | cons a w ih =>
    rw [run_cons, Option.bind_eq_some_iff] at hrun
    obtain ⟨s', hs', hrun⟩ := hrun
    obtain ⟨k, s'', hk, hs'', hstands⟩ := hd.next_merge hcomplete h (mem_alphabet_of_next hs')
    obtain rfl : s'' = s' := Option.some.inj (hs''.symm.trans hs')
    obtain ⟨j, hj, ht⟩ := ih hstands hrun
    refine ⟨j, ?_, ht⟩
    rw [run_cons, hk]
    exact hj

/-- A merged state accepts the words of its members. -/
theorem WellFormed.acceptsFrom_merge (h : d.Stands i s) :
    d.merge.acceptsFrom i w = d.acceptsFrom s w := by
  refine acceptsFrom_eq_of_simulation (R := d.Stands) ?_ ?_ h
  · intro i s h
    rw [isAccepting_merge h.2]
    exact (hd.classes hcomplete).same_root h.1 []
  · intro i s h a
    by_cases ha : a ∈ d.alphabet
    · exact .inl (hd.next_merge hcomplete h ha |>.elim fun j hj => hj.elim fun t ht => ⟨j, t, ht⟩)
    · exact .inr ⟨fun t ht => absurd (mem_alphabet_of_next ht) ha,
        fun t ht => absurd (mem_alphabet_of_next ht) ha⟩

/-- Any two merged states are separated by some word. -/
theorem WellFormed.separated_merge (hi : i < d.merge.size) (hj : j < d.merge.size) (hne : i ≠ j) :
    d.merge.Separated i j := by
  obtain ⟨s, hs⟩ := getElem?_smallest_of_lt hi
  obtain ⟨t, ht⟩ := getElem?_smallest_of_lt hj
  have his := hd.stands_of_getElem? hcomplete hs
  have hjt := hd.stands_of_getElem? hcomplete ht
  by_contra hnot
  have hsame : d.Same s t := by
    intro w
    rw [← hd.acceptsFrom_merge hcomplete his, ← hd.acceptsFrom_merge hcomplete hjt]
    exact not_separated_iff.1 hnot w
  have his' := hd.stands_of_same hcomplete his hjt.1 hsame
  exact hne (eq_of_getElem?_eq_some nodup_smallest his'.2 hjt.2)

end Merge

end Dfa

end Acceptors
