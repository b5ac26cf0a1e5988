/-!
# Sets of states

States are numbers, and a finite set of them is kept as the number whose binary digits say which
states are in. Two sets with the same members are therefore the same value.

Results:
* `StateSet.ext`: a set is determined by its members.
* `StateSet.mem_insert`, `mem_erase`, `mem_union`, `mem_shift`, `mem_ofList`, `mem_biUnion`: what is
  in a set that an operation makes.
* `StateSet.mem_members`: the list of members holds the members, in ascending order
  (`StateSet.members_pairwise`).
-/

namespace Acceptors

/-- A finite set of states: state `s` is in exactly when binary digit `s` is one. -/
structure StateSet where
  /-- The number whose binary digits are the membership tests. -/
  bits : Nat
  deriving DecidableEq

namespace StateSet

/-- Whether a state is in. -/
def contains (X : StateSet) (s : Nat) : Bool := X.bits.testBit s

instance : Membership Nat StateSet := ⟨fun X s => X.contains s = true⟩

instance (s : Nat) (X : StateSet) : Decidable (s ∈ X) :=
  inferInstanceAs (Decidable (X.contains s = true))

instance : EmptyCollection StateSet := ⟨⟨0⟩⟩

/-- The set of one state. -/
def single (s : Nat) : StateSet := ⟨1 <<< s⟩

/-- The states of either set. Most sets that are united with a growing one are empty, and these are
passed over. -/
def union (X Y : StateSet) : StateSet := if Y.bits = 0 then X else ⟨X.bits ||| Y.bits⟩

/-- The states of both sets. -/
def inter (X Y : StateSet) : StateSet := ⟨X.bits &&& Y.bits⟩

/-- The set with a state put in. -/
def insert (X : StateSet) (s : Nat) : StateSet := X.union (single s)

/-- The set with a state taken out. -/
def erase (X : StateSet) (s : Nat) : StateSet := ⟨X.bits ^^^ (X.inter (single s)).bits⟩

/-- Every state moved up by `k`. -/
def shift (X : StateSet) (k : Nat) : StateSet := if X.bits = 0 then X else ⟨X.bits <<< k⟩

/-- Whether no state is in. -/
def isEmpty (X : StateSet) : Bool := X.bits == 0

/-- Whether two sets share a state. -/
def meets (X Y : StateSet) : Bool := !(X.inter Y).isEmpty

/-- Lists the binary digits of a number that are one, in ascending order, before a list. The highest
one is taken off first, in as many steps as there are ones, but in at most the given number. -/
def onesBefore : (steps : Nat) → (bits : Nat) → List Nat → List Nat
  | 0, _, rest => rest
  | steps + 1, bits, rest =>
    if bits = 0 then rest
    else onesBefore steps (bits ^^^ (1 <<< bits.log2)) (bits.log2 :: rest)

/-- The members in ascending order. -/
def members (X : StateSet) : List Nat := onesBefore (X.bits.log2 + 1) X.bits []

/-- The states of a list. -/
def ofList (l : List Nat) : StateSet := l.foldl insert ∅

/-- The states below `n` for which a test holds. -/
def below (n : Nat) (test : Nat → Bool) : StateSet := ofList ((List.range n).filter test)

/-- The states that the sets of some listed states contain. -/
def unionOver (l : List Nat) (f : Nat → StateSet) : StateSet :=
  l.foldl (fun X s => X.union (f s)) ∅

/-- The states that some member's set contains. -/
def biUnion (X : StateSet) (f : Nat → StateSet) : StateSet := unionOver X.members f

/-! ## Membership -/

theorem mem_iff {X : StateSet} {s : Nat} : s ∈ X ↔ X.bits.testBit s = true := Iff.rfl

/-- A set is determined by its members. -/
theorem ext {X Y : StateSet} (h : ∀ s, s ∈ X ↔ s ∈ Y) : X = Y := by
  cases X
  cases Y
  congr 1
  exact Nat.eq_of_testBit_eq fun i => Bool.eq_iff_iff.2 (h i)

theorem not_mem_empty (s : Nat) : s ∉ (∅ : StateSet) := by
  simp [mem_iff, EmptyCollection.emptyCollection]

theorem mem_single {s t : Nat} : s ∈ single t ↔ s = t := by
  simp only [mem_iff, single, Nat.testBit_shiftLeft, Nat.testBit_one_eq_true_iff_self_eq_zero,
    Bool.and_eq_true, decide_eq_true_eq]
  omega

/-- What holds of every member of the set of one state is what holds of this state. -/
theorem forall_mem_single {P : Nat → Prop} {s : Nat} : (∀ t ∈ single s, P t) ↔ P s := by
  simp only [mem_single, forall_eq]

theorem mem_union {X Y : StateSet} {s : Nat} : s ∈ X.union Y ↔ s ∈ X ∨ s ∈ Y := by
  rw [union]
  split
  · next h => simp [mem_iff, h]
  · simp [mem_iff, Nat.testBit_or]

theorem mem_inter {X Y : StateSet} {s : Nat} : s ∈ X.inter Y ↔ s ∈ X ∧ s ∈ Y := by
  simp [mem_iff, inter, Nat.testBit_and]

theorem mem_insert {X : StateSet} {s t : Nat} : s ∈ X.insert t ↔ s ∈ X ∨ s = t := by
  rw [insert, mem_union, mem_single]

theorem mem_erase {X : StateSet} {s t : Nat} : s ∈ X.erase t ↔ s ∈ X ∧ s ≠ t := by
  have h : s ∈ X.inter (single t) ↔ s ∈ X ∧ s = t := by rw [mem_inter, mem_single]
  simp only [mem_iff, erase, Nat.testBit_xor] at *
  cases hx : X.bits.testBit s <;> cases hy : (X.inter (single t)).bits.testBit s <;>
    simp_all

theorem mem_shift {X : StateSet} {s k : Nat} : s ∈ X.shift k ↔ k ≤ s ∧ s - k ∈ X := by
  rw [shift]
  split
  · next h => simp [mem_iff, h]
  · simp [mem_iff, Nat.testBit_shiftLeft]

theorem isEmpty_iff {X : StateSet} : X.isEmpty = true ↔ ∀ s, s ∉ X := by
  constructor
  · intro h s hs
    have h0 : X.bits = 0 := by simpa [isEmpty] using h
    simp [mem_iff, h0] at hs
  · intro h
    have : X = ∅ := ext fun s => iff_of_false (h s) (not_mem_empty s)
    subst this
    rfl

theorem meets_iff {X Y : StateSet} : X.meets Y = true ↔ ∃ s, s ∈ X ∧ s ∈ Y := by
  constructor
  · intro h
    have h' : ¬ ∀ s, s ∉ X.inter Y := fun hn => by
      simp [meets, isEmpty_iff.2 hn] at h
    obtain ⟨s, hs⟩ := Classical.not_forall.1 h'
    exact ⟨s, mem_inter.1 (Classical.not_not.1 hs)⟩
  · rintro ⟨s, hx, hy⟩
    cases he : (X.inter Y).isEmpty
    · simp [meets, he]
    · exact absurd (mem_inter.2 ⟨hx, hy⟩) (isEmpty_iff.1 he s)

/-- Taking off the highest one leaves the other digits. -/
theorem testBit_xor_log2 {bits s : Nat} (h : bits ≠ 0) :
    (bits ^^^ (1 <<< bits.log2)).testBit s = true ↔ bits.testBit s = true ∧ s ≠ bits.log2 := by
  rw [Nat.one_shiftLeft, Nat.testBit_xor, Nat.testBit_two_pow]
  by_cases hs : s = bits.log2
  · subst hs
    simp [Nat.testBit_log2 h]
  · have hs' : ¬ bits.log2 = s := fun e => hs e.symm
    simp [hs, hs']

theorem le_log2_of_testBit {bits s : Nat} (h : bits.testBit s = true) : s ≤ bits.log2 := by
  have hle : 2 ^ s ≤ bits := Nat.ge_two_pow_of_testBit h
  have hpos : 0 < 2 ^ s := Nat.two_pow_pos s
  exact (Nat.le_log2 (by omega)).2 hle

/-- The other digits that are one are lower. -/
theorem lt_log2_of_testBit_xor {bits s : Nat} (h : bits ≠ 0)
    (hs : (bits ^^^ (1 <<< bits.log2)).testBit s = true) : s < bits.log2 := by
  obtain ⟨hbit, hne⟩ := (testBit_xor_log2 h).1 hs
  exact Nat.lt_of_le_of_ne (le_log2_of_testBit hbit) hne

theorem mem_onesBefore {steps bits s : Nat} {rest : List Nat}
    (h : ∀ s, bits.testBit s = true → s < steps) :
    s ∈ onesBefore steps bits rest ↔ bits.testBit s = true ∨ s ∈ rest := by
  induction steps generalizing bits rest with
  | zero => exact (or_iff_right fun hs => Nat.not_lt_zero s (h s hs)).symm
  | succ steps ih =>
    rw [onesBefore]
    split
    · next h0 =>
      subst h0
      simp
    · next h0 =>
      have hlog : bits.log2 ≤ steps := Nat.le_of_lt_succ (h _ (Nat.testBit_log2 h0))
      rw [ih fun s hs => Nat.lt_of_lt_of_le (lt_log2_of_testBit_xor h0 hs) hlog,
        testBit_xor_log2 h0, List.mem_cons]
      by_cases hs : s = bits.log2
      · subst hs
        simp [Nat.testBit_log2 h0]
      · simp [hs]

theorem onesBefore_pairwise {steps bits : Nat} {rest : List Nat} (hrest : rest.Pairwise (· < ·))
    (hlt : ∀ r ∈ rest, ∀ s, bits.testBit s = true → s < r) :
    (onesBefore steps bits rest).Pairwise (· < ·) := by
  induction steps generalizing bits rest with
  | zero => exact hrest
  | succ steps ih =>
    rw [onesBefore]
    split
    · exact hrest
    · next h0 =>
      apply ih
      · exact List.pairwise_cons.2 ⟨fun r hr => hlt r hr _ (Nat.testBit_log2 h0), hrest⟩
      · intro r hr s hs
        rcases List.mem_cons.1 hr with rfl | hr
        · exact lt_log2_of_testBit_xor h0 hs
        · exact hlt r hr s ((testBit_xor_log2 h0).1 hs).1

theorem mem_members {X : StateSet} {s : Nat} : s ∈ X.members ↔ s ∈ X := by
  rw [members, mem_onesBefore fun s hs => Nat.lt_succ_of_le (le_log2_of_testBit hs)]
  simp [mem_iff]

theorem members_pairwise (X : StateSet) : X.members.Pairwise (· < ·) :=
  onesBefore_pairwise .nil (by simp)

theorem mem_foldl_insert {l : List Nat} {X : StateSet} {s : Nat} :
    s ∈ l.foldl insert X ↔ s ∈ X ∨ s ∈ l := by
  induction l generalizing X with
  | nil => simp
  | cons t l ih => simp only [List.foldl_cons, ih, mem_insert, List.mem_cons, or_assoc]

theorem mem_ofList {l : List Nat} {s : Nat} : s ∈ ofList l ↔ s ∈ l := by
  simp [ofList, mem_foldl_insert, not_mem_empty]

theorem mem_below {n : Nat} {test : Nat → Bool} {s : Nat} :
    s ∈ below n test ↔ s < n ∧ test s = true := by
  simp [below, mem_ofList]

theorem mem_unionOver {l : List Nat} {f : Nat → StateSet} {t : Nat} :
    t ∈ unionOver l f ↔ ∃ s ∈ l, t ∈ f s := by
  have key : ∀ Y : StateSet,
      t ∈ l.foldl (fun Y s => Y.union (f s)) Y ↔ t ∈ Y ∨ ∃ s ∈ l, t ∈ f s := by
    induction l with
    | nil => simp
    | cons s l ih => intro Y; simp [ih, mem_union, or_assoc]
  simp [unionOver, key, not_mem_empty]

theorem mem_biUnion {X : StateSet} {f : Nat → StateSet} {t : Nat} :
    t ∈ X.biUnion f ↔ ∃ s ∈ X, t ∈ f s := by
  simp only [biUnion, mem_unionOver, mem_members]

/-! ## Order -/

/-- Sets are ordered by their numbers, for looking them up. -/
instance : Ord StateSet := ⟨compareOn bits⟩

instance : Std.TransOrd StateSet := inferInstanceAs (Std.TransCmp (compareOn bits))

instance : Std.LawfulEqOrd StateSet where
  eq_of_compare {X Y} h := by
    have : X.bits = Y.bits := Nat.compare_eq_eq.1 h
    cases X
    cases Y
    exact congrArg mk this

end StateSet

end Acceptors
