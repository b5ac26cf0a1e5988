import Mathlib.Tactic.Common
import Acceptors.Minimal.DisjointSets

/-!
# Roots of disjoint sets

As long as no number points to a larger one, every way up ends at a root, which is no larger than
the number that it starts from. So the root of a class is its smallest member, and two numbers are
in one class if they have one root. To shorten a way changes no root, and to unite two classes gives
their members the smaller of the two roots.

Results:
* `DisjointSets.Ordered.root_le`, `DisjointSets.Ordered.root_root`: the root as the smallest member.
* `DisjointSets.Ordered.find`: what a search for a root answers and leaves behind.
* `DisjointSets.Ordered.link`, `DisjointSets.Ordered.union`: the roots after two classes are united.
-/

namespace Acceptors

namespace DisjointSets

variable {f g : DisjointSets} {x y a b p : Nat}

/-- No number points to a larger one. -/
def Ordered (f : DisjointSets) : Prop := ∀ x, f.parentOf x ≤ x

/-- The end of the way up from a number. -/
def root (f : DisjointSets) (x : Nat) : Nat :=
  if f.parentOf x < x then f.root (f.parentOf x) else x
termination_by x

theorem root_of_lt (h : f.parentOf x < x) : f.root x = f.root (f.parentOf x) := by
  rw [root, if_pos h]

theorem root_of_parentOf_eq (h : f.parentOf x = x) : f.root x = x := by
  rw [root, h, if_neg (Nat.lt_irrefl x)]

/-- At first every number is its own parent. -/
theorem parentOf_singletons (size x : Nat) : (singletons size).parentOf x = x := by
  by_cases hx : x < size <;> simp [parentOf, singletons, hx]

theorem ordered_singletons (size : Nat) : (singletons size).Ordered := fun x =>
  Nat.le_of_eq (parentOf_singletons size x)

theorem root_singletons (size x : Nat) : (singletons size).root x = x :=
  root_of_parentOf_eq (parentOf_singletons size x)

theorem Ordered.lt_or_eq (hf : f.Ordered) (x : Nat) : f.parentOf x < x ∨ f.parentOf x = x :=
  Nat.lt_or_eq_of_le (hf x)

theorem Ordered.root_parentOf (hf : f.Ordered) (x : Nat) : f.root (f.parentOf x) = f.root x := by
  rcases hf.lt_or_eq x with h | h
  · exact (root_of_lt h).symm
  · rw [h]

/-- A root is no larger than the members of its class. -/
theorem Ordered.root_le (hf : f.Ordered) (x : Nat) : f.root x ≤ x := by
  induction x using Nat.strongRecOn with
  | ind x ih =>
    rcases hf.lt_or_eq x with h | h
    · rw [root_of_lt h]
      exact Nat.le_trans (ih _ h) (Nat.le_of_lt h)
    · exact Nat.le_of_eq (root_of_parentOf_eq h)

theorem Ordered.parentOf_root (hf : f.Ordered) (x : Nat) : f.parentOf (f.root x) = f.root x := by
  induction x using Nat.strongRecOn with
  | ind x ih =>
    rcases hf.lt_or_eq x with h | h
    · rw [root_of_lt h]
      exact ih _ h
    · rw [root_of_parentOf_eq h, h]

theorem Ordered.root_root (hf : f.Ordered) (x : Nat) : f.root (f.root x) = f.root x :=
  root_of_parentOf_eq (hf.parentOf_root x)

/-! ## Changing a parent -/

theorem parentOf_setParent :
    (f.setParent x p).parentOf y = if y = x ∧ x < f.parent.size then p else f.parentOf y := by
  rw [parentOf, setParent, Array.getElem?_setIfInBounds]
  by_cases hxy : x = y
  · subst hxy
    by_cases hx : x < f.parent.size <;> simp [hx, parentOf]
  · have hyx : ¬ y = x := fun h => hxy h.symm
    simp [hxy, hyx, parentOf]

theorem size_setParent : (f.setParent x p).parent.size = f.parent.size :=
  Array.size_setIfInBounds

theorem Ordered.setParent (hf : f.Ordered) (hp : p ≤ x) : (f.setParent x p).Ordered := by
  intro y
  rw [parentOf_setParent]
  split
  · next h => exact h.1 ▸ hp
  · exact hf y

theorem lt_size_of_parentOf_ne (h : f.parentOf x ≠ x) : x < f.parent.size := by
  by_contra hx
  rw [parentOf, Array.getElem?_eq_none (Nat.le_of_not_lt hx)] at h
  exact h rfl

/-- To point a number to another member of its class changes no root. -/
theorem Ordered.root_setParent_of_root_eq (hf : f.Ordered) (hx : f.parentOf x < x) (hp : p < x)
    (hroot : f.root p = f.root x) (y : Nat) : (f.setParent x p).root y = f.root y := by
  have hset := hf.setParent (Nat.le_of_lt hp)
  have hsize := lt_size_of_parentOf_ne (Nat.ne_of_lt hx)
  induction y using Nat.strongRecOn with
  | ind y ih =>
    by_cases hyx : y = x
    · subst hyx
      rw [← hset.root_parentOf, parentOf_setParent, if_pos ⟨rfl, hsize⟩, ih p hp, hroot]
    · have hparent : (f.setParent x p).parentOf y = f.parentOf y := by
        rw [parentOf_setParent, if_neg fun h => hyx h.1]
      rcases hf.lt_or_eq y with h | h
      · rw [root_of_lt (hparent.symm ▸ h), hparent, ih _ h, root_of_lt h]
      · rw [root_of_parentOf_eq (hparent.trans h), root_of_parentOf_eq h]

/-- To point a root to another root gives the members of its class that root. -/
theorem Ordered.root_setParent_of_roots (hf : f.Ordered) (hb : f.parentOf b = b)
    (ha : f.parentOf a = a) (hab : a < b) (hsize : b < f.parent.size) (y : Nat) :
    (f.setParent b a).root y = if f.root y = b then a else f.root y := by
  have hset := hf.setParent (Nat.le_of_lt hab)
  induction y using Nat.strongRecOn with
  | ind y ih =>
    by_cases hyb : y = b
    · subst hyb
      rw [← hset.root_parentOf, parentOf_setParent, if_pos ⟨rfl, hsize⟩, ih a hab,
        root_of_parentOf_eq ha, root_of_parentOf_eq hb, if_neg (Nat.ne_of_lt hab), if_pos rfl]
    · have hparent : (f.setParent b a).parentOf y = f.parentOf y := by
        rw [parentOf_setParent, if_neg fun h => hyb h.1]
      rcases hf.lt_or_eq y with h | h
      · rw [root_of_lt (hparent.symm ▸ h), hparent, ih _ h, root_of_lt h]
      · rw [root_of_parentOf_eq (hparent.trans h), root_of_parentOf_eq h, if_neg hyb]

/-! ## Finding and uniting -/

/-- A forest of the same size with the same roots. -/
structure SameRoots (f g : DisjointSets) : Prop where
  ordered : g.Ordered
  size : g.parent.size = f.parent.size
  root : ∀ y, g.root y = f.root y

/-- With as many steps as there are smaller numbers, climbing ends at the root, and the forest that
    it leaves behind has the same roots. -/
theorem Ordered.climb (hf : f.Ordered) {steps : Nat} (hsteps : x ≤ steps) :
    (climb steps f x).1 = f.root x ∧ SameRoots f (climb steps f x).2 := by
  induction steps generalizing f x with
  | zero =>
    obtain rfl := Nat.le_zero.1 hsteps
    exact ⟨(root_of_parentOf_eq (Nat.le_zero.1 (hf 0))).symm, hf, rfl, fun _ => rfl⟩
  | succ steps ih =>
    rw [DisjointSets.climb]
    split
    · next h => exact ⟨(root_of_parentOf_eq h).symm, hf, rfl, fun _ => rfl⟩
    · next h =>
      have hlt : f.parentOf x < x := (hf.lt_or_eq x).resolve_right h
      have hp : f.parentOf (f.parentOf x) < x := Nat.lt_of_le_of_lt (hf _) hlt
      have hroot : f.root (f.parentOf (f.parentOf x)) = f.root x := by
        rw [hf.root_parentOf, hf.root_parentOf]
      have hsame := hf.root_setParent_of_root_eq hlt hp hroot
      obtain ⟨hfirst, hrest⟩ := ih (hf.setParent (Nat.le_of_lt hp))
        (Nat.le_of_lt_succ (Nat.lt_of_lt_of_le hp hsteps))
      refine ⟨by rw [hfirst, hsame, hroot], hrest.ordered, ?_, fun y => ?_⟩
      · rw [hrest.size, size_setParent]
      · rw [hrest.root, hsame]

theorem Ordered.find (hf : f.Ordered) (x : Nat) :
    (f.find x).1 = f.root x ∧ SameRoots f (f.find x).2 := hf.climb (Nat.le_refl x)

theorem SameRoots.trans {h : DisjointSets} (hfg : SameRoots f g) (hgh : SameRoots g h) :
    SameRoots f h :=
  ⟨hgh.ordered, hgh.size.trans hfg.size, fun y => (hgh.root y).trans (hfg.root y)⟩

/-- Points the larger of two roots to the smaller. -/
def link (f : DisjointSets) (a b : Nat) : DisjointSets :=
  if a < b then f.setParent b a else if b < a then f.setParent a b else f

theorem union_eq (f : DisjointSets) (a b : Nat) :
    f.union a b = ((f.find a).2.find b).2.link (f.find a).1 ((f.find a).2.find b).1 := rfl

theorem ite_eq_or_eq {a b r : Nat} :
    (if r = a ∨ r = b then a else r) = if r = b then a else r := by
  split <;> split <;> simp_all

/-- To link two roots gives the members of their classes the smaller one. -/
theorem Ordered.link (hf : f.Ordered) (ha : f.parentOf a = a) (hb : f.parentOf b = b)
    (hasize : a < f.parent.size) (hbsize : b < f.parent.size) :
    (f.link a b).Ordered ∧ (f.link a b).parent.size = f.parent.size ∧
      ∀ y, (f.link a b).root y = if f.root y = a ∨ f.root y = b then min a b else f.root y := by
  rw [DisjointSets.link]
  split
  · next hlt =>
    refine ⟨hf.setParent (Nat.le_of_lt hlt), size_setParent, fun y => ?_⟩
    rw [hf.root_setParent_of_roots hb ha hlt hbsize, Nat.min_eq_left (Nat.le_of_lt hlt),
      ite_eq_or_eq]
  split
  · next hlt =>
    refine ⟨hf.setParent (Nat.le_of_lt hlt), size_setParent, fun y => ?_⟩
    rw [hf.root_setParent_of_roots ha hb hlt hasize, Nat.min_eq_right (Nat.le_of_lt hlt),
      ← ite_eq_or_eq]
    simp only [or_comm]
  · refine ⟨hf, rfl, fun y => ?_⟩
    have heq : a = b := by omega
    rw [heq, Nat.min_self, ite_eq_or_eq]
    split
    · assumption
    · rfl

/-- To unite two classes gives their members the smaller of their roots. -/
theorem Ordered.union (hf : f.Ordered) (ha : a < f.parent.size) (hb : b < f.parent.size) :
    (f.union a b).Ordered ∧ (f.union a b).parent.size = f.parent.size ∧
      ∀ y, (f.union a b).root y =
        if f.root y = f.root a ∨ f.root y = f.root b then min (f.root a) (f.root b)
        else f.root y := by
  obtain ⟨hfirst, hsame⟩ := hf.find a
  obtain ⟨hsecond, hsame'⟩ := hsame.ordered.find b
  have hboth := hsame.trans hsame'
  have hsecond : ((f.find a).2.find b).1 = f.root b := hsecond.trans (hsame.root b)
  have hroot : ∀ x, ((f.find a).2.find b).2.parentOf (f.root x) = f.root x := by
    intro x
    rw [← hboth.root x]
    exact hboth.ordered.parentOf_root x
  have hsize : ∀ x, x < f.parent.size → f.root x < ((f.find a).2.find b).2.parent.size := by
    intro x hx
    rw [hboth.size]
    exact Nat.lt_of_le_of_lt (hf.root_le x) hx
  obtain ⟨hordered, hsize', hroots⟩ :=
    hboth.ordered.link (hroot a) (hroot b) (hsize a ha) (hsize b hb)
  rw [union_eq, hfirst, hsecond]
  refine ⟨hordered, hsize'.trans hboth.size, fun y => ?_⟩
  rw [hroots, hboth.root]

/-! ## The classes of a union -/

variable (hf : f.Ordered) (ha : a < f.parent.size) (hb : b < f.parent.size)

include hf ha hb

/-- What was in one class stays in one class. -/
theorem Ordered.root_union_congr (h : f.root x = f.root y) :
    (f.union a b).root x = (f.union a b).root y := by
  obtain ⟨-, -, hroot⟩ := hf.union ha hb
  rw [hroot, hroot, h]

/-- The two classes become one. -/
theorem Ordered.root_union_self : (f.union a b).root a = (f.union a b).root b := by
  obtain ⟨-, -, hroot⟩ := hf.union ha hb
  rw [hroot, hroot, if_pos (.inl rfl), if_pos (.inr rfl)]

/-- Nothing else comes into one class. -/
theorem Ordered.root_eq_of_root_union (h : (f.union a b).root x = (f.union a b).root y) :
    f.root x = f.root y ∨
      (f.root x = f.root a ∨ f.root x = f.root b) ∧
        (f.root y = f.root a ∨ f.root y = f.root b) := by
  obtain ⟨-, -, hroot⟩ := hf.union ha hb
  have hmin : min (f.root a) (f.root b) = f.root a ∨ min (f.root a) (f.root b) = f.root b := by
    omega
  rw [hroot, hroot] at h
  split at h
  · next hx =>
    split at h
    · next hy => exact .inr ⟨hx, hy⟩
    · next hy => exact absurd (h ▸ hmin) hy
  · next hx =>
    split at h
    · next hy => exact absurd (h ▸ hmin) hx
    · exact .inl h

end DisjointSets

end Acceptors
