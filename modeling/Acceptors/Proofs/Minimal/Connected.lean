import Mathlib.Logic.Relation
import Mathlib.Order.Bounds.Defs
import Acceptors.Proofs.Minimal.Roots

/-!
# Sequences of unions and searches

A forest of classes is used by unions and searches in any order. Two numbers are connected if a
chain of unions leads from one to the other. After any calls the numbers of one class are those that
are connected, and the smallest of them is found. Every search changes the forest while it climbs;
it comes to an end, since no number points to a larger one, and what it changes is never noticed.
The same calls get the same answers if nothing is shortened at all.

Results:
* `DisjointSets.Ordered.ascend_eq_find`: the loop of a search ends, and does what `find` does.
* `DisjointSets.Outcome`, `DisjointSets.Realizes`: what a call does, whichever way it is performed.
* `DisjointSets.SameRoots.performAll`: forests with the same roots give the same answers.
* `DisjointSets.Partitions`, `DisjointSets.Partitions.performAll`: what calls leave of the classes.
* `DisjointSets.performAll_exact`: what any calls answer and leave behind.
-/

namespace Acceptors

namespace DisjointSets

/-! ## The loop of a search -/

/-- Climbs from `x` as long as a number is not its own parent (`find`). The grandparent becomes the
    parent of the number, and the climb goes on there. There is no result if the steps do not
    suffice, or if the climb leaves the forest. -/
def ascend : (steps : Nat) → DisjointSets → Nat → Option (Nat × DisjointSets)
  | 0, f, x => do
    let p ← f.parent[x]?
    if p = x then return (x, f) else none
  | steps + 1, f, x => do
    let p ← f.parent[x]?
    if p = x then return (x, f)
    else
      let g ← f.parent[p]?
      ascend steps (f.setParent x g) g

/-! ## Calls -/

/-- A call on a forest. -/
inductive Call where
  /-- Looks for the root of a number. -/
  | find (x : Nat)
  /-- Unites the classes of two numbers. -/
  | union (a b : Nat)

/-- The numbers that a call is about. -/
def Call.numbers : Call → List Nat
  | find x => [x]
  | union a b => [a, b]

theorem Call.forall_mem_numbers_find {P : Nat → Prop} {x : Nat} :
    (∀ y ∈ (Call.find x).numbers, P y) ↔ P x := List.forall_mem_singleton

theorem Call.forall_mem_numbers_union {P : Nat → Prop} {a b : Nat} :
    (∀ y ∈ (Call.union a b).numbers, P y) ↔ P a ∧ P b := by
  simp [numbers]

/-- All calls are about numbers below `size`. -/
def Below (size : Nat) (calls : List Call) : Prop :=
  ∀ call ∈ calls, ∀ x ∈ call.numbers, x < size

/-- Performs a call: its answers, and the forest that it leaves behind. -/
def Call.perform (f : DisjointSets) : Call → Option (List Nat × DisjointSets)
  | find x => some ([(f.find x).1], (f.find x).2)
  | union a b => some ([], f.union a b)

/-- Performs a call with loops of at most the given number of steps. -/
def Call.performLoops (steps : Nat) (f : DisjointSets) : Call → Option (List Nat × DisjointSets)
  | find x => do
    let (root, f) ← f.ascend steps x
    return ([root], f)
  | union a b => do
    let (left, f) ← f.ascend steps a
    let (right, f) ← f.ascend steps b
    return ([], f.link left right)

/-- Performs a call without shortening any way. -/
def Call.performPlain (f : DisjointSets) : Call → Option (List Nat × DisjointSets)
  | find x => some ([f.root x], f)
  | union a b => some ([], f.link (f.root a) (f.root b))

/-- Performs calls one after the other, each in the given way: all answers in turn, and the forest
    in the end. -/
def performAll (way : DisjointSets → Call → Option (List Nat × DisjointSets)) (f : DisjointSets) :
    List Call → Option (List Nat × DisjointSets)
  | [] => some ([], f)
  | call :: calls => do
    let (first, f) ← way f call
    let (rest, f) ← performAll way f calls
    return (first ++ rest, f)

/-- A chain of unions leads from one number to the other. -/
def Connected (calls : List Call) : Nat → Nat → Prop :=
  Relation.EqvGen fun a b => Call.union a b ∈ calls

variable {f g f' g' : DisjointSets} {x y a b steps size : Nat} {answers answers' : List Nat}
variable {call : Call} {calls made : List Call}
variable {way way' : DisjointSets → Call → Option (List Nat × DisjointSets)}

/-! ## Searches come to an end -/

theorem climb_of_parentOf_eq (h : f.parentOf x = x) (steps : Nat) :
    DisjointSets.climb steps f x = (x, f) := by
  cases steps with
  | zero => rfl
  | succ steps => rw [DisjointSets.climb, if_pos h]

theorem getElem?_parent (hx : x < f.parent.size) : f.parent[x]? = some (f.parentOf x) := by
  rw [parentOf, Array.getElem?_eq_getElem hx]
  rfl

/-- The loop ends within as many steps as there are smaller numbers. -/
theorem Ordered.ascend_eq_climb (hf : f.Ordered) {bound : Nat} (hx : x < f.parent.size)
    (hsteps : x ≤ steps) (hbound : x ≤ bound) :
    f.ascend steps x = some (DisjointSets.climb bound f x) := by
  induction steps generalizing f x bound with
  | zero =>
    obtain rfl := Nat.le_zero.1 hsteps
    have hzero : f.parentOf 0 = 0 := Nat.le_zero.1 (hf 0)
    rw [ascend, getElem?_parent hx, hzero, climb_of_parentOf_eq hzero]
    rfl
  | succ steps ih =>
    simp only [ascend, getElem?_parent hx, Option.bind_eq_bind, Option.bind_some]
    split
    · next h =>
      rw [climb_of_parentOf_eq h]
      rfl
    · next h =>
      have hlt : f.parentOf x < x := (hf.lt_or_eq x).resolve_right h
      have hp : f.parentOf (f.parentOf x) < x := Nat.lt_of_le_of_lt (hf _) hlt
      obtain ⟨bound, rfl⟩ := Nat.exists_eq_add_of_lt (Nat.lt_of_lt_of_le hp hbound)
      rw [getElem?_parent (Nat.lt_trans hlt hx), DisjointSets.climb, if_neg h]
      refine ih (hf.setParent (Nat.le_of_lt hp)) ?_ (by omega) (by omega)
      rw [size_setParent]
      exact Nat.lt_trans hp hx

theorem Ordered.ascend_eq_find (hf : f.Ordered) (hx : x < f.parent.size) (hsteps : x ≤ steps) :
    f.ascend steps x = some (f.find x) := hf.ascend_eq_climb hx hsteps (Nat.le_refl x)

/-! ## What a call does -/

/-- What a call answers and leaves behind, as far as the roots tell: a search answers the root and
    changes no root, and a union has no answer. -/
inductive Outcome (f : DisjointSets) : Call → List Nat → DisjointSets → Prop
  | find (x : Nat) {g : DisjointSets} : SameRoots f g → Outcome f (.find x) [f.root x] g
  | union (a b : Nat) {g : DisjointSets} : SameRoots (f.union a b) g → Outcome f (.union a b) [] g

/-- A way to perform calls that comes to this outcome, on forests of the given size. -/
def Realizes (size : Nat) (way : DisjointSets → Call → Option (List Nat × DisjointSets)) : Prop :=
  ∀ f call, f.Ordered → f.parent.size = size → (∀ x ∈ call.numbers, x < size) →
    ∃ answers g, way f call = some (answers, g) ∧ Outcome f call answers g

theorem Ordered.sameRoots (hf : f.Ordered) : SameRoots f f := ⟨hf, rfl, fun _ => rfl⟩

/-- To link the roots of two numbers is to unite their classes, but that nothing is shortened. -/
theorem Ordered.sameRoots_link (hf : f.Ordered) (ha : a < f.parent.size) (hb : b < f.parent.size) :
    SameRoots (f.union a b) (f.link (f.root a) (f.root b)) := by
  obtain ⟨-, hsize, hroot⟩ := hf.union ha hb
  obtain ⟨hordered', hsize', hroot'⟩ := hf.link (hf.parentOf_root a) (hf.parentOf_root b)
    (Nat.lt_of_le_of_lt (hf.root_le a) ha) (Nat.lt_of_le_of_lt (hf.root_le b) hb)
  exact ⟨hordered', hsize'.trans hsize.symm, fun y => (hroot' y).trans (hroot y).symm⟩

theorem realizes_perform : Realizes size Call.perform := by
  rintro f call hf rfl hcall
  cases call with
  | find x =>
    obtain ⟨hroot, hsame⟩ := hf.find x
    exact ⟨[f.root x], (f.find x).2, by rw [Call.perform, hroot], .find x hsame⟩
  | union a b =>
    obtain ⟨ha, hb⟩ := Call.forall_mem_numbers_union.1 hcall
    obtain ⟨hordered, -, -⟩ := hf.union ha hb
    exact ⟨[], f.union a b, rfl, .union a b hordered.sameRoots⟩

theorem realizes_performPlain : Realizes size Call.performPlain := by
  rintro f call hf rfl hcall
  cases call with
  | find x => exact ⟨[f.root x], f, rfl, .find x hf.sameRoots⟩
  | union a b =>
    obtain ⟨ha, hb⟩ := Call.forall_mem_numbers_union.1 hcall
    exact ⟨[], f.link (f.root a) (f.root b), rfl, .union a b (hf.sameRoots_link ha hb)⟩

/-- The loops end, and do what `find` and `union` do. -/
theorem Ordered.performLoops (hf : f.Ordered) (hcall : ∀ x ∈ call.numbers, x < f.parent.size) :
    call.performLoops f.parent.size f = call.perform f := by
  cases call with
  | find x =>
    have hx := Call.forall_mem_numbers_find.1 hcall
    rw [Call.performLoops, hf.ascend_eq_find hx (Nat.le_of_lt hx)]
    rfl
  | union a b =>
    obtain ⟨ha, hb⟩ := Call.forall_mem_numbers_union.1 hcall
    obtain ⟨-, hfirst⟩ := hf.find a
    rw [Call.performLoops, hf.ascend_eq_find ha (Nat.le_of_lt ha)]
    simp only [Option.bind_eq_bind, Option.bind_some]
    rw [hfirst.ordered.ascend_eq_find (hfirst.size.symm ▸ hb) (Nat.le_of_lt hb)]
    rfl

/-! ## Forests with the same roots -/

theorem Outcome.ordered (h : Outcome f call answers g) : g.Ordered := by
  cases h with
  | find x h | union a b h => exact h.ordered

theorem Outcome.size_eq (h : Outcome f call answers g) (hf : f.Ordered)
    (hcall : ∀ x ∈ call.numbers, x < f.parent.size) : g.parent.size = f.parent.size := by
  cases h with
  | find x h => exact h.size
  | union a b h =>
    obtain ⟨ha, hb⟩ := Call.forall_mem_numbers_union.1 hcall
    obtain ⟨-, hsize, -⟩ := hf.union ha hb
    exact h.size.trans hsize

/-- Unions keep the roots of two forests the same. -/
theorem SameRoots.union (h : SameRoots f g) (hf : f.Ordered) (ha : a < f.parent.size)
    (hb : b < f.parent.size) : SameRoots (f.union a b) (g.union a b) := by
  obtain ⟨-, hsize, hroot⟩ := hf.union ha hb
  obtain ⟨hordered', hsize', hroot'⟩ := h.ordered.union (h.size.symm ▸ ha) (h.size.symm ▸ hb)
  refine ⟨hordered', ?_, fun y => ?_⟩
  · rw [hsize', hsize, h.size]
  · rw [hroot, hroot', h.root, h.root, h.root]

/-- What has the same roots as forests with the same roots has the same roots. -/
theorem SameRoots.square (h : SameRoots f g) (hf : SameRoots f f') (hg : SameRoots g g') :
    SameRoots f' g' where
  ordered := hg.ordered
  size := by rw [hg.size, h.size, hf.size]
  root y := by rw [hg.root, h.root, hf.root]

/-- On forests with the same roots a call has the same answers, and leaves forests with the same
    roots. -/
theorem SameRoots.outcome (h : SameRoots f g) (hf : f.Ordered)
    (hcall : ∀ x ∈ call.numbers, x < f.parent.size) (hleft : Outcome f call answers f')
    (hright : Outcome g call answers' g') : answers = answers' ∧ SameRoots f' g' := by
  cases hleft with
  | find x hleft =>
    cases hright with
    | find _ hright => exact ⟨by rw [h.root], h.square hleft hright⟩
  | union a b hleft =>
    cases hright with
    | union _ _ hright =>
      obtain ⟨ha, hb⟩ := Call.forall_mem_numbers_union.1 hcall
      exact ⟨rfl, (h.union hf ha hb).square hleft hright⟩

/-- Calls are answered alike on forests with the same roots, in whatever ways they are performed. -/
theorem SameRoots.performAll (h : SameRoots f g) (hf : f.Ordered)
    (hway : Realizes f.parent.size way) (hway' : Realizes f.parent.size way')
    (hcalls : Below f.parent.size calls) :
    ∃ answers f' g', performAll way f calls = some (answers, f') ∧
      performAll way' g calls = some (answers, g') := by
  induction calls generalizing f g with
  | nil => exact ⟨[], f, g, rfl, rfl⟩
  | cons call calls ih =>
    obtain ⟨hcall, hcalls⟩ := List.forall_mem_cons.1 hcalls
    obtain ⟨first, f₁, hfirst, hleft⟩ := hway f call hf rfl hcall
    obtain ⟨first', g₁, hfirst', hright⟩ := hway' g call h.ordered h.size hcall
    obtain ⟨rfl, h₁⟩ := h.outcome hf hcall hleft hright
    have hsize := hleft.size_eq hf hcall
    rw [← hsize] at hway hway' hcalls
    obtain ⟨rest, f₂, g₂, hrest, hrest'⟩ := ih h₁ hleft.ordered hway hway' hcalls
    refine ⟨first ++ rest, f₂, g₂, ?_, ?_⟩
    · simp [DisjointSets.performAll, hfirst, hrest]
    · simp [DisjointSets.performAll, hfirst', hrest']

/-- In any number of calls, all loops end. -/
theorem Ordered.performAll_performLoops (hf : f.Ordered) (hcalls : Below f.parent.size calls) :
    performAll (Call.performLoops f.parent.size) f calls = performAll Call.perform f calls := by
  induction calls generalizing f with
  | nil => rfl
  | cons call calls ih =>
    obtain ⟨hcall, hcalls⟩ := List.forall_mem_cons.1 hcalls
    obtain ⟨first, g, hfirst, hg⟩ := realizes_perform f call hf rfl hcall
    have hsize := hg.size_eq hf hcall
    have hrest := ih hg.ordered (hsize.symm ▸ hcalls)
    rw [hsize] at hrest
    simp [performAll, hf.performLoops hcall, hfirst, hrest]

/-! ## Classes of connected numbers -/

theorem Connected.mono (h : ∀ a b, .union a b ∈ made → .union a b ∈ calls)
    (hxy : Connected made x y) : Connected calls x y :=
  Relation.EqvGen.mono h _ _ hxy

/-- What the unions keep the same is the same for connected numbers. -/
theorem Connected.eq_of_union {α : Type} (hxy : Connected made x y) (label : Nat → α)
    (h : ∀ a b, .union a b ∈ made → label a = label b) : label x = label y := by
  induction hxy with
  | rel a b hab => exact h a b hab
  | refl x => rfl
  | symm x y _ ih => exact ih.symm
  | trans x y z _ _ ih ih' => exact ih.trans ih'

/-- A search connects no numbers. -/
theorem connected_concat_find {z : Nat} :
    Connected (made ++ [.find z]) x y ↔ Connected made x y :=
  ⟨Connected.mono fun a b h => by simpa using h, Connected.mono fun a b h => by simp [h]⟩

/-- The classes of the forest are those of the numbers that the calls made so far connect. -/
structure Partitions (size : Nat) (made : List Call) (f : DisjointSets) : Prop where
  ordered : f.Ordered
  size_eq : f.parent.size = size
  root_eq_iff : ∀ x y, f.root x = f.root y ↔ Connected made x y

theorem Partitions.singletons (size : Nat) : Partitions size [] (.singletons size) where
  ordered := ordered_singletons size
  size_eq := Array.size_ofFn
  root_eq_iff x y := by
    rw [root_singletons, root_singletons]
    constructor
    · rintro rfl
      exact .refl x
    · exact fun h => h.eq_of_union id fun a b hab => absurd hab List.not_mem_nil

/-- A union connects its two numbers, and with them what was connected to either. -/
theorem Partitions.root_union_eq_iff (h : Partitions size made f) (ha : a < size) (hb : b < size) :
    (f.union a b).root x = (f.union a b).root y ↔ Connected (made ++ [.union a b]) x y := by
  rw [← h.size_eq] at ha hb
  have hold : ∀ {x y}, f.root x = f.root y → Connected (made ++ [.union a b]) x y := fun hxy =>
    ((h.root_eq_iff _ _).1 hxy).mono fun p q hmem => List.mem_append_left _ hmem
  have hnew : Connected (made ++ [.union a b]) a b := .rel a b (by simp)
  constructor
  · intro hxy
    have hclass : ∀ {z}, f.root z = f.root a ∨ f.root z = f.root b →
        Connected (made ++ [.union a b]) z a := by
      rintro z (hz | hz)
      · exact hold hz
      · exact (hold hz).trans _ _ _ (hnew.symm _ _)
    rcases h.ordered.root_eq_of_root_union ha hb hxy with hxy | ⟨hx, hy⟩
    · exact hold hxy
    · exact (hclass hx).trans _ _ _ ((hclass hy).symm _ _)
  · refine fun hxy => hxy.eq_of_union (f.union a b).root fun p q hmem => ?_
    rcases List.mem_append.1 hmem with hmem | hmem
    · exact h.ordered.root_union_congr ha hb ((h.root_eq_iff p q).2 (.rel p q hmem))
    · obtain ⟨rfl, rfl⟩ := Call.union.inj (List.mem_singleton.1 hmem)
      exact h.ordered.root_union_self ha hb

/-- A call leaves the classes that it connects. -/
theorem Partitions.outcome (h : Partitions size made f) (hcall : ∀ x ∈ call.numbers, x < size)
    (houtcome : Outcome f call answers g) : Partitions size (made ++ [call]) g := by
  refine ⟨houtcome.ordered, ?_, fun x y => ?_⟩
  · rw [houtcome.size_eq h.ordered (h.size_eq.symm ▸ hcall), h.size_eq]
  · cases houtcome with
    | find z hsame => rw [hsame.root, hsame.root, h.root_eq_iff, connected_concat_find]
    | union a b hsame =>
      obtain ⟨ha, hb⟩ := Call.forall_mem_numbers_union.1 hcall
      rw [hsame.root, hsame.root]
      exact h.root_union_eq_iff ha hb

/-- Any calls leave the classes that they connect. -/
theorem Partitions.performAll (h : Partitions size made f) (hway : Realizes size way)
    (hcalls : Below size calls) :
    ∃ answers g, performAll way f calls = some (answers, g) ∧
      Partitions size (made ++ calls) g := by
  induction calls generalizing f made with
  | nil => exact ⟨[], f, rfl, by rwa [List.append_nil]⟩
  | cons call calls ih =>
    obtain ⟨hcall, hcalls⟩ := List.forall_mem_cons.1 hcalls
    obtain ⟨first, f₁, hfirst, houtcome⟩ := hway f call h.ordered h.size_eq hcall
    obtain ⟨rest, f₂, hrest, h₂⟩ := ih (h.outcome hcall houtcome) hcalls
    refine ⟨first ++ rest, f₂, ?_, by rwa [List.append_assoc] at h₂⟩
    simp [DisjointSets.performAll, hfirst, hrest]

/-- The number that is found is the smallest of those that are connected. -/
theorem Partitions.isLeast_find (h : Partitions size made f) (x : Nat) :
    IsLeast {y | Connected made x y} (f.find x).1 := by
  rw [(h.ordered.find x).1]
  refine ⟨(h.root_eq_iff x _).1 (h.ordered.root_root x).symm, fun y hy => ?_⟩
  rw [(h.root_eq_iff x y).2 hy]
  exact h.ordered.root_le y

/-! ## Any calls -/

/-- From single numbers, any unions and searches are performed to the end. Then two searches find
    the same number exactly if the unions connect what they look for, and it is the smallest of all
    numbers that are connected to it. What is shortened on the way changes no answer: without it the
    answers are the same, and so are those of all later calls whether or not they come after one
    more search. -/
theorem performAll_exact (hcalls : Below size calls) :
    ∃ answers f,
      performAll (Call.performLoops size) (.singletons size) calls = some (answers, f) ∧
      performAll Call.perform (.singletons size) calls = some (answers, f) ∧
      (∃ g, performAll Call.performPlain (.singletons size) calls = some (answers, g)) ∧
      (∀ x < size, f.ascend size x = some (f.find x)) ∧
      (∀ x < size, ∀ y < size, (f.find x).1 = ((f.find x).2.find y).1 ↔ Connected calls x y) ∧
      (∀ x < size, IsLeast {y | Connected calls x y} (f.find x).1) ∧
      ∀ x < size, ∀ later, Below size later → ∃ answers g h,
        performAll Call.perform f later = some (answers, g) ∧
        performAll Call.perform (f.find x).2 later = some (answers, h) := by
  have hstart := Partitions.singletons size
  obtain ⟨answers, f, hperform, hf⟩ := hstart.performAll realizes_perform hcalls
  rw [List.nil_append] at hf
  have hbelow := hcalls
  rw [← hstart.size_eq] at hcalls
  obtain ⟨answers', f', g, hperform', hplain⟩ := hstart.ordered.sameRoots.performAll hstart.ordered
    realizes_perform realizes_performPlain hcalls
  obtain ⟨rfl, rfl⟩ := Prod.mk.inj (Option.some.inj (hperform.symm.trans hperform'))
  have hloops := hstart.ordered.performAll_performLoops hcalls
  rw [hstart.size_eq] at hloops
  refine ⟨answers, f, hloops.trans hperform, hperform, ⟨g, hplain⟩,
    fun x hx => hf.ordered.ascend_eq_find (hf.size_eq.symm ▸ hx) (Nat.le_of_lt hx),
    fun x _ y _ => ?_,
    fun x _ => hf.isLeast_find x, fun x _ later hlater => ?_⟩
  · obtain ⟨hroot, hsame⟩ := hf.ordered.find x
    rw [hroot, (hsame.ordered.find y).1, hsame.root, hf.root_eq_iff]
  · rw [← hf.size_eq] at hlater
    exact (hf.ordered.find x).2.performAll hf.ordered realizes_perform realizes_perform hlater

/-- Four of five numbers, united in a way that the last search halves. -/
theorem performAll_exact_halved :
    let calls : List Call := [.union 3 4, .union 2 3, .find 4, .union 3 0, .find 4]
    let f : DisjointSets := ⟨#[0, 1, 0, 2, 0]⟩
    Below 5 calls ∧ performAll (Call.performLoops 5) (.singletons 5) calls = some ([2, 0], f) ∧
      f.ascend 5 3 = some (0, ⟨#[0, 1, 0, 0, 0]⟩) ∧ Connected calls 3 4 ∧ ¬ Connected calls 3 1 ∧
      IsLeast {y | Connected calls 3 y} 0 ∧ ∃ answers g h,
        performAll Call.perform f [.union 4 1, .find 1] = some (answers, g) ∧
        performAll Call.perform (f.find 3).2 [.union 4 1, .find 1] = some (answers, h) := by
  intro calls f
  have hcalls : Below 5 calls := by simp [calls, Below, Call.numbers]
  have hlater : Below 5 [.union 4 1, .find 1] := by simp [Below, Call.numbers]
  have hdone : performAll (Call.performLoops 5) (.singletons 5) calls = some ([2, 0], f) := rfl
  have hfind : f.find 3 = (0, ⟨#[0, 1, 0, 0, 0]⟩) := rfl
  obtain ⟨answers, f', hloops, -, -, hend, hconnected, hleast, hshortened⟩ :=
    performAll_exact hcalls
  obtain ⟨-, rfl⟩ := Prod.mk.inj (Option.some.inj (hdone.symm.trans hloops))
  have hthree : ∀ y < 5, 0 = ((f.find 3).2.find y).1 ↔ Connected calls 3 y := fun y hy => by
    rw [← hconnected 3 (by decide) y hy, hfind]
  have hend := hend 3 (by decide)
  have hleast := hleast 3 (by decide)
  rw [hfind] at hend hleast
  exact ⟨hcalls, hdone, hend, (hthree 4 (by decide)).1 (by decide),
    fun h => absurd ((hthree 1 (by decide)).2 h) (by decide), hleast,
    hshortened 3 (by decide) _ hlater⟩

end DisjointSets

end Acceptors
