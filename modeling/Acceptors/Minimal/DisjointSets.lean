/-!
# Disjoint sets

The classes of a partition of the numbers below a bound are kept as a forest. A number points to its
parent, never to a larger number, and a number that points to itself is the root of its class: the
smallest member. Looking for a root shortens the way that it takes, which changes no later answer.
-/

namespace Acceptors

/-- A forest of classes. -/
structure DisjointSets where
  /-- The parent of each number. -/
  parent : Array Nat

namespace DisjointSets

/-- Every number below `size` in a class of its own (`new`). -/
def singletons (size : Nat) : DisjointSets := ⟨Array.ofFn fun i : Fin size => i.val⟩

/-- The parent of a number; a number outside is its own. -/
def parentOf (f : DisjointSets) (x : Nat) : Nat := f.parent[x]?.getD x

/-- Makes `p` the parent of `x`. -/
def setParent (f : DisjointSets) (x p : Nat) : DisjointSets := ⟨f.parent.setIfInBounds x p⟩

/-- Climbs from `x` to its root in at most the given number of steps (the loop of `find`). Each step
    leads to the grandparent, which becomes the parent of the number that is left. -/
def climb : (steps : Nat) → DisjointSets → Nat → Nat × DisjointSets
  | 0, f, x => (x, f)
  | steps + 1, f, x =>
    let p := f.parentOf x
    if p = x then (x, f)
    else
      let g := f.parentOf p
      climb steps (f.setParent x g) g

/-- The root of the class of `x`, and the forest with a shorter way to it (`find`). A way up passes
    through ever smaller numbers, so it has at most `x` steps. -/
def find (f : DisjointSets) (x : Nat) : Nat × DisjointSets := climb x f x

/-- Unites the classes of two numbers: the smaller root becomes the root of both (`union`). -/
def union (f : DisjointSets) (a b : Nat) : DisjointSets :=
  let (a, f) := f.find a
  let (b, f) := f.find b
  if a < b then f.setParent b a else if b < a then f.setParent a b else f

end DisjointSets

end Acceptors
