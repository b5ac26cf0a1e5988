import Mathlib.Tactic.Common
import Acceptors.Proofs.Pattern.Printed

/-!
# One piece at a time

When pieces are reordered, each of them is looked at once. What it does to the stack is said here
once and for all, and what holds of a whole pattern in postorder is proved from it piece by piece.
There are only two ways to fail, the end of a group that was not begun and, after the last piece, a
group that still waits for its end.

Results:
* `Pattern.Reorders`: what a piece releases, and what it leaves on the stack.
* `Pattern.postorderFrom_cons`: a piece is reordered unless it ends a group that was not begun.
* `Pattern.postorderFrom_cons_eq_ok`, `Pattern.postorderFrom_cons_eq_error`: the same, read off a
  result.
-/

namespace Acceptors

namespace Pattern

variable {ps : List (Placed Piece)} {instrs : List (Placed Instr)} {stack : List (Placed Pending)}

/-- What is released are operators, and the rest of the stack waits on. -/
theorem exists_released {strength : Nat} {taken : List (Placed Instr)}
    {rest : List (Placed Pending)} (h : release strength stack = (taken, rest)) :
    ∃ ops : List (Placed Operator),
      stack = ops.map Operator.pending ++ rest ∧ taken = ops.map Operator.instr := by
  fun_induction release strength stack generalizing taken with
  | case1 | case2 | case4 =>
    cases h
    exact ⟨[], rfl, rfl⟩
  | case3 op offset stack hle taken' rest' hrelease ih =>
    cases h
    obtain ⟨ops, rfl, rfl⟩ := ih hrelease
    exact ⟨⟨op, offset⟩ :: ops, rfl, rfl⟩

/-- Only the begin of a group is not released by the end of one. -/
theorem eq_group_of_release {taken : List (Placed Instr)} {p : Placed Pending}
    {rest : List (Placed Pending)} (h : release 0 stack = (taken, p :: rest)) :
    p.value = .group := by
  fun_induction release 0 stack generalizing taken with
  | case1 => cases h
  | case2 => cases h; rfl
  | case3 op offset stack hle taken' rest' hrelease ih => cases h; exact ih hrelease
  | case4 op offset stack hlt => exact absurd (Nat.zero_le _) hlt

theorem emit_nil (r : Except Error (List (Placed Instr))) : emit [] r = r := by
  cases r <;> rfl

theorem emit_eq_ok_iff {first : List (Placed Instr)} {r : Except Error (List (Placed Instr))} :
    emit first r = .ok instrs ↔ ∃ rest, r = .ok rest ∧ first ++ rest = instrs := by
  cases r with
  | error e => simp [emit, Except.map]
  | ok rest => simp [emit, Except.map]

theorem emit_eq_error_iff {first : List (Placed Instr)} {r : Except Error (List (Placed Instr))}
    {e : Error} : emit first r = .error e ↔ r = .error e := by
  cases r with
  | error e' => simp [emit, Except.map]
  | ok rest => simp [emit, Except.map]

/-- `Reorders stack p out waiting`: on the stack, the piece `p` releases the elements `out`, and
    `waiting` is the stack that remains. -/
inductive Reorders (stack : List (Placed Pending)) :
    Placed Piece → List (Placed Instr) → List (Placed Pending) → Prop
  | symbol (c : Char) (offset : Nat) :
      Reorders stack ⟨.symbol c, offset⟩ [⟨.symbol c, offset⟩] stack
  | star (offset : Nat) : Reorders stack ⟨.star, offset⟩ [⟨.star, offset⟩] stack
  | operator (op : Operator) (offset : Nat) {taken : List (Placed Instr)}
      {rest : List (Placed Pending)} : release op.strength stack = (taken, rest) →
      Reorders stack ⟨.operator op, offset⟩ taken (⟨.operator op, offset⟩ :: rest)
  | opening (offset : Nat) : Reorders stack ⟨.leftParen, offset⟩ [] (⟨.group, offset⟩ :: stack)
  | closing (offset start : Nat) {taken : List (Placed Instr)} {outer : List (Placed Pending)} :
      release 0 stack = (taken, ⟨.group, start⟩ :: outer) →
      Reorders stack ⟨.rightParen, offset⟩ taken outer

/-- Each piece is reordered, but for the end of a group that was not begun. -/
theorem postorderFrom_cons (stack : List (Placed Pending)) (p : Placed Piece)
    (ps : List (Placed Piece)) :
    (∃ taken, p.value = .rightParen ∧ release 0 stack = (taken, []) ∧
        postorderFrom stack (p :: ps) = .error (.unbalancedParenthesis p.offset)) ∨
      ∃ out waiting, Reorders stack p out waiting ∧
        postorderFrom stack (p :: ps) = emit out (postorderFrom waiting ps) := by
  obtain ⟨piece, offset⟩ := p
  cases piece with
  | symbol c => exact .inr ⟨_, _, .symbol c offset, rfl⟩
  | star => exact .inr ⟨_, _, .star offset, rfl⟩
  | operator op => exact .inr ⟨_, _, .operator op offset rfl, rfl⟩
  | leftParen => exact .inr ⟨_, _, .opening offset, (emit_nil _).symm⟩
  | rightParen =>
    rw [postorderFrom]
    split
    · next taken group outer hrelease =>
      obtain ⟨_, start⟩ := group
      obtain rfl : _ = Pending.group := eq_group_of_release hrelease
      exact .inr ⟨taken, outer, .closing offset start hrelease, rfl⟩
    · next taken hrelease => exact .inl ⟨taken, rfl, hrelease, rfl⟩

theorem postorderFrom_cons_eq_ok {p : Placed Piece}
    (h : postorderFrom stack (p :: ps) = .ok instrs) :
    ∃ out waiting rest, Reorders stack p out waiting ∧ postorderFrom waiting ps = .ok rest ∧
      out ++ rest = instrs := by
  rcases postorderFrom_cons stack p ps with ⟨_, -, -, he⟩ | ⟨out, waiting, hreorders, hrest⟩
  · rw [he] at h
    cases h
  · rw [hrest] at h
    obtain ⟨rest, hrest, hinstrs⟩ := emit_eq_ok_iff.1 h
    exact ⟨out, waiting, rest, hreorders, hrest, hinstrs⟩

theorem postorderFrom_cons_eq_error {p : Placed Piece} {e : Error}
    (h : postorderFrom stack (p :: ps) = .error e) :
    (∃ taken, p.value = .rightParen ∧ release 0 stack = (taken, []) ∧
        e = .unbalancedParenthesis p.offset) ∨
      ∃ out waiting, Reorders stack p out waiting ∧ postorderFrom waiting ps = .error e := by
  rcases postorderFrom_cons stack p ps with
    ⟨taken, hp, hrelease, he⟩ | ⟨out, waiting, hreorders, hrest⟩
  · rw [h] at he
    exact .inl ⟨taken, hp, hrelease, Except.error.inj he⟩
  · rw [hrest, emit_eq_error_iff] at h
    exact .inr ⟨out, waiting, hreorders, h⟩

theorem postorderFrom_nil_eq_ok (h : postorderFrom stack [] = .ok instrs) :
    release 0 stack = (instrs, []) := by
  rw [postorderFrom] at h
  split at h
  · next taken hrelease =>
    cases h
    exact hrelease
  · cases h

theorem postorderFrom_nil_eq_error {e : Error} (h : postorderFrom stack [] = .error e) :
    ∃ taken start outer, release 0 stack = (taken, ⟨.group, start⟩ :: outer) ∧
      e = .unbalancedParenthesis start := by
  rw [postorderFrom] at h
  split at h
  · cases h
  · next taken group outer hrelease =>
    cases h
    obtain ⟨_, start⟩ := group
    obtain rfl : _ = Pending.group := eq_group_of_release hrelease
    exact ⟨taken, start, outer, hrelease, rfl⟩

end Pattern

end Acceptors
