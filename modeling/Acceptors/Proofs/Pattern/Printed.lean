import Mathlib.Tactic.Common
import Acceptors.Pattern.Postorder
import Acceptors.Pattern.Regex

/-!
# Printed expressions and their postorder

A regular expression without pluses is printed as pieces, with parentheses where the strength or the
grouping of the operators asks for them and with any further ones. Whatever way it is printed, the
signs of concatenation are found and the postorder of the pieces is the postorder of the expression.

While the operators wait on the stack, those that a printed part has left there are its own: they
are the last ones to be released before anything that waited earlier. How tightly they bind is
bounded by the level on which the part is printed, so that the next operator releases all of them.

Results:
* `Pattern.insertConcat_append`: concatenation is made explicit part by part.
* `Pattern.Leaves`, `Pattern.Prints.leaves`: what reading a printed part does to the stack and to
  the output.
* `Pattern.Prints.postorder`: the postorder of a printed expression.
-/

namespace Acceptors

namespace Pattern

/-- `Prints level r pieces`: on the given level, the pieces are a way to write the expression
    `r`. -/
inductive Prints : Level → Regex → List (Placed Piece) → Prop
  | symbol (c : Char) (offset : Nat) : Prints .atom (.symbol c) [⟨.symbol c, offset⟩]
  | group {r : Regex} {ps : List (Placed Piece)} (left right : Nat) :
      Prints .alternatives r ps →
        Prints .atom r (⟨.leftParen, left⟩ :: ps ++ [⟨.rightParen, right⟩])
  | ofAtom {r : Regex} {ps : List (Placed Piece)} : Prints .atom r ps → Prints .repeated r ps
  | star {r : Regex} {ps : List (Placed Piece)} (offset : Nat) :
      Prints .repeated r ps → Prints .repeated (.star r) (ps ++ [⟨.star, offset⟩])
  | ofRepeated {r : Regex} {ps : List (Placed Piece)} :
      Prints .repeated r ps → Prints .sequence r ps
  | append {r s : Regex} {ps qs : List (Placed Piece)} :
      Prints .sequence r ps → Prints .repeated s qs → Prints .sequence (.concat r s) (ps ++ qs)
  | ofSequence {r : Regex} {ps : List (Placed Piece)} :
      Prints .sequence r ps → Prints .alternatives r ps
  | bar {r s : Regex} {ps qs : List (Placed Piece)} (offset : Nat) :
      Prints .alternatives r ps → Prints .sequence s qs →
        Prints .alternatives (.union r s) (ps ++ ⟨.operator .union, offset⟩ :: qs)

end Pattern

/-- The elements of an expression, each operator after its operands. A plus is its operand followed
    by the star of its operand. -/
def Regex.postorder : Regex → List Pattern.Instr
  | symbol c => [.symbol c]
  | union r s => r.postorder ++ s.postorder ++ [.operator .union]
  | concat r s => r.postorder ++ s.postorder ++ [.operator .concat]
  | star r => r.postorder ++ [.star]
  | plus r => r.postorder ++ (r.postorder ++ [.star]) ++ [.operator .concat]

namespace Pattern

variable {level : Level} {r : Regex} {ps qs : List (Placed Piece)}

/-! ## Where concatenation goes -/

/-- A printed part begins with a symbol or a parenthesis and ends with an operand. -/
theorem Prints.ends (h : Prints level r ps) :
    (∃ p rest, ps = p :: rest ∧ p.value.startsOperand = true) ∧
      ∃ front q, ps = front ++ [q] ∧ q.value.endsOperand = true := by
  induction h with
  | symbol c offset => exact ⟨⟨_, [], rfl, rfl⟩, [], _, rfl, rfl⟩
  | group left right _ _ => exact ⟨⟨_, _, rfl, rfl⟩, _ :: _, _, rfl, rfl⟩
  | ofAtom _ ih | ofRepeated _ ih | ofSequence _ ih => exact ih
  | star offset _ ih =>
    obtain ⟨⟨p, rest, rfl, hp⟩, -⟩ := ih
    exact ⟨⟨p, rest ++ _, rfl, hp⟩, p :: rest, _, rfl, rfl⟩
  | append _ _ ih ih' =>
    obtain ⟨⟨p, rest, rfl, hp⟩, -⟩ := ih
    obtain ⟨-, front, q, rfl, hq⟩ := ih'
    exact ⟨⟨p, rest ++ (front ++ [q]), rfl, hp⟩, p :: rest ++ front, q, by simp, hq⟩
  | bar offset _ _ ih ih' =>
    obtain ⟨⟨p, rest, rfl, hp⟩, -⟩ := ih
    obtain ⟨-, front, q, rfl, hq⟩ := ih'
    refine ⟨⟨p, rest ++ ⟨.operator .union, offset⟩ :: (front ++ [q]), rfl, hp⟩,
      p :: rest ++ ⟨.operator .union, offset⟩ :: front, q, by simp, hq⟩

/-- The sign of concatenation between two pieces, if it goes there. -/
def concatBetween (p q : Placed Piece) : List (Placed Piece) :=
  if p.value.endsOperand && q.value.startsOperand then [⟨.operator .concat, q.offset⟩] else []

theorem insertConcat_cons_cons (p q : Placed Piece) (rest : List (Placed Piece)) :
    insertConcat (p :: q :: rest) = p :: (concatBetween p q ++ insertConcat (q :: rest)) := by
  rw [insertConcat, concatBetween]
  split <;> rfl

/-- Concatenation is made explicit in each of two parts, and between them. -/
theorem insertConcat_append (front : List (Placed Piece)) (p q : Placed Piece)
    (rest : List (Placed Piece)) :
    insertConcat (front ++ [p] ++ q :: rest) =
      insertConcat (front ++ [p]) ++ concatBetween p q ++ insertConcat (q :: rest) := by
  induction front with
  | nil => exact insertConcat_cons_cons p q rest
  | cons x front ih =>
    cases front with
    | nil =>
      simp only [List.nil_append, List.cons_append] at ih ⊢
      rw [insertConcat_cons_cons x p, ih, insertConcat_cons_cons x p]
      simp [insertConcat]
    | cons y front =>
      simp only [List.cons_append] at ih ⊢
      rw [insertConcat_cons_cons, ih, insertConcat_cons_cons]
      simp

/-- Between two printed parts side by side there is a sign of concatenation. -/
theorem Prints.insertConcat_append {level' : Level} {s : Regex} (hr : Prints level r ps)
    (hs : Prints level' s qs) :
    ∃ offset, insertConcat (ps ++ qs) =
      insertConcat ps ++ ⟨.operator .concat, offset⟩ :: insertConcat qs := by
  obtain ⟨-, front, p, rfl, hp⟩ := hr.ends
  obtain ⟨⟨q, rest, rfl, hq⟩, -⟩ := hs.ends
  refine ⟨q.offset, ?_⟩
  rw [Pattern.insertConcat_append, concatBetween, hp, hq]
  simp

/-- A piece that no operand can begin with is not preceded by a sign of concatenation. -/
theorem Prints.insertConcat_append_cons (hr : Prints level r ps) {q : Placed Piece}
    (hq : q.value.startsOperand = false) (rest : List (Placed Piece)) :
    insertConcat (ps ++ q :: rest) = insertConcat ps ++ insertConcat (q :: rest) := by
  obtain ⟨-, front, p, rfl, -⟩ := hr.ends
  rw [Pattern.insertConcat_append, concatBetween, hq]
  simp

/-- A piece that no operand can end with is not followed by a sign of concatenation. -/
theorem insertConcat_cons {p : Placed Piece} (hp : p.value.endsOperand = false)
    (rest : List (Placed Piece)) : insertConcat (p :: rest) = p :: insertConcat rest := by
  cases rest with
  | nil => rfl
  | cons q rest =>
    rw [insertConcat_cons_cons, concatBetween, hp]
    rfl

/-! ## The stack of waiting operators -/

/-- An operator that waits, as an element of the output. -/
def Operator.instr (op : Placed Operator) : Placed Instr := ⟨.operator op.value, op.offset⟩

/-- An operator that waits, as an element of the stack. -/
def Operator.pending (op : Placed Operator) : Placed Pending := ⟨.operator op.value, op.offset⟩

/-- How tightly the operators bind that a part printed on a level leaves waiting, at the least. -/
def Level.strength : Level → Nat
  | alternatives => 2
  | sequence => 3
  | repeated | atom => 4

/-- Nothing on the stack is released by an operator of the given strength. -/
def Holds (strength : Nat) (stack : List (Placed Pending)) : Prop :=
  release strength stack = ([], stack)

theorem Holds.mono {strength strength' : Nat} {stack : List (Placed Pending)}
    (hle : strength ≤ strength') (h : Holds strength stack) : Holds strength' stack := by
  match stack with
  | [] => rfl
  | ⟨.group, offset⟩ :: stack => rfl
  | ⟨.operator op, offset⟩ :: stack =>
    rw [Holds, release] at h ⊢
    split at h
    · cases h
    · rw [if_neg (by omega)]

theorem holds_group (strength offset : Nat) (stack : List (Placed Pending)) :
    Holds strength (⟨.group, offset⟩ :: stack) := rfl

theorem holds_operator {strength offset : Nat} {op : Operator} {stack : List (Placed Pending)}
    (h : op.strength < strength) : Holds strength (⟨.operator op, offset⟩ :: stack) := by
  rw [Holds, release, if_neg (by omega)]

/-- Waiting operators that bind tightly enough are released, and nothing below them is. -/
theorem release_append (strength : Nat) (ops : List (Placed Operator))
    (stack : List (Placed Pending)) (hops : ∀ op ∈ ops, strength ≤ op.value.strength)
    (hstack : Holds strength stack) :
    release strength (ops.map Operator.pending ++ stack) = (ops.map Operator.instr, stack) := by
  induction ops with
  | nil => exact hstack
  | cons op ops ih =>
    obtain ⟨hop, hops⟩ := List.forall_mem_cons.1 hops
    rw [List.map_cons, List.cons_append, Operator.pending, release, if_pos hop, ih hops]
    rfl

theorem emit_emit (first second : List (Placed Instr)) (rest : Except Error (List (Placed Instr))) :
    emit first (emit second rest) = emit (first ++ second) rest := by
  cases rest with
  | error e => rfl
  | ok instrs => simp [emit, Except.map]

/-- An operator releases those that wait and bind at least as tightly, and waits in turn. -/
theorem postorderFrom_operator (op : Operator) {ops : List (Placed Operator)}
    {stack : List (Placed Pending)} (hops : ∀ o ∈ ops, op.strength ≤ o.value.strength)
    (hstack : Holds op.strength stack) (offset : Nat) (rest : List (Placed Piece)) :
    postorderFrom (ops.map Operator.pending ++ stack) (⟨.operator op, offset⟩ :: rest) =
      emit (ops.map Operator.instr) (postorderFrom (⟨.operator op, offset⟩ :: stack) rest) := by
  rw [postorderFrom, release_append op.strength ops stack hops hstack]

/-- No operator binds as tightly as a star. -/
theorem eq_nil_of_four_le {ops : List (Placed Operator)}
    (hops : ∀ op ∈ ops, 4 ≤ op.value.strength) : ops = [] := by
  rw [List.eq_nil_iff_forall_not_mem]
  rintro ⟨op, offset⟩ hop
  have := hops _ hop
  cases op <;> simp [Operator.strength] at this

/-! ## Parts that are read -/

/-- `Leaves level r pieces`: on a stack of which an operator of the level releases nothing, reading
    the pieces puts out the postorder of `r`, up to some operators that bind at least as tightly as
    the level and are left waiting. -/
def Leaves (level : Level) (r : Regex) (pieces : List (Placed Piece)) : Prop :=
  ∀ stack, Holds level.strength stack →
    ∃ (out : List (Placed Instr)) (ops : List (Placed Operator)),
      (∀ op ∈ ops, level.strength ≤ op.value.strength) ∧
      (out ++ ops.map Operator.instr).map (·.value) = r.postorder ∧
      ∀ rest, postorderFrom stack (pieces ++ rest) =
        emit out (postorderFrom (ops.map Operator.pending ++ stack) rest)

theorem leaves_symbol (c : Char) (offset : Nat) :
    Leaves .atom (.symbol c) [⟨.symbol c, offset⟩] := fun _ _ =>
  ⟨[⟨.symbol c, offset⟩], [], by simp, rfl, fun _ => rfl⟩

theorem Leaves.mono {level' : Level} (hle : level'.strength ≤ level.strength)
    (h : Leaves level r ps) : Leaves level' r ps := by
  intro stack hstack
  obtain ⟨out, ops, hops, hout, hread⟩ := h stack (hstack.mono hle)
  exact ⟨out, ops, fun op hop => Nat.le_trans hle (hops op hop), hout, hread⟩

/-- The closing parenthesis of a group puts out all that waits since the opening one. -/
theorem Leaves.group (h : Leaves .alternatives r ps) (left right : Nat) :
    Leaves .atom r (⟨.leftParen, left⟩ :: (ps ++ [⟨.rightParen, right⟩])) := by
  intro stack _
  obtain ⟨out, ops, hops, hout, hread⟩ :=
    h (⟨.group, left⟩ :: stack) (holds_group _ left stack)
  refine ⟨out ++ ops.map Operator.instr, [], by simp, by simpa using hout, fun rest => ?_⟩
  have hrelease := release_append 0 ops (⟨.group, left⟩ :: stack) (fun _ _ => Nat.zero_le _)
    (holds_group 0 left stack)
  rw [List.cons_append, postorderFrom, List.append_assoc, hread, List.cons_append, postorderFrom,
    hrelease, emit_emit]
  rfl

/-- A star is put out at once: no operator of its operand waits. -/
theorem Leaves.star (h : Leaves .repeated r ps) (offset : Nat) :
    Leaves .repeated (.star r) (ps ++ [⟨.star, offset⟩]) := by
  intro stack hstack
  obtain ⟨out, ops, hops, hout, hread⟩ := h stack hstack
  obtain rfl := eq_nil_of_four_le hops
  refine ⟨out ++ [⟨.star, offset⟩], [], by simp, ?_, fun rest => ?_⟩
  · simpa [Regex.postorder] using hout
  · rw [List.append_assoc, hread, ← emit_emit]
    rfl

/-- An operator waits for its right operand, whose operators bind more tightly. -/
theorem Leaves.operator {level' : Level} {s t : Regex} (hr : Leaves level r ps)
    (hs : Leaves level' s qs) {op : Operator} (hlevel : op.strength = level.strength)
    (hlt : op.strength < level'.strength) (offset : Nat)
    (ht : t.postorder = r.postorder ++ s.postorder ++ [.operator op]) :
    Leaves level t (ps ++ ⟨.operator op, offset⟩ :: qs) := by
  intro stack hstack
  obtain ⟨out, ops, hops, hout, hread⟩ := hr stack hstack
  obtain ⟨out', ops', hops', hout', hread'⟩ :=
    hs (⟨.operator op, offset⟩ :: stack) (holds_operator hlt)
  rw [← hlevel] at hops hstack
  refine ⟨out ++ ops.map Operator.instr ++ out', ops' ++ [⟨op, offset⟩], ?_, ?_, fun rest => ?_⟩
  · intro o ho
    rw [← hlevel]
    rcases List.mem_append.1 ho with ho | ho
    · exact Nat.le_of_lt (Nat.lt_of_lt_of_le hlt (hops' o ho))
    · obtain rfl := List.mem_singleton.1 ho
      exact Nat.le_refl _
  · rw [ht, ← hout, ← hout']
    simp [Operator.instr]
  · rw [List.append_assoc, hread, List.cons_append, postorderFrom_operator op hops hstack, hread',
      emit_emit, emit_emit, List.map_append, List.append_assoc (ops'.map _)]
    simp only [List.append_assoc]
    rfl

/-- A printed part, with concatenation made explicit, is read on its level. -/
theorem Prints.leaves (h : Prints level r ps) : Leaves level r (insertConcat ps) := by
  induction h with
  | symbol c offset => exact leaves_symbol c offset
  | group left right h ih =>
    rw [List.cons_append, insertConcat_cons rfl, h.insertConcat_append_cons rfl]
    exact ih.group left right
  | ofAtom _ ih => exact ih
  | star offset h ih =>
    rw [h.insertConcat_append_cons rfl]
    exact ih.star offset
  | ofRepeated _ ih | ofSequence _ ih => exact ih.mono (by decide)
  | append hr hs ih ih' =>
    obtain ⟨offset, hjoin⟩ := hr.insertConcat_append hs
    rw [hjoin]
    exact ih.operator ih' rfl (by decide) offset rfl
  | bar offset hr hs ih ih' =>
    rw [hr.insertConcat_append_cons rfl, insertConcat_cons rfl]
    exact ih.operator ih' rfl (by decide) offset rfl

/-- The postorder of a printed expression is found, and is that of the expression. -/
theorem Prints.postorder (h : Prints .alternatives r ps) :
    ∃ instrs, postorder (insertConcat ps) = .ok instrs ∧ instrs.map (·.value) = r.postorder := by
  obtain ⟨out, ops, -, hout, hread⟩ := h.leaves [] rfl
  refine ⟨out ++ ops.map Operator.instr, ?_, hout⟩
  have hrelease := release_append 0 ops [] (fun _ _ => Nat.zero_le _) rfl
  have hread := hread []
  rw [List.append_nil, List.append_nil] at hread
  rw [List.append_nil] at hrelease
  rw [Pattern.postorder, hread, Pattern.postorderFrom, hrelease]
  rfl

end Pattern

end Acceptors
