import Acceptors.Pattern.Piece

/-!
# Postorder

For evaluation the operators have to come after their operands. The pieces are read once from left
to right, with a stack of the operators and the groups that wait for their end. A star stands after
its operand already. A binary operator first releases the waiting operators that bind at least as
tightly, so that operators of one strength group to the left. The end of a group releases all that
waits within it.
-/

namespace Acceptors

namespace Pattern

/-- An element of a pattern in postorder (the tokens that `to_postfix` leaves). -/
inductive Instr where
  /-- The automaton of a symbol. -/
  | symbol (c : Char)
  /-- The star of the last automaton. -/
  | star
  /-- The combination of the last two automata. -/
  | operator (op : Operator)
  deriving DecidableEq

/-- What can wait for its end. -/
inductive Pending where
  /-- An operator whose right operand is not complete. -/
  | operator (op : Operator)
  /-- A group that is open. -/
  | group
  deriving DecidableEq

/-- Takes the operators that bind at least as tightly as `strength` off the stack, as far as the
    next group: what is taken, top first, and what remains. -/
def release (strength : Nat) :
    List (Placed Pending) → List (Placed Instr) × List (Placed Pending)
  | [] => ([], [])
  | ⟨.group, offset⟩ :: stack => ([], ⟨.group, offset⟩ :: stack)
  | ⟨.operator op, offset⟩ :: stack =>
    if strength ≤ op.strength then
      let (taken, rest) := release strength stack
      (⟨.operator op, offset⟩ :: taken, rest)
    else ([], ⟨.operator op, offset⟩ :: stack)

/-- Puts elements before those of a result. -/
def emit (first : List (Placed Instr)) (rest : Except Error (List (Placed Instr))) :
    Except Error (List (Placed Instr)) := rest.map (first ++ ·)

/-- The postorder of the remaining pieces, with what waits on a stack, top first (the loop of
    `to_postfix`). -/
def postorderFrom (stack : List (Placed Pending)) :
    List (Placed Piece) → Except Error (List (Placed Instr))
  | [] =>
    match release 0 stack with
    | (taken, []) => .ok taken
    | (_, unclosed :: _) => .error (.unbalancedParenthesis unclosed.offset)
  | ⟨piece, offset⟩ :: rest =>
    match piece with
    | .symbol c => emit [⟨.symbol c, offset⟩] (postorderFrom stack rest)
    | .star => emit [⟨.star, offset⟩] (postorderFrom stack rest)
    | .operator op =>
      let (taken, waiting) := release op.strength stack
      emit taken (postorderFrom (⟨.operator op, offset⟩ :: waiting) rest)
    | .leftParen => postorderFrom (⟨.group, offset⟩ :: stack) rest
    | .rightParen =>
      match release 0 stack with
      | (taken, _ :: outer) => emit taken (postorderFrom outer rest)
      | (_, []) => .error (.unbalancedParenthesis offset)

/-- The postorder of a pattern in which nothing is implicit (`to_postfix`). A parenthesis without
    its partner is refused. -/
def postorder (pieces : List (Placed Piece)) : Except Error (List (Placed Instr)) :=
  postorderFrom [] pieces

/-- The postorder of a pattern text (the passes of `compile` before `evaluate`). -/
def instructions (pattern : String) : Except Error (List (Placed Instr)) := do
  let tokens ← tokenize pattern
  if tokens.isEmpty then throw .emptyPattern
  let pieces ← expandPlus tokens
  postorder (insertConcat pieces)

end Pattern

end Acceptors
