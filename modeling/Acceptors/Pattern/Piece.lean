import Acceptors.Pattern.Token

/-!
# Patterns without shorthands

Two things are left implicit in a pattern. A plus means its operand followed by the star of its
operand, and two operands that stand side by side are concatenated. Both are written out here, so
that symbols, stars, parentheses and the two binary operators remain.

The operand of a plus is what stands right before it: a symbol or a whole group, with all stars that
follow it.
-/

namespace Acceptors

namespace Pattern

/-- The binary operators. -/
inductive Operator where
  /-- Either operand. -/
  | union
  /-- One operand after the other. -/
  | concat
  deriving DecidableEq

/-- How tightly an operator binds (`precedence`). -/
def Operator.strength : Operator → Nat
  | union => 2
  | concat => 3

/-- A piece of a pattern in which nothing is implicit (the tokens that `expand_plus` leaves). -/
inductive Piece where
  /-- A symbol. -/
  | symbol (c : Char)
  /-- Zero or more times. -/
  | star
  /-- A binary operator between its operands. -/
  | operator (op : Operator)
  /-- The begin of a group. -/
  | leftParen
  /-- The end of a group. -/
  | rightParen
  deriving DecidableEq

/-! ## Plus -/

/-- The end of a group read backwards: all up to the parenthesis that opens the group, where `depth`
    further groups are still to be opened before it (the inner loop of `operand_start`). -/
def groupBefore : (depth : Nat) → List (Placed Piece) → Option (List (Placed Piece))
  | _, [] => none
  | depth, p :: before =>
    match p.value, depth with
    | .leftParen, 0 => some [p]
    | .leftParen, depth + 1 => (groupBefore depth before).map (p :: ·)
    | .rightParen, depth => (groupBefore (depth + 1) before).map (p :: ·)
    | _, depth => (groupBefore depth before).map (p :: ·)

/-- The operand that ends where a plus at `offset` stands (`operand_start`). Both the pieces before
    the plus and the operand are in reverse order. -/
def operandBefore (offset : Nat) (before : List (Placed Piece)) :
    Except Error (List (Placed Piece)) :=
  let (stars, rest) := before.span fun p => p.value = .star
  match rest with
  | [] => .error (.missingOperand offset)
  | p :: earlier =>
    match p.value with
    | .symbol _ => .ok (stars ++ [p])
    | .rightParen =>
      match groupBefore 0 earlier with
      | some group => .ok (stars ++ p :: group)
      | none => .error (.unbalancedParenthesis p.offset)
    | _ => .error (.missingOperand offset)

/-- Writes out each plus; `before` holds what is written so far, in reverse order (the loop of
    `expand_plus`). -/
def expandFrom (before : List (Placed Piece)) :
    List (Placed Token) → Except Error (List (Placed Piece))
  | [] => .ok before.reverse
  | ⟨token, offset⟩ :: rest =>
    match token with
    | .symbol c => expandFrom (⟨.symbol c, offset⟩ :: before) rest
    | .bar => expandFrom (⟨.operator .union, offset⟩ :: before) rest
    | .star => expandFrom (⟨.star, offset⟩ :: before) rest
    | .leftParen => expandFrom (⟨.leftParen, offset⟩ :: before) rest
    | .rightParen => expandFrom (⟨.rightParen, offset⟩ :: before) rest
    | .plus => do
      let operand ← operandBefore offset before
      expandFrom (⟨.star, offset⟩ :: (operand ++ before)) rest

/-- Writes out each plus as its operand followed by the star of its operand (`expand_plus`). -/
def expandPlus (tokens : List (Placed Token)) : Except Error (List (Placed Piece)) :=
  expandFrom [] tokens

/-! ## Concatenation -/

/-- Whether an operand can end with the piece. -/
def Piece.endsOperand : Piece → Bool
  | symbol _ | star | rightParen => true
  | operator _ | leftParen => false

/-- Whether an operand can begin with the piece. -/
def Piece.startsOperand : Piece → Bool
  | symbol _ | leftParen => true
  | star | operator _ | rightParen => false

/-- Puts the sign of concatenation wherever one operand follows another (`insert_concatenation`). -/
def insertConcat : List (Placed Piece) → List (Placed Piece)
  | p :: q :: rest =>
    if p.value.endsOperand && q.value.startsOperand then
      p :: ⟨.operator .concat, q.offset⟩ :: insertConcat (q :: rest)
    else p :: insertConcat (q :: rest)
  | pieces => pieces

end Pattern

end Acceptors
