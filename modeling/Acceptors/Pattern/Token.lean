import Acceptors.Error

/-!
# Tokens of a pattern

A pattern is read character by character: `|`, `*`, `+` and the parentheses are operators, a
backslash makes the next character a plain symbol, and every other character is a symbol itself.
Each token keeps the offset at which it starts, for error messages.
-/

namespace Acceptors

namespace Pattern

/-- A thing with the offset in the pattern at which it stands (`Spanned`). -/
structure Placed (α : Type) where
  /-- What stands there. -/
  value : α
  /-- The number of characters before it. -/
  offset : Nat
  deriving DecidableEq

/-- A token of a pattern. -/
inductive Token where
  /-- A symbol, written plainly or after a backslash. -/
  | symbol (c : Char)
  /-- The sign of union. -/
  | bar
  /-- Zero or more times. -/
  | star
  /-- One or more times. -/
  | plus
  /-- The begin of a group. -/
  | leftParen
  /-- The end of a group. -/
  | rightParen
  deriving DecidableEq

/-- The token of a character that no backslash precedes (the cases of `tokenize`). -/
def Token.ofChar (c : Char) : Token :=
  if c = '|' then .bar
  else if c = '*' then .star
  else if c = '+' then .plus
  else if c = '(' then .leftParen
  else if c = ')' then .rightParen
  else .symbol c

/-- The characters that are operators where no backslash stands before them. -/
def operatorChars : List Char := ['|', '*', '+', '(', ')']

/-- A character that no backslash precedes is a symbol exactly if it is none of the operators. -/
theorem Token.ofChar_eq_symbol_iff {c : Char} : ofChar c = symbol c ↔ c ∉ operatorChars := by
  unfold ofChar operatorChars
  repeat' split
  all_goals simp_all

/-- The tokens of the characters that follow an offset (the loop of `tokenize`). -/
def tokensFrom (offset : Nat) : List Char → Except Error (List (Placed Token))
  | [] => .ok []
  | '\\' :: [] => .error (.danglingEscape offset)
  | '\\' :: c :: rest => do
    let tokens ← tokensFrom (offset + 2) rest
    return ⟨.symbol c, offset⟩ :: tokens
  | c :: rest => do
    let tokens ← tokensFrom (offset + 1) rest
    return ⟨.ofChar c, offset⟩ :: tokens

/-- The tokens of a pattern (`tokenize`). Only a backslash at the very end is refused. -/
def tokenize (pattern : String) : Except Error (List (Placed Token)) := tokensFrom 0 pattern.toList

end Pattern

end Acceptors
