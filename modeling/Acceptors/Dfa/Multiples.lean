import Acceptors.Dfa.Basic

/-!
# Multiples of a number

The numerals of a base, most significant digit first, that denote a multiple of a fixed number form
a regular language: it is enough to remember the remainder of what was read. State `i` of the
automaton means that the digits read so far leave the remainder `i`, and another digit `d` leads to
the remainder of `i * base + d`.
-/

namespace Acceptors

/-- The sixteen digits, in the order of their values (`DIGITS`). -/
def digits : List String :=
  ["0", "1", "2", "3", "4", "5", "6", "7", "8", "9", "A", "B", "C", "D", "E", "F"]

/-- The digits of a base up to sixteen. -/
def Alphabet.digits (base : Nat) : Alphabet where
  symbols := Acceptors.digits.take base
  nodup := (List.take_sublist base Acceptors.digits).nodup (by decide)

namespace Dfa

/-- The automaton of the remainders modulo `number` on the digits of `base`; the remainder zero, and
    with it the empty numeral, is accepted (the table of `multiples_of`). -/
def remainders (number base : Nat) : Dfa :=
  ofFn (Alphabet.digits base) (.numbered "S" number)
    (fun remainder digit => some ((remainder * base + digit) % number)) 0 (.single 0)

/-- The numerals of a base that denote multiples of a number (`multiples_of`). The number must not
    be zero, and the base must be between two and sixteen. -/
def multiplesOf (number base : Nat) : Except Error Dfa :=
  if number = 0 then .error .zeroNumber
  else if base < 2 ∨ 16 < base then .error (.baseOutOfRange base)
  else .ok (remainders number base)

end Dfa

end Acceptors
