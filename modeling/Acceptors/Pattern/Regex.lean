import Acceptors.Pattern.Token

/-!
# Regular expressions

A pattern denotes a regular expression, and a regular expression a set of words. Star and plus bind
tighter than concatenation, and concatenation tighter than union; concatenation and union group to
the left. A text is written on one of four levels, each of which allows what the one below it does.
-/

namespace Acceptors

/-- A regular expression over characters. -/
inductive Regex where
  /-- One symbol. -/
  | symbol (c : Char)
  /-- Either expression. -/
  | union (r s : Regex)
  /-- One expression after the other. -/
  | concat (r s : Regex)
  /-- Zero or more times. -/
  | star (r : Regex)
  /-- One or more times. -/
  | plus (r : Regex)
  deriving DecidableEq

namespace Regex

/-- `r.Matches w`: the word `w` belongs to the expression `r`. -/
inductive Matches : Regex → List String → Prop
  | symbol (c : Char) : Matches (.symbol c) [String.singleton c]
  | unionLeft {r s : Regex} {w : List String} : Matches r w → Matches (.union r s) w
  | unionRight {r s : Regex} {w : List String} : Matches s w → Matches (.union r s) w
  | concat {r s : Regex} {v w : List String} :
      Matches r v → Matches s w → Matches (.concat r s) (v ++ w)
  | starNil (r : Regex) : Matches (.star r) []
  | starAppend {r : Regex} {v w : List String} :
      Matches r v → Matches (.star r) w → Matches (.star r) (v ++ w)
  | plus {r : Regex} {v w : List String} :
      Matches r v → Matches (.star r) w → Matches (.plus r) (v ++ w)

end Regex

namespace Pattern

/-- The levels of a written pattern, from the loosest to the tightest. -/
inductive Level where
  /-- Alternatives between bars. -/
  | alternatives
  /-- Operands side by side. -/
  | sequence
  /-- An operand with stars and pluses after it. -/
  | repeated
  /-- A symbol or a group. -/
  | atom
  deriving DecidableEq

/-- `Writes level r cs`: on the given level, the text `cs` is a way to write the expression `r`. -/
inductive Writes : Level → Regex → List Char → Prop
  | plain {c : Char} : c ≠ '\\' → c ∉ operatorChars → Writes .atom (.symbol c) [c]
  | escaped (c : Char) : Writes .atom (.symbol c) ['\\', c]
  | group {r : Regex} {cs : List Char} :
      Writes .alternatives r cs → Writes .atom r ('(' :: cs ++ [')'])
  | ofAtom {r : Regex} {cs : List Char} : Writes .atom r cs → Writes .repeated r cs
  | star {r : Regex} {cs : List Char} :
      Writes .repeated r cs → Writes .repeated (.star r) (cs ++ ['*'])
  | plus {r : Regex} {cs : List Char} :
      Writes .repeated r cs → Writes .repeated (.plus r) (cs ++ ['+'])
  | ofRepeated {r : Regex} {cs : List Char} : Writes .repeated r cs → Writes .sequence r cs
  | append {r s : Regex} {cs ds : List Char} :
      Writes .sequence r cs → Writes .repeated s ds → Writes .sequence (.concat r s) (cs ++ ds)
  | ofSequence {r : Regex} {cs : List Char} : Writes .sequence r cs → Writes .alternatives r cs
  | bar {r s : Regex} {cs ds : List Char} :
      Writes .alternatives r cs → Writes .sequence s ds →
        Writes .alternatives (.union r s) (cs ++ '|' :: ds)

end Pattern

end Acceptors
