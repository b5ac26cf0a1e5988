import Acceptors.Proofs.Pattern.Printed

/-!
# Trees and their parentheses

A tree of symbols, stars, concatenations and unions is printed with the parentheses that it needs. A
star binds more tightly than a concatenation, and a concatenation more tightly than a union; the
left operand of an operator may bind as tightly as the operator itself, the right one has to bind
more tightly, since operators of one strength group to the left. Around every subterm there may be
as many more parentheses as one likes. All of them are gone when the pieces are in postorder, and
what is left are the symbols and the operators of the tree, each operator after its operands.

Results:
* `Pattern.Tree.print`: the pieces of a tree.
* `Pattern.Shows.enclose`: needed and other parentheses.
* `Pattern.Tree.shows`: a printed tree is one of the ways to write its expression.
* `Pattern.postorder_print`: the postorder of a printed tree.
-/

namespace Acceptors

namespace Pattern

/-! ## Printing -/

/-- A tree of symbols, stars and binary operators. Each subterm has a number of pairs of parentheses
    that stand around it without need. -/
inductive Tree where
  /-- One symbol. -/
  | symbol (extra : Nat) (c : Char)
  /-- The star of a tree. -/
  | star (extra : Nat) (t : Tree)
  /-- A binary operator and its operands. -/
  | binary (extra : Nat) (op : Operator) (left right : Tree)

/-- The expression of a tree. -/
def Tree.regex : Tree → Regex
  | symbol _ c => .symbol c
  | star _ t => .star t.regex
  | binary _ .union left right => .union left.regex right.regex
  | binary _ .concat left right => .concat left.regex right.regex

/-- The sign of an operator between its operands: a concatenation has none. -/
def Operator.sign : Operator → List Piece
  | union => [.operator .union]
  | concat => []

/-- Pieces in the given number of pairs of parentheses. -/
def enclose : (pairs : Nat) → List Piece → List Piece
  | 0, pieces => pieces
  | pairs + 1, pieces => .leftParen :: enclose pairs pieces ++ [.rightParen]

/-- How many pairs of parentheses a subterm of the given strength needs where it has to bind as
    tightly as `least`. -/
def needed (least strength : Nat) : Nat := if least ≤ strength then 0 else 1

/-- The pieces of a tree where it has to bind as tightly as `least`. -/
def Tree.print : Tree → (least : Nat) → List Piece
  | symbol extra c, _ => enclose extra [.symbol c]
  | star extra t, least => enclose (extra + needed least 4) (t.print 4 ++ [.star])
  | binary extra op left right, least =>
    enclose (extra + needed least op.strength)
      (left.print op.strength ++ op.sign ++ right.print (op.strength + 1))

/-- The pieces, wherever they stand, are a way to write the expression on the given level. -/
def Shows (level : Level) (r : Regex) (pieces : List Piece) : Prop :=
  ∀ ps : List (Placed Piece), ps.map (·.value) = pieces → Prints level r ps

variable {level : Level} {r s : Regex} {pieces left right : List Piece}
variable {least strength pairs : Nat}

/-! ## Levels -/

/-- The loosest level of what binds as tightly as the given strength. -/
def Level.ofStrength (strength : Nat) : Level :=
  if strength ≤ 2 then alternatives else if strength = 3 then sequence else repeated

/-- What is written on the level of a strength is written on those of the lower ones. -/
theorem Shows.mono (h : Shows (.ofStrength strength) r pieces) (hle : least ≤ strength) :
    Shows (.ofStrength least) r pieces := by
  intro ps hps
  have hprints := h ps hps
  unfold Level.ofStrength at hprints ⊢
  split at hprints
  · rwa [if_pos (by omega)]
  split at hprints
  · split
    · exact .ofSequence hprints
    · rwa [if_pos (by omega)]
  · split
    · exact .ofSequence (.ofRepeated hprints)
    split
    · exact .ofRepeated hprints
    · exact hprints

/-- An atom is written on all of these levels. -/
theorem Shows.ofAtom (h : Shows .atom r pieces) (least : Nat) :
    Shows (.ofStrength least) r pieces := by
  intro ps hps
  have hprints := Prints.ofAtom (h ps hps)
  unfold Level.ofStrength
  split
  · exact .ofSequence (.ofRepeated hprints)
  split
  · exact .ofRepeated hprints
  · exact hprints

/-! ## Pieces of a tree -/

theorem shows_symbol (c : Char) : Shows .atom (.symbol c) [.symbol c] := by
  intro ps hps
  obtain ⟨⟨_, offset⟩, rest, rfl, rfl, hrest⟩ := List.map_eq_cons_iff.1 hps
  obtain rfl := List.map_eq_nil_iff.1 hrest
  exact .symbol c offset

theorem Shows.star (h : Shows .repeated r pieces) :
    Shows .repeated (.star r) (pieces ++ [.star]) := by
  intro ps hps
  obtain ⟨front, last, rfl, hfront, hlast⟩ := List.map_eq_append_iff.1 hps
  obtain ⟨⟨_, offset⟩, rest, rfl, rfl, hrest⟩ := List.map_eq_cons_iff.1 hlast
  obtain rfl := List.map_eq_nil_iff.1 hrest
  exact .star offset (h front hfront)

theorem Shows.concat (hleft : Shows .sequence r left) (hright : Shows .repeated s right) :
    Shows .sequence (.concat r s) (left ++ right) := by
  intro ps hps
  obtain ⟨front, last, rfl, hfront, hlast⟩ := List.map_eq_append_iff.1 hps
  exact .append (hleft front hfront) (hright last hlast)

theorem Shows.union (hleft : Shows .alternatives r left) (hright : Shows .sequence s right) :
    Shows .alternatives (.union r s) (left ++ .operator .union :: right) := by
  intro ps hps
  obtain ⟨front, last, rfl, hfront, hlast⟩ := List.map_eq_append_iff.1 hps
  obtain ⟨⟨_, offset⟩, rest, rfl, rfl, hrest⟩ := List.map_eq_cons_iff.1 hlast
  exact .bar offset (hleft front hfront) (hright rest hrest)

theorem Shows.group (h : Shows .alternatives r pieces) :
    Shows .atom r (.leftParen :: pieces ++ [.rightParen]) := by
  intro ps hps
  rw [List.cons_append] at hps
  obtain ⟨⟨_, left⟩, rest, rfl, rfl, hrest⟩ := List.map_eq_cons_iff.1 hps
  obtain ⟨inner, closing, rfl, hinner, hclosing⟩ := List.map_eq_append_iff.1 hrest
  obtain ⟨⟨_, right⟩, nothing, rfl, rfl, hnothing⟩ := List.map_eq_cons_iff.1 hclosing
  obtain rfl := List.map_eq_nil_iff.1 hnothing
  exact .group left right (h inner hinner)

/-- In parentheses, what is written on any of the levels is an atom. -/
theorem Shows.enclose_succ (h : Shows (.ofStrength strength) r pieces) (pairs : Nat) :
    Shows .atom r (enclose (pairs + 1) pieces) := by
  induction pairs with
  | zero => exact (h.mono (Nat.zero_le strength)).group
  | succ pairs ih => exact (ih.ofAtom 0).group

/-- With the parentheses that it needs and any more, a part is written where it has to bind as
    tightly as `least`. -/
theorem Shows.enclose (h : Shows (.ofStrength strength) r pieces) (extra least : Nat) :
    Shows (.ofStrength least) r (Pattern.enclose (extra + needed least strength) pieces) := by
  cases hpairs : extra + needed least strength with
  | zero =>
    refine h.mono ?_
    by_contra hlt
    rw [needed, if_neg hlt] at hpairs
    omega
  | succ pairs => exact (h.enclose_succ pairs).ofAtom least

/-! ## The postorder of a tree -/

/-- A printed tree is a way to write its expression. -/
theorem Tree.shows (t : Tree) (least : Nat) :
    Shows (.ofStrength least) t.regex (t.print least) := by
  induction t generalizing least with
  | symbol extra c =>
    cases extra with
    | zero => exact (shows_symbol c).ofAtom least
    | succ extra => exact ((shows_symbol c).ofAtom 0).enclose_succ extra |>.ofAtom least
  | star extra t ih =>
    have hstar : Shows (.ofStrength 4) (.star t.regex) _ := (ih 4).star
    exact hstar.enclose extra least
  | binary extra op left right ih ih' =>
    cases op with
    | union =>
      have hunion : Shows (.ofStrength 2) (.union left.regex right.regex) _ :=
        (ih 2).union (ih' 3)
      rw [Tree.print, Operator.sign, List.append_assoc]
      exact hunion.enclose extra least
    | concat =>
      have hconcat : Shows (.ofStrength 3) (.concat left.regex right.regex) _ :=
        (ih 3).concat (ih' 4)
      rw [Tree.print, Operator.sign, List.append_nil]
      exact hconcat.enclose extra least

/-- Concatenation is made explicit and the pieces are reordered, and the result is the postorder of
    the tree: the elements of the left operand, those of the right one, and the operator. Neither
    the parentheses that were needed nor the others leave a trace. -/
theorem postorder_print (t : Tree) (ps : List (Placed Piece))
    (hps : ps.map (·.value) = t.print 0) :
    ∃ instrs, postorder (insertConcat ps) = .ok instrs ∧
      instrs.map (·.value) = t.regex.postorder := by
  have hprints : Prints .alternatives t.regex ps := t.shows 0 ps hps
  exact hprints.postorder

/-- A union on the right of a union, in the left operand of a concatenation whose right one is a
    star, under needed and other parentheses. -/
theorem postorder_print_nested :
    let t : Tree := .binary 1 .concat
      (.binary 0 .union (.symbol 0 'a') (.binary 0 .union (.symbol 2 'b') (.symbol 0 'c')))
      (.star 0 (.binary 1 .concat (.symbol 0 'd') (.star 0 (.symbol 0 'e'))))
    let ps := ((tokenize "((a|(((b))|c))((de*))*)").bind expandPlus).toOption.getD []
    ps.map (·.value) = t.print 0 ∧ ∃ instrs, postorder (insertConcat ps) = .ok instrs ∧
      instrs.map (·.value) = [.symbol 'a', .symbol 'b', .symbol 'c', .operator .union,
        .operator .union, .symbol 'd', .symbol 'e', .star, .operator .concat, .star,
        .operator .concat] := by
  intro t ps
  have hps : ps.map (·.value) = t.print 0 := by decide
  exact ⟨hps, postorder_print t ps hps⟩

end Pattern

end Acceptors
