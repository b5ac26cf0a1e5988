import Acceptors.Proofs.Pattern.Grammatical

/-!
# Passes over one kind of sign

The passes of the compiler hand on tokens, then pieces among which no plus is left, and at last
elements among which no parenthesis is left either. A compiler need not tell them apart. Here every
pass takes signs of one and the same kind and yields signs of this kind, and whatever evaluation
meets it has to answer for, also a plus or a parenthesis. The passes go about their work by hand:
what they write is put at the end of an output, the operand of a plus is looked for by indices into
it, and operators are popped off a stack of signs one by one.

Both ways give the same. As elements are among the signs but no plus and no parenthesis is one of
them, evaluation never meets any.

Results:
* `Pattern.operandStart_eq`: the index of the operand of a plus.
* `Pattern.expandSigns_eq`, `Pattern.separateSigns_eq`, `Pattern.shuntSigns_eq`: the passes, one by
  one.
* `Pattern.postfixSigns_eq`, `Pattern.evaluable_of_postfixSigns`: all of them, and what comes out.
* `Compiler.compileSigns_eq`: a pattern is compiled to the same automaton, or refused for the same
  reason.
-/

namespace Acceptors

namespace Pattern

/-! ## Signs -/

/-- A sign of a pattern, whichever pass it occurs in (`Token`). -/
inductive Sign where
  /-- A symbol. -/
  | symbol (c : Char)
  /-- Either operand. -/
  | union
  /-- Zero or more times. -/
  | star
  /-- One or more times. -/
  | plus
  /-- One operand after the other. -/
  | concat
  /-- The begin of a group. -/
  | leftParen
  /-- The end of a group. -/
  | rightParen
  deriving DecidableEq

namespace Sign

/-- How tightly a sign binds (`precedence`). -/
def precedence : Sign → Nat
  | union => 2
  | concat => 3
  | star | plus => 4
  | symbol _ | leftParen | rightParen => 0

/-- Whether an operand can end with the sign. -/
def endsOperand : Sign → Bool
  | symbol _ | rightParen | star => true
  | union | plus | concat | leftParen => false

/-- Whether an operand can begin with the sign. -/
def startsOperand : Sign → Bool
  | symbol _ | leftParen => true
  | union | star | plus | concat | rightParen => false

/-- Whether the sign can be evaluated. -/
def Evaluable : Sign → Prop
  | symbol _ | union | star | concat => True
  | plus | leftParen | rightParen => False

end Sign

/-- The sign of a token. -/
def Token.toSign : Token → Sign
  | symbol c => .symbol c
  | bar => .union
  | star => .star
  | plus => .plus
  | leftParen => .leftParen
  | rightParen => .rightParen

/-- The sign of an operator. -/
def Operator.toSign : Operator → Sign
  | union => .union
  | concat => .concat

/-- The sign of a piece. -/
def Piece.toSign : Piece → Sign
  | symbol c => .symbol c
  | star => .star
  | operator op => op.toSign
  | leftParen => .leftParen
  | rightParen => .rightParen

/-- The sign of what waits. -/
def Pending.toSign : Pending → Sign
  | operator op => op.toSign
  | group => .leftParen

/-- The sign of an element in postorder. -/
def Instr.toSign : Instr → Sign
  | symbol c => .symbol c
  | star => .star
  | operator op => op.toSign

/-- The signs of some things, each in its place. -/
def signs {α : Type} (sign : α → Sign) (things : List (Placed α)) : List (Placed Sign) :=
  things.map fun thing => ⟨sign thing.value, thing.offset⟩

section Signs

variable {α : Type} (sign : α → Sign)

@[simp] theorem signs_nil : signs sign [] = [] := rfl

@[simp] theorem signs_cons (thing : Placed α) (rest : List (Placed α)) :
    signs sign (thing :: rest) = ⟨sign thing.value, thing.offset⟩ :: signs sign rest := rfl

@[simp] theorem signs_append (front back : List (Placed α)) :
    signs sign (front ++ back) = signs sign front ++ signs sign back := List.map_append

@[simp] theorem length_signs (things : List (Placed α)) :
    (signs sign things).length = things.length := List.length_map _

end Signs

/-! ## Passes over signs -/

/-- How many of the first `stop` signs remain when the stars at their end are left out. -/
def beforeStars (out : List (Placed Sign)) : (stop : Nat) → Nat
  | 0 => 0
  | stop + 1 => if out[stop]?.any (·.value = .star) then beforeStars out stop else stop + 1

/-- Goes backwards from `stop` to the parenthesis that opens the outermost group, where `depth`
    groups are to be opened. -/
def openingBelow (out : List (Placed Sign)) : (stop depth : Nat) → Option Nat
  | 0, _ => none
  | index + 1, depth =>
    match out[index]? with
    | some ⟨.rightParen, _⟩ => openingBelow out index (depth + 1)
    | some ⟨.leftParen, _⟩ =>
      -- the first sign that is looked at ends a group, so that some group is to be opened here
      if depth - 1 = 0 then some index else openingBelow out index (depth - 1)
    | _ => openingBelow out index depth

/-- Where the operand begins that ends with the last sign before a plus at `offset`
    (`operand_start`). -/
def operandStart (out : List (Placed Sign)) (offset : Nat) : Except Error Nat :=
  match beforeStars out out.length with
  | 0 => .error (.missingOperand offset)
  | last + 1 =>
    match out[last]? with
    | some ⟨.symbol _, _⟩ => .ok last
    | some ⟨.rightParen, right⟩ =>
      match openingBelow out (last + 1) 0 with
      | some start => .ok start
      | none => .error (.unbalancedParenthesis right)
    | _ => .error (.missingOperand offset)

/-- Puts a sign at the end of the output; for a plus this is a copy of its operand, and a star. -/
def expandSign (out : List (Placed Sign)) (s : Placed Sign) : Except Error (List (Placed Sign)) :=
  if s.value = .plus then do
    let start ← operandStart out s.offset
    return out ++ out.drop start ++ [⟨.star, s.offset⟩]
  else return out ++ [s]

/-- Writes out each plus (`expand_plus`). -/
def expandSigns (tokens : List (Placed Sign)) : Except Error (List (Placed Sign)) :=
  tokens.foldlM expandSign []

/-- Puts a sign at the end of the output, behind a sign of concatenation if one goes there. -/
def separateSign (out : List (Placed Sign)) (s : Placed Sign) : List (Placed Sign) :=
  match out.getLast? with
  | some previous =>
    if previous.value.endsOperand && s.value.startsOperand then out ++ [⟨.concat, s.offset⟩, s]
    else out ++ [s]
  | none => out ++ [s]

/-- Puts the sign of concatenation wherever one operand follows another
    (`insert_concatenation`). -/
def separateSigns (tokens : List (Placed Sign)) : List (Placed Sign) :=
  tokens.foldl separateSign []

/-- What reordering has put out, and what waits, top first. -/
structure Yard where
  /-- The output. -/
  output : List (Placed Sign) := []
  /-- The stack. -/
  operators : List (Placed Sign) := []

/-- Pops what binds at least as tightly as `precedence`, as far as the next group. -/
def popTighter (precedence : Nat) (output : List (Placed Sign)) : List (Placed Sign) → Yard
  | [] => ⟨output, []⟩
  | top :: rest =>
    if top.value = .leftParen ∨ top.value.precedence < precedence then ⟨output, top :: rest⟩
    else popTighter precedence (output ++ [top]) rest

/-- Pops all up to the begin of the last group, and this too. -/
def popGroup (output : List (Placed Sign)) : List (Placed Sign) → Option Yard
  | [] => none
  | top :: rest =>
    if top.value = .leftParen then some ⟨output, rest⟩ else popGroup (output ++ [top]) rest

/-- Pops all that is left, none of which may be the begin of a group. -/
def popAll (output : List (Placed Sign)) :
    List (Placed Sign) → Except Error (List (Placed Sign))
  | [] => .ok output
  | top :: rest =>
    if top.value = .leftParen then .error (.unbalancedParenthesis top.offset)
    else popAll (output ++ [top]) rest

/-- Puts a sign out or on the stack. -/
def shuntSign (yard : Yard) (s : Placed Sign) : Except Error Yard :=
  match s.value with
  | .symbol _ | .star | .plus => .ok { yard with output := yard.output ++ [s] }
  | .union | .concat =>
    let popped := popTighter s.value.precedence yard.output yard.operators
    .ok { popped with operators := s :: popped.operators }
  | .leftParen => .ok { yard with operators := s :: yard.operators }
  | .rightParen =>
    match popGroup yard.output yard.operators with
    | some popped => .ok popped
    | none => .error (.unbalancedParenthesis s.offset)

/-- The postfix form of signs (`to_postfix`). -/
def shuntSigns (tokens : List (Placed Sign)) : Except Error (List (Placed Sign)) := do
  let yard ← tokens.foldlM shuntSign {}
  popAll yard.output yard.operators

/-- The postfix form of a pattern, pass by pass. -/
def postfixSigns (pattern : String) : Except Error (List (Placed Sign)) := do
  let tokens ← (tokenize pattern).map (signs Token.toSign)
  if tokens.isEmpty then throw .emptyPattern
  shuntSigns (separateSigns (← expandSigns tokens))

/-- How evaluation can fail. -/
inductive Fault where
  /-- The pattern is refused. -/
  | refused (e : Error)
  /-- The sign cannot be evaluated. -/
  | unexpected (s : Sign)

end Pattern

namespace Compiler

open Pattern

/-- Evaluates signs on a stack of automata, last first (`evaluate`). -/
def evaluateSigns (config : Config) :
    List (Placed Sign) → (stack : List Nfa) → (next : Nat) → Except Fault Nfa × Nat
  | [], [], next => (.error (.refused .emptyPattern), next)
  | [], [n], next => (.ok n, next)
  | [], stack, next => (.error (.refused (.leftover stack.length)), next)
  | ⟨sign, offset⟩ :: rest, stack, next =>
    let missing := (.error (.refused (.missingOperand offset)), next)
    match sign with
    | .symbol c => evaluateSigns config rest (atom config next c :: stack) (next + 2)
    | .star =>
      match stack with
      | n :: stack => evaluateSigns config rest (n.star config :: stack) next
      | [] => missing
    | .union =>
      match stack with
      | right :: left :: stack => evaluateSigns config rest (left.union config right :: stack) next
      | _ => missing
    | .concat =>
      match stack with
      | right :: left :: stack => evaluateSigns config rest (left.concat right :: stack) next
      | _ => missing
    | .plus | .leftParen | .rightParen => (.error (.unexpected sign), next)

/-- Compiles a pattern with passes over signs (`compile`). -/
def compileSigns (k : Compiler) (pattern : String) : Except Fault Nfa × Compiler :=
  match postfixSigns pattern with
  | .error e => (.error (.refused e), k)
  | .ok tokens =>
    let (result, next) := evaluateSigns k.config tokens [] k.next
    (result, { k with next := next })

end Compiler

namespace Pattern

variable {before operand ps : List (Placed Piece)} {tokens : List (Placed Token)}
variable {stack : List (Placed Pending)} {out more output : List (Placed Sign)}
variable {offset stop depth : Nat}

/-! ## Pluses -/

/-- What stands behind `stop` is not looked at. -/
theorem beforeStars_append (h : stop ≤ out.length) :
    beforeStars (out ++ more) stop = beforeStars out stop := by
  induction stop with
  | zero => rfl
  | succ stop ih =>
    simp only [beforeStars, List.getElem?_append_left h, ih (by omega)]

theorem openingBelow_append (h : stop ≤ out.length) :
    openingBelow (out ++ more) stop depth = openingBelow out stop depth := by
  induction stop generalizing depth with
  | zero => rfl
  | succ stop ih =>
    have hle : stop ≤ out.length := by omega
    simp only [openingBelow, List.getElem?_append_left h, ih hle]

theorem beforeStars_le (out : List (Placed Sign)) (stop : Nat) : beforeStars out stop ≤ stop := by
  induction stop with
  | zero => exact Nat.le_refl _
  | succ stop ih =>
    unfold beforeStars
    split <;> omega

/-- A star at the end belongs to the operand, whose begin it does not change. -/
theorem operandStart_star {s : Placed Sign} (hs : s.value = .star) (out : List (Placed Sign))
    (offset : Nat) : operandStart (out ++ [s]) offset = operandStart out offset := by
  have hstars : beforeStars (out ++ [s]) (out ++ [s]).length = beforeStars out out.length := by
    rw [List.length_append, List.length_singleton, beforeStars, List.getElem?_concat_length]
    simp [hs, beforeStars_append]
  have hle := beforeStars_le out out.length
  unfold operandStart
  rw [hstars]
  cases h : beforeStars out out.length with
  | zero => rfl
  | succ last =>
    have hlast : last + 1 ≤ out.length := by omega
    simp only [List.getElem?_append_left hlast, openingBelow_append hlast]

/-- Without a star at the end, the last sign says what the operand is. -/
theorem operandStart_concat {s : Placed Sign} (hs : s.value ≠ .star) (out : List (Placed Sign))
    (offset : Nat) :
    operandStart (out ++ [s]) offset =
      match s.value with
      | .symbol _ => .ok out.length
      | .rightParen =>
        match openingBelow out out.length 1 with
        | some start => .ok start
        | none => .error (.unbalancedParenthesis s.offset)
      | _ => .error (.missingOperand offset) := by
  obtain ⟨sign, place⟩ := s
  have hlength : (out ++ [(⟨sign, place⟩ : Placed Sign)]).length = out.length + 1 := by simp
  have hlast : (out ++ [(⟨sign, place⟩ : Placed Sign)])[out.length]? = some ⟨sign, place⟩ := by simp
  have hall : beforeStars (out ++ [⟨sign, place⟩]) (out.length + 1) = out.length + 1 := by
    rw [beforeStars, hlast]
    exact if_neg (by simpa using hs)
  unfold operandStart
  rw [hlength, hall]
  dsimp only
  rw [hlast]
  cases sign with
  | rightParen =>
    have hgroup : openingBelow (out ++ [⟨.rightParen, place⟩]) (out.length + 1) 0 =
        openingBelow out out.length 1 := by
      rw [openingBelow, hlast]
      exact openingBelow_append (Nat.le_refl _)
    simp only [hgroup]
  | symbol | union | star | plus | concat | leftParen => rfl

/-- Read backwards, pieces are found as their signs are. -/
theorem signs_reverse_cons (p : Placed Piece) (before : List (Placed Piece)) :
    signs Piece.toSign (p :: before).reverse =
      signs Piece.toSign before.reverse ++ [⟨p.value.toSign, p.offset⟩] := by
  simp

/-- The begin of a group, found by an index, is the last piece of the group read backwards. -/
theorem openingBelow_eq (depth : Nat) (before : List (Placed Piece)) :
    openingBelow (signs Piece.toSign before.reverse) before.length (depth + 1) =
      (groupBefore depth before).map fun group => before.length - group.length := by
  induction before generalizing depth with
  | nil => rfl
  | cons p before ih =>
    have hlast : (signs Piece.toSign (p :: before).reverse)[before.length]? =
        some ⟨p.value.toSign, p.offset⟩ := by
      simp
    have hbelow : ∀ depth,
        openingBelow (signs Piece.toSign (p :: before).reverse) before.length (depth + 1) =
          ((groupBefore depth before).map (p :: ·)).map fun group =>
            (p :: before).length - group.length := by
      intro depth
      rw [signs_reverse_cons, openingBelow_append (by simp), ih, Option.map_map]
      congr 1
      funext group
      simp
    obtain ⟨piece, offset⟩ := p
    rw [List.length_cons, openingBelow, hlast]
    cases piece with
    | symbol | star => exact hbelow depth
    | operator op => cases op <;> exact hbelow depth
    | rightParen => exact hbelow (depth + 1)
    | leftParen =>
      cases depth with
      | zero => rfl
      | succ depth => exact hbelow depth

theorem Piece.toSign_ne_star {piece : Piece} (h : piece ≠ .star) : piece.toSign ≠ .star := by
  cases piece with
  | star => exact absurd rfl h
  | operator op => cases op <;> exact nofun
  | symbol | leftParen | rightParen => exact nofun

/-- The operand of a plus begins as many signs before its end as pieces belong to it. -/
theorem operandStart_eq (offset : Nat) (before : List (Placed Piece)) :
    operandStart (signs Piece.toSign before.reverse) offset =
      (operandBefore offset before).map fun operand => before.length - operand.length := by
  induction before with
  | nil => rfl
  | cons p before ih =>
    rw [signs_reverse_cons]
    by_cases hstar : p.value = .star
    · rw [operandBefore_star offset hstar, operandStart_star (congrArg Piece.toSign hstar), ih]
      cases operandBefore offset before with
      | error e => rfl
      | ok operand => simp [Except.map]
    · rw [operandStart_concat (Piece.toSign_ne_star hstar), length_signs, List.length_reverse,
        openingBelow_eq]
      obtain ⟨piece, place⟩ := p
      cases piece with
      | star => exact absurd rfl hstar
      | symbol c => exact congrArg Except.ok (Nat.add_sub_cancel _ 1).symm
      | operator op => cases op <;> rfl
      | leftParen => rfl
      | rightParen =>
        rw [operandBefore_rightParen]
        cases groupBefore 0 before with
        | none => rfl
        | some group => simp [Except.map, Piece.toSign]

theorem Token.toSign_ne_plus {token : Token} (h : token ≠ .plus) : token.toSign ≠ .plus := by
  cases token with
  | plus => exact absurd rfl h
  | symbol | bar | star | leftParen | rightParen => exact nofun

theorem expandSign_of_ne {s : Placed Sign} (h : s.value ≠ .plus) (out : List (Placed Sign)) :
    expandSign out s = .ok (out ++ [s]) := if_neg h

/-- A plus has its operand copied. -/
theorem expandSign_plus (offset : Nat) (before : List (Placed Piece)) :
    expandSign (signs Piece.toSign before.reverse) ⟨.plus, offset⟩ =
      (operandBefore offset before).map fun operand =>
        signs Piece.toSign (⟨.star, offset⟩ :: (operand ++ before)).reverse := by
  show operandStart _ offset >>= _ = _
  rw [operandStart_eq]
  cases hoperand : operandBefore offset before with
  | error e => rfl
  | ok operand =>
    obtain ⟨⟨earlier, rfl⟩, -⟩ := isOperand_operandBefore hoperand
    have hdrop : (signs Piece.toSign (operand ++ earlier).reverse).drop
        ((operand ++ earlier).length - operand.length) = signs Piece.toSign operand.reverse := by
      simp
    show Except.ok (_ ++ List.drop ((operand ++ earlier).length - operand.length) _ ++ _) =
      Except.ok (signs Piece.toSign (⟨.star, offset⟩ :: (operand ++ (operand ++ earlier))).reverse)
    rw [hdrop]
    simp [Piece.toSign]

/-- Each plus is written out alike. -/
theorem foldlM_expandSign (tokens : List (Placed Token)) (before : List (Placed Piece)) :
    (signs Token.toSign tokens).foldlM expandSign (signs Piece.toSign before.reverse) =
      (expandFrom before tokens).map (signs Piece.toSign) := by
  induction tokens generalizing before with
  | nil => rfl
  | cons t rest ih =>
    obtain ⟨token, offset⟩ := t
    have hpiece : ∀ piece : Piece, token ≠ .plus → token.toSign = piece.toSign →
        (signs Token.toSign (⟨token, offset⟩ :: rest)).foldlM expandSign
            (signs Piece.toSign before.reverse) =
          (expandFrom (⟨piece, offset⟩ :: before) rest).map (signs Piece.toSign) := by
      intro piece hplus hsign
      rw [← ih, signs_reverse_cons, signs_cons, List.foldlM_cons,
        expandSign_of_ne (Token.toSign_ne_plus hplus), hsign]
      rfl
    cases token with
    | symbol c => exact hpiece (.symbol c) nofun rfl
    | bar => exact hpiece (.operator .union) nofun rfl
    | star => exact hpiece .star nofun rfl
    | leftParen => exact hpiece .leftParen nofun rfl
    | rightParen => exact hpiece .rightParen nofun rfl
    | plus =>
      rw [signs_cons, List.foldlM_cons]
      show expandSign _ ⟨.plus, offset⟩ >>= _ = _
      rw [expandSign_plus, expandFrom]
      cases operandBefore offset before with
      | error e => rfl
      | ok operand => exact ih (⟨.star, offset⟩ :: (operand ++ before))

/-- Writing out pluses is the same for signs and for tokens. -/
theorem expandSigns_eq (tokens : List (Placed Token)) :
    expandSigns (signs Token.toSign tokens) = (expandPlus tokens).map (signs Piece.toSign) :=
  foldlM_expandSign tokens []

/-! ## Concatenation -/

theorem Piece.endsOperand_toSign (piece : Piece) :
    piece.toSign.endsOperand = piece.endsOperand := by
  cases piece with
  | operator op => cases op <;> rfl
  | symbol | star | leftParen | rightParen => rfl

theorem Piece.startsOperand_toSign (piece : Piece) :
    piece.toSign.startsOperand = piece.startsOperand := by
  cases piece with
  | operator op => cases op <;> rfl
  | symbol | star | leftParen | rightParen => rfl

/-- Behind a piece, concatenation is made explicit alike. -/
theorem foldl_separateSign (p : Placed Piece) (ps : List (Placed Piece))
    (out : List (Placed Sign)) :
    (signs Piece.toSign ps).foldl separateSign (out ++ [⟨p.value.toSign, p.offset⟩]) =
      out ++ signs Piece.toSign (insertConcat (p :: ps)) := by
  induction ps generalizing p out with
  | nil => rfl
  | cons q ps ih =>
    have hstep : separateSign (out ++ [⟨p.value.toSign, p.offset⟩]) ⟨q.value.toSign, q.offset⟩ =
        out ++ ⟨p.value.toSign, p.offset⟩ :: signs Piece.toSign (concatBetween p q) ++
          [⟨q.value.toSign, q.offset⟩] := by
      unfold separateSign concatBetween
      rw [List.getLast?_concat]
      simp only [Piece.endsOperand_toSign, Piece.startsOperand_toSign]
      split <;> simp [Piece.toSign, Operator.toSign]
    rw [signs_cons, List.foldl_cons, hstep, ih, insertConcat_cons_cons]
    simp

/-- Concatenation is made explicit alike among signs and among pieces. -/
theorem separateSigns_eq (ps : List (Placed Piece)) :
    separateSigns (signs Piece.toSign ps) = signs Piece.toSign (insertConcat ps) := by
  cases ps with
  | nil => rfl
  | cons p ps => exact foldl_separateSign p ps []

/-! ## Postfix form -/

theorem popTighter_operator (op : Operator) (strength offset : Nat)
    (output rest : List (Placed Sign)) :
    popTighter strength output (⟨op.toSign, offset⟩ :: rest) =
      if strength ≤ op.strength then popTighter strength (output ++ [⟨op.toSign, offset⟩]) rest
      else ⟨output, ⟨op.toSign, offset⟩ :: rest⟩ := by
  have hop : (op.toSign = .leftParen ∨ op.toSign.precedence < strength) ↔
      ¬ strength ≤ op.strength := by
    cases op <;> simp [Operator.toSign, Sign.precedence, Operator.strength]
  simp only [popTighter, hop, ite_not]

/-- What binds tightly enough is popped one by one or released all at once. -/
theorem popTighter_eq (strength : Nat) (output : List (Placed Sign))
    (stack : List (Placed Pending)) :
    popTighter strength output (signs Pending.toSign stack) =
      ⟨output ++ signs Instr.toSign (release strength stack).1,
        signs Pending.toSign (release strength stack).2⟩ := by
  fun_induction release strength stack generalizing output with
  | case1 => simp [popTighter]
  | case2 offset stack => simp [popTighter, Pending.toSign]
  | case3 op offset stack hle taken rest hrelease ih =>
    rw [hrelease] at ih
    show popTighter strength output (⟨op.toSign, offset⟩ :: signs Pending.toSign stack) = _
    rw [popTighter_operator, if_pos hle, ih]
    simp [Instr.toSign]
  | case4 op offset stack hlt =>
    show popTighter strength output (⟨op.toSign, offset⟩ :: signs Pending.toSign stack) = _
    rw [popTighter_operator, if_neg hlt]
    simp [Pending.toSign]

theorem shuntSign_operator (op : Operator) (offset : Nat) (yard : Yard) :
    shuntSign yard ⟨op.toSign, offset⟩ =
      let popped := popTighter op.strength yard.output yard.operators
      .ok ⟨popped.output, ⟨op.toSign, offset⟩ :: popped.operators⟩ := by
  cases op <;> rfl

theorem shuntSign_rightParen (offset : Nat) (yard : Yard) :
    shuntSign yard ⟨.rightParen, offset⟩ =
      match popGroup yard.output yard.operators with
      | some popped => .ok popped
      | none => .error (.unbalancedParenthesis offset) := rfl

/-- A group is popped if it was begun. -/
theorem popGroup_eq (output : List (Placed Sign)) (stack : List (Placed Pending)) :
    popGroup output (signs Pending.toSign stack) =
      match release 0 stack with
      | (taken, _ :: outer) =>
        some ⟨output ++ signs Instr.toSign taken, signs Pending.toSign outer⟩
      | (_, []) => none := by
  fun_induction release 0 stack generalizing output with
  | case1 => rfl
  | case2 offset stack => simp [popGroup, Pending.toSign]
  | case3 op offset stack hle taken rest hrelease ih =>
    have hop : popGroup output (signs Pending.toSign (⟨.operator op, offset⟩ :: stack)) =
        popGroup (output ++ [⟨op.toSign, offset⟩]) (signs Pending.toSign stack) := by
      cases op <;> rfl
    rw [hop, ih, hrelease]
    cases rest with
    | nil => rfl
    | cons => simp [Instr.toSign]
  | case4 op offset stack hlt => exact absurd (Nat.zero_le _) hlt

/-- At the end all is popped, unless a group was not ended. -/
theorem popAll_eq (output : List (Placed Sign)) (stack : List (Placed Pending)) :
    popAll output (signs Pending.toSign stack) =
      match release 0 stack with
      | (taken, []) => .ok (output ++ signs Instr.toSign taken)
      | (_, unclosed :: _) => .error (.unbalancedParenthesis unclosed.offset) := by
  fun_induction release 0 stack generalizing output with
  | case1 => simp [popAll]
  | case2 offset stack => simp [popAll, Pending.toSign]
  | case3 op offset stack hle taken rest hrelease ih =>
    have hop : popAll output (signs Pending.toSign (⟨.operator op, offset⟩ :: stack)) =
        popAll (output ++ [⟨op.toSign, offset⟩]) (signs Pending.toSign stack) := by
      cases op <;> rfl
    rw [hop, ih, hrelease]
    cases rest with
    | nil => simp [Instr.toSign]
    | cons => rfl
  | case4 op offset stack hlt => exact absurd (Nat.zero_le _) hlt

/-- What is put out first comes first. -/
theorem map_emit (output : List (Placed Sign)) (first : List (Placed Instr))
    (rest : Except Error (List (Placed Instr))) :
    (emit first rest).map (fun instrs => output ++ signs Instr.toSign instrs) =
      rest.map fun instrs => output ++ signs Instr.toSign first ++ signs Instr.toSign instrs := by
  cases rest with
  | error e => rfl
  | ok instrs => simp [emit, Except.map]

/-- From any stack and any output, signs are put out as pieces are reordered. -/
theorem foldlM_shuntSign (ps : List (Placed Piece)) (output : List (Placed Sign))
    (stack : List (Placed Pending)) :
    ((signs Piece.toSign ps).foldlM shuntSign ⟨output, signs Pending.toSign stack⟩ >>= fun yard =>
        popAll yard.output yard.operators) =
      (postorderFrom stack ps).map fun instrs => output ++ signs Instr.toSign instrs := by
  induction ps generalizing output stack with
  | nil =>
    show popAll output (signs Pending.toSign stack) = _
    rw [popAll_eq, postorderFrom]
    obtain ⟨taken, _ | ⟨unclosed, rest⟩⟩ := release 0 stack
    · rfl
    · rfl
  | cons p ps ih =>
    obtain ⟨piece, offset⟩ := p
    rw [signs_cons, List.foldlM_cons, bind_assoc]
    cases piece with
    | symbol c =>
      rw [postorderFrom, map_emit]
      exact ih (output ++ [⟨.symbol c, offset⟩]) stack
    | star =>
      rw [postorderFrom, map_emit]
      exact ih (output ++ [⟨.star, offset⟩]) stack
    | leftParen => exact ih output (⟨.group, offset⟩ :: stack)
    | operator op =>
      rw [postorderFrom, map_emit]
      show (shuntSign _ ⟨op.toSign, offset⟩ >>= _) = _
      rw [shuntSign_operator, popTighter_eq]
      exact ih _ (⟨.operator op, offset⟩ :: (release op.strength stack).2)
    | rightParen =>
      show (shuntSign _ ⟨.rightParen, offset⟩ >>= _) = _
      rw [shuntSign_rightParen, popGroup_eq, postorderFrom]
      obtain ⟨taken, _ | ⟨group, outer⟩⟩ := release 0 stack
      · rfl
      · dsimp only
        rw [map_emit]
        exact ih _ outer

/-- The postfix form of signs is the postorder of pieces. -/
theorem shuntSigns_eq (ps : List (Placed Piece)) :
    shuntSigns (signs Piece.toSign ps) = (postorder ps).map (signs Instr.toSign) :=
  foldlM_shuntSign ps [] []

/-! ## All passes -/

/-- All passes over signs give what all passes over tokens, pieces and elements give. -/
theorem postfixSigns_eq (pattern : String) :
    postfixSigns pattern = (instructions pattern).map (signs Instr.toSign) := by
  unfold postfixSigns instructions
  cases tokenize pattern with
  | error e => rfl
  | ok tokens =>
    cases tokens with
    | nil => rfl
    | cons t rest =>
      show (expandSigns (signs Token.toSign (t :: rest)) >>= fun out =>
          shuntSigns (separateSigns out)) =
        (expandPlus (t :: rest) >>= fun ps => postorder (insertConcat ps)).map (signs Instr.toSign)
      rw [expandSigns_eq]
      cases expandPlus (t :: rest) with
      | error e => rfl
      | ok ps =>
        show shuntSigns (separateSigns (signs Piece.toSign ps)) = _
        rw [separateSigns_eq, shuntSigns_eq]
        rfl

theorem Instr.evaluable_toSign (instr : Instr) : instr.toSign.Evaluable := by
  cases instr with
  | operator op => cases op <;> trivial
  | symbol | star => trivial

/-- No plus and no parenthesis is handed on to evaluation. -/
theorem evaluable_of_postfixSigns {pattern : String} (h : postfixSigns pattern = .ok out) :
    ∀ s ∈ out, s.value.Evaluable := by
  rw [postfixSigns_eq] at h
  obtain ⟨instrs, -, rfl⟩ := Except.map_eq_ok_iff.1 h
  exact List.forall_mem_map.2 fun instr _ => instr.value.evaluable_toSign

end Pattern

namespace Compiler

open Pattern

variable {k : Compiler} {pattern : String}

/-! ## Evaluation -/

/-- The signs of elements are evaluated as these are. -/
theorem evaluateSigns_eq (config : Config) (instrs : List (Placed Instr)) (stack : List Nfa)
    (next : Nat) :
    evaluateSigns config (signs Instr.toSign instrs) stack next =
      ((evaluate config instrs stack next).1.mapError .refused,
        (evaluate config instrs stack next).2) := by
  induction instrs generalizing stack next with
  | nil =>
    match stack with
    | [] | [_] | _ :: _ :: _ => rfl
  | cons instr rest ih =>
    obtain ⟨instr, offset⟩ := instr
    cases instr with
    | symbol c => exact ih (atom config next c :: stack) (next + 2)
    | star =>
      match stack with
      | [] => rfl
      | n :: stack => exact ih (n.star config :: stack) next
    | operator op =>
      match stack with
      | [] | [_] => cases op <;> rfl
      | right :: left :: stack =>
        have hcombine := ih (combine config op left right :: stack) next
        cases op <;> exact hcombine

/-- A pattern is compiled alike. Whether it is refused or not, the next pattern finds the same
    number. -/
theorem compileSigns_eq (k : Compiler) (pattern : String) :
    k.compileSigns pattern = ((k.compile pattern).1.mapError .refused, (k.compile pattern).2) := by
  unfold compileSigns compile
  rw [postfixSigns_eq]
  cases instructions pattern with
  | error e => rfl
  | ok instrs =>
    have heval := evaluateSigns_eq k.config instrs [] k.next
    exact congrArg (fun r : Except Fault Nfa × Nat => (r.1, { k with next := r.2 })) heval

/-- Evaluation meets no sign that it cannot evaluate. -/
theorem compileSigns_ne_unexpected (k : Compiler) (pattern : String) (s : Sign) :
    (k.compileSigns pattern).1 ≠ .error (.unexpected s) := by
  rw [compileSigns_eq]
  intro h
  obtain ⟨e, -, he⟩ := Except.mapError_eq_error_iff.1 h
  cases he

end Compiler

end Acceptors
