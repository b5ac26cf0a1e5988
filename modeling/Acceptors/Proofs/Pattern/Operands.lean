import Mathlib.Tactic.Common
import Acceptors.Pattern.Compiler
import Acceptors.Proofs.Pattern.Printed
import Acceptors.Proofs.Pattern.Reordered

/-!
# Operands, counted

No pass of the compiler looks at the grammar. A pattern that does not follow it is refused all the
same, because its symbols and its operators do not come out even. Each symbol puts one automaton on
the stack and each operator takes one off, so that exactly one has to remain. Reading a pattern
from left to right, an operand that is missing where one is needed is one automaton less, and
nothing that follows makes up for it: wherever two operands meet, a concatenation goes between them.

Results:
* `Pattern.scan`: the grammar as a reading with two things to remember, the number of open groups
  and whether an operand has just ended.
* `Compiler.count_of_evaluate`, `Compiler.error_of_evaluate`: the symbols and the operators of an
  evaluation that succeeds, and how one fails.
* `Pattern.count_of_postorderFrom`: reordering keeps them, and closes every group.
* `Pattern.count_explicit`: each operand that is missing is an operator too many.
* `Pattern.scan_of_evaluate`: pieces that are evaluated are read to the end.
-/

namespace Acceptors

namespace Pattern

variable {ps : List (Placed Piece)} {instrs : List (Placed Instr)} {stack : List (Placed Pending)}

/-! ## Reading by the grammar -/

/-- What a token or a piece is to the grammar. -/
inductive Role where
  /-- An operand. -/
  | symbol
  /-- A star or a plus. -/
  | repetition
  /-- A binary operator. -/
  | operator
  /-- The begin of a group. -/
  | opening
  /-- The end of a group. -/
  | closing
  deriving DecidableEq

/-- Whether an operand has to stand before it. -/
def Role.needsOperand : Role → Bool
  | repetition | operator | closing => true
  | symbol | opening => false

/-- Whether an operand ends with it. -/
def Role.endsOperand : Role → Bool
  | symbol | repetition | closing => true
  | operator | opening => false

/-- The role of a token. -/
def Token.role : Token → Role
  | symbol _ => .symbol
  | bar => .operator
  | star | plus => .repetition
  | leftParen => .opening
  | rightParen => .closing

/-- The role of a piece. -/
def Piece.role : Piece → Role
  | symbol _ => .symbol
  | operator _ => .operator
  | star => .repetition
  | leftParen => .opening
  | rightParen => .closing

/-- The roles of pieces. -/
def rolesOf (ps : List (Placed Piece)) : List Role := ps.map (·.value.role)

theorem rolesOf_cons (p : Placed Piece) (ps : List (Placed Piece)) :
    rolesOf (p :: ps) = p.value.role :: rolesOf ps := rfl

/-- What is to be remembered of the part of a pattern that has been read. -/
structure Progress where
  /-- The number of groups that are open. -/
  depth : Nat
  /-- Whether an operand has just ended. -/
  ready : Bool
  deriving DecidableEq

/-- Reads on. What needs an operand before it is refused where there is none, and so is the end of a
    group that was not begun. -/
def Progress.step (s : Progress) : Role → Option Progress
  | .symbol => some ⟨s.depth, true⟩
  | .opening => some ⟨s.depth + 1, false⟩
  | .repetition => if s.ready then some ⟨s.depth, true⟩ else none
  | .operator => if s.ready then some ⟨s.depth, false⟩ else none
  | .closing => if s.ready ∧ 0 < s.depth then some ⟨s.depth - 1, true⟩ else none

/-- What a step does: it says whether an operand has ended, it counts the open groups, and it asks
    for an operand where one is needed. -/
theorem Progress.step_spec {s s' : Progress} {role : Role} (h : s.step role = some s') :
    s'.ready = role.endsOperand ∧
      s'.depth + [role].count .closing = s.depth + [role].count .opening ∧
      (role.needsOperand = true → s.ready = true) := by
  cases role with
  | symbol | opening =>
    cases h
    exact ⟨rfl, rfl, fun h => by cases h⟩
  | repetition | operator =>
    obtain ⟨hready, ⟨⟩⟩ := Option.ite_none_right_eq_some.1 h
    exact ⟨rfl, rfl, fun _ => hready⟩
  | closing =>
    obtain ⟨⟨hready, hdepth⟩, ⟨⟩⟩ := Option.ite_none_right_eq_some.1 h
    exact ⟨rfl, Nat.sub_add_cancel hdepth, fun _ => hready⟩

/-- Reads what has the given roles. -/
def scan (s : Progress) (roles : List Role) : Option Progress := roles.foldlM Progress.step s

theorem scan_cons (s : Progress) (role : Role) (roles : List Role) :
    scan s (role :: roles) = (s.step role).bind fun s => scan s roles := List.foldlM_cons

theorem scan_append (s : Progress) (front back : List Role) :
    scan s (front ++ back) = (scan s front).bind fun s => scan s back := List.foldlM_append

/-- Every group that is open or begins is ended, and no other. -/
def Closes : (depth : Nat) → List Role → Prop
  | depth, [] => depth = 0
  | depth, .opening :: roles => Closes (depth + 1) roles
  | 0, .closing :: _ => False
  | depth + 1, .closing :: roles => Closes depth roles
  | depth, .symbol :: roles | depth, .repetition :: roles | depth, .operator :: roles =>
    Closes depth roles

/-! ## Symbols and operators -/

/-- Whether an element puts an automaton on the stack. -/
def Instr.isSymbol : Instr → Bool
  | symbol _ => true
  | star | operator _ => false

/-- Whether an element takes two automata off the stack and puts one there. -/
def Instr.isOperator : Instr → Bool
  | operator _ => true
  | star | symbol _ => false

/-- Whether an operator waits on the stack, and not a group. -/
def Pending.isOperator : Pending → Bool
  | operator _ => true
  | group => false

/-- How many symbols there are among the elements. -/
def symbolCount (instrs : List (Placed Instr)) : Nat := instrs.countP (·.value.isSymbol)

/-- How many binary operators there are among the elements. -/
def operatorCount (instrs : List (Placed Instr)) : Nat := instrs.countP (·.value.isOperator)

/-- How many operators wait. -/
def waitingCount (stack : List (Placed Pending)) : Nat := stack.countP (·.value.isOperator)

/-- How many groups are open. -/
def groupCount (stack : List (Placed Pending)) : Nat := stack.countP (!·.value.isOperator)

/-- How many pieces have a role. -/
def roleCount (role : Role) (ps : List (Placed Piece)) : Nat := ps.countP (·.value.role = role)

variable (c : Char) (op : Operator) (offset : Nat)

theorem symbolCount_symbol (instrs : List (Placed Instr)) :
    symbolCount (⟨.symbol c, offset⟩ :: instrs) = symbolCount instrs + 1 :=
  List.countP_cons_of_pos rfl

theorem operatorCount_symbol (instrs : List (Placed Instr)) :
    operatorCount (⟨.symbol c, offset⟩ :: instrs) = operatorCount instrs :=
  List.countP_cons_of_neg Bool.false_ne_true

theorem symbolCount_operator (instrs : List (Placed Instr)) :
    symbolCount (⟨.operator op, offset⟩ :: instrs) = symbolCount instrs :=
  List.countP_cons_of_neg Bool.false_ne_true

theorem operatorCount_operator (instrs : List (Placed Instr)) :
    operatorCount (⟨.operator op, offset⟩ :: instrs) = operatorCount instrs + 1 :=
  List.countP_cons_of_pos rfl

theorem waitingCount_operator (stack : List (Placed Pending)) :
    waitingCount (⟨.operator op, offset⟩ :: stack) = waitingCount stack + 1 :=
  List.countP_cons_of_pos rfl

theorem waitingCount_group (stack : List (Placed Pending)) :
    waitingCount (⟨.group, offset⟩ :: stack) = waitingCount stack :=
  List.countP_cons_of_neg Bool.false_ne_true

theorem groupCount_group (stack : List (Placed Pending)) :
    groupCount (⟨.group, offset⟩ :: stack) = groupCount stack + 1 :=
  List.countP_cons_of_pos rfl

end Pattern

namespace Compiler

open Pattern

variable {config : Config} {next : Nat}

/-- An evaluation lacks an operand, or it ends with the automata that are left, one for each symbol
    less one for each operator. There are none only if there was nothing to evaluate. -/
theorem exists_left_of_evaluate (config : Config) (instrs : List (Placed Instr)) (stack : List Nfa)
    (next : Nat) :
    (∃ instr ∈ instrs,
        (evaluate config instrs stack next).1 = .error (.missingOperand instr.offset)) ∨
      ∃ left next', evaluate config instrs stack next = evaluate config [] left next' ∧
        left.length + operatorCount instrs = stack.length + symbolCount instrs ∧
        (left = [] → instrs = [] ∧ stack = []) := by
  induction instrs generalizing stack next with
  | nil => exact .inr ⟨stack, next, rfl, rfl, fun h => ⟨rfl, h⟩⟩
  | cons instr rest ih =>
    obtain ⟨instr, offset⟩ := instr
    cases instr with
    | symbol c =>
      rcases ih (atom config next c :: stack) (next + 2) with
        ⟨x, hx, he⟩ | ⟨left, next', heval, hcount, hleft⟩
      · exact .inl ⟨x, List.mem_cons_of_mem _ hx, he⟩
      · rw [List.length_cons] at hcount
        rw [symbolCount_symbol, operatorCount_symbol]
        exact .inr ⟨left, next', heval, by omega,
          fun h => absurd (hleft h).2 (List.cons_ne_nil _ _)⟩
    | star =>
      cases stack with
      | nil => exact .inl ⟨_, List.mem_cons_self, rfl⟩
      | cons n stack =>
        rcases ih (n.star config :: stack) next with
          ⟨x, hx, he⟩ | ⟨left, next', heval, hcount, hleft⟩
        · exact .inl ⟨x, List.mem_cons_of_mem _ hx, he⟩
        · exact .inr ⟨left, next', heval, hcount,
            fun h => absurd (hleft h).2 (List.cons_ne_nil _ _)⟩
    | operator op =>
      rcases stack with _ | ⟨right, _ | ⟨left, stack⟩⟩
      · exact .inl ⟨_, List.mem_cons_self, rfl⟩
      · exact .inl ⟨_, List.mem_cons_self, rfl⟩
      · rcases ih (combine config op left right :: stack) next with
          ⟨x, hx, he⟩ | ⟨more, next', heval, hcount, hmore⟩
        · exact .inl ⟨x, List.mem_cons_of_mem _ hx, he⟩
        · rw [List.length_cons] at hcount
          rw [symbolCount_operator, operatorCount_operator, List.length_cons, List.length_cons]
          exact .inr ⟨more, next', heval, by omega,
            fun h => absurd (hmore h).2 (List.cons_ne_nil _ _)⟩

/-- An evaluation succeeds only with one symbol more than operators. -/
theorem count_of_evaluate {instrs : List (Placed Instr)} {stack : List Nfa} {next' : Nat} {n : Nfa}
    (h : evaluate config instrs stack next = (.ok n, next')) :
    stack.length + symbolCount instrs = operatorCount instrs + 1 := by
  rcases exists_left_of_evaluate config instrs stack next with
    ⟨x, hx, he⟩ | ⟨left, next'', heval, hcount, -⟩
  · rw [h] at he
    cases he
  · rw [heval] at h
    rcases left with _ | ⟨m, _ | ⟨k, left⟩⟩
    · cases h
    · rw [← hcount]
      exact Nat.add_comm _ _
    · cases h

/-- An evaluation fails if there is nothing to evaluate, at an element that lacks an operand, or
    with several automata left. -/
theorem error_of_evaluate {instrs : List (Placed Instr)} {stack : List Nfa} {e : Error}
    (h : (evaluate config instrs stack next).1 = .error e) :
    (instrs = [] ∧ stack = [] ∧ e = .emptyPattern) ∨
      (∃ instr ∈ instrs, e = .missingOperand instr.offset) ∨
      operatorCount instrs + 1 < stack.length + symbolCount instrs := by
  rcases exists_left_of_evaluate config instrs stack next with
    ⟨x, hx, he⟩ | ⟨left, next', heval, hcount, hleft⟩
  · rw [h] at he
    exact .inr (.inl ⟨x, hx, Except.error.inj he⟩)
  · rw [heval] at h
    rcases left with _ | ⟨m, _ | ⟨k, left⟩⟩
    · obtain ⟨hinstrs, hstack⟩ := hleft rfl
      exact .inl ⟨hinstrs, hstack, (Except.error.inj h).symm⟩
    · cases h
    · rw [List.length_cons, List.length_cons] at hcount
      exact .inr (.inr (by omega))

end Compiler

namespace Pattern

/-! ## Reordering -/

theorem symbolCount_append (front back : List (Placed Instr)) :
    symbolCount (front ++ back) = symbolCount front + symbolCount back := List.countP_append

theorem operatorCount_append (front back : List (Placed Instr)) :
    operatorCount (front ++ back) = operatorCount front + operatorCount back := List.countP_append

/-- What is released has waited, and the rest waits on. -/
theorem count_of_release {strength : Nat} {taken : List (Placed Instr)}
    {rest : List (Placed Pending)} (h : release strength stack = (taken, rest)) :
    symbolCount taken = 0 ∧ waitingCount stack = operatorCount taken + waitingCount rest ∧
      groupCount stack = groupCount rest := by
  obtain ⟨ops, rfl, rfl⟩ := exists_released h
  have hgroups : (ops.map Operator.pending).countP (!·.value.isOperator) = 0 :=
    List.countP_eq_zero.2 (List.forall_mem_map.2 fun _ _ => Bool.false_ne_true)
  refine ⟨List.countP_eq_zero.2 (List.forall_mem_map.2 fun _ _ => Bool.false_ne_true), ?_, ?_⟩
  · rw [waitingCount, List.countP_append, List.countP_map, operatorCount, List.countP_map]
    rfl
  · rw [groupCount, List.countP_append, hgroups, Nat.zero_add]
    rfl

theorem roleCount_cons (role : Role) (p : Placed Piece) (ps : List (Placed Piece)) :
    roleCount role (p :: ps) = roleCount role [p] + roleCount role ps := by
  rw [← List.singleton_append]
  exact List.countP_append

/-- A piece releases itself, if it is a symbol, or operators that have waited; if it is an operator,
    it waits itself. The open groups are those of the stack. -/
theorem Reorders.count {p : Placed Piece} {out : List (Placed Instr)}
    {waiting : List (Placed Pending)} (h : Reorders stack p out waiting) :
    symbolCount out = roleCount .symbol [p] ∧
      operatorCount out + waitingCount waiting = waitingCount stack + roleCount .operator [p] ∧
      ∀ roles, Closes (groupCount waiting) roles →
        Closes (groupCount stack) (p.value.role :: roles) := by
  cases h with
  | symbol | star => exact ⟨rfl, Nat.add_comm _ _, fun _ h => h⟩
  | opening =>
    refine ⟨rfl, Nat.add_comm _ _, fun roles hroles => ?_⟩
    rw [groupCount_group] at hroles
    exact hroles
  | operator op offset hrelease =>
    obtain ⟨hsymbols, hwaiting, hgroups⟩ := count_of_release hrelease
    refine ⟨hsymbols, ?_, fun roles hroles => ?_⟩
    · rw [waitingCount_operator, hwaiting]
      rfl
    · rw [hgroups]
      exact hroles
  | closing offset start hrelease =>
    obtain ⟨hsymbols, hwaiting, hgroups⟩ := count_of_release hrelease
    rw [waitingCount_group] at hwaiting
    refine ⟨hsymbols, hwaiting.symm, fun roles hroles => ?_⟩
    rw [hgroups, groupCount_group]
    exact hroles

/-- Reordering keeps the symbols and the operators, and closes every group. -/
theorem count_of_postorderFrom (h : postorderFrom stack ps = .ok instrs) :
    symbolCount instrs = roleCount .symbol ps ∧
      operatorCount instrs = waitingCount stack + roleCount .operator ps ∧
      Closes (groupCount stack) (rolesOf ps) := by
  induction ps generalizing stack instrs with
  | nil =>
    obtain ⟨hsymbols, hwaiting, hgroups⟩ := count_of_release (postorderFrom_nil_eq_ok h)
    exact ⟨hsymbols, hwaiting.symm, hgroups⟩
  | cons p ps ih =>
    obtain ⟨out, waiting, rest, hreorders, hrest, rfl⟩ := postorderFrom_cons_eq_ok h
    obtain ⟨hsymbols, hoperators, hcloses⟩ := hreorders.count
    obtain ⟨hsymbols', hoperators', hcloses'⟩ := ih hrest
    rw [symbolCount_append, operatorCount_append, roleCount_cons .symbol, roleCount_cons .operator]
    exact ⟨by omega, by omega, hcloses _ hcloses'⟩

/-! ## Operands that are missing -/

/-- The pieces with concatenation made explicit, where an operand may have ended before them. -/
def explicit (ready : Bool) : List (Placed Piece) → List (Placed Piece)
  | [] => []
  | p :: ps =>
    (if ready && p.value.startsOperand then [⟨.operator .concat, p.offset⟩] else []) ++
      p :: explicit p.value.endsOperand ps

theorem insertConcat_eq_explicit (ps : List (Placed Piece)) :
    insertConcat ps = explicit false ps := by
  have hcons : ∀ (ps : List (Placed Piece)) (p : Placed Piece),
      insertConcat (p :: ps) = p :: explicit p.value.endsOperand ps := by
    intro ps
    induction ps with
    | nil => exact fun p => rfl
    | cons q ps ih =>
      intro p
      rw [insertConcat_cons_cons, ih q, explicit, concatBetween]
  cases ps with
  | nil => rfl
  | cons p ps => exact hcons ps p

/-- How often an operand is missing: before what needs one, and at the end. -/
def missing : (ready : Bool) → List Role → Nat
  | ready, [] => (!ready).toNat
  | _, .symbol :: roles => missing true roles
  | _, .opening :: roles => missing false roles
  | ready, .operator :: roles => (!ready).toNat + missing false roles
  | ready, .repetition :: roles | ready, .closing :: roles => (!ready).toNat + missing true roles

/-- With concatenation made explicit, there is one symbol more than operators, less one for each
    operand that is missing. -/
theorem count_explicit (ready : Bool) (ps : List (Placed Piece)) :
    roleCount .symbol (explicit ready ps) + ready.toNat + missing ready (rolesOf ps) =
      roleCount .operator (explicit ready ps) + 1 := by
  induction ps generalizing ready with
  | nil => cases ready <;> rfl
  | cons p ps ih =>
    obtain ⟨piece, offset⟩ := p
    have hrest := ih piece.endsOperand
    cases piece <;> cases ready <;>
      simp [explicit, roleCount, rolesOf_cons, Piece.role, Piece.startsOperand, Piece.endsOperand,
        missing] at hrest ⊢ <;>
      omega

/-- If no operand is missing and every group is closed, the pieces are read to the end. -/
theorem scan_of_missing_eq_zero {depth : Nat} {ready : Bool} {roles : List Role}
    (hcloses : Closes depth roles) (hmissing : missing ready roles = 0) :
    scan ⟨depth, ready⟩ roles = some ⟨0, true⟩ := by
  induction roles generalizing depth ready with
  | nil =>
    obtain rfl : depth = 0 := hcloses
    cases ready with
    | true => rfl
    | false => cases hmissing
  | cons role roles ih =>
    rw [scan_cons]
    cases role with
    | symbol => exact ih hcloses hmissing
    | opening => exact ih hcloses hmissing
    | repetition =>
      obtain ⟨hready, hrest⟩ := Nat.add_eq_zero_iff.1 hmissing
      obtain rfl : ready = true := by simpa using hready
      exact ih hcloses hrest
    | operator =>
      obtain ⟨hready, hrest⟩ := Nat.add_eq_zero_iff.1 hmissing
      obtain rfl : ready = true := by simpa using hready
      exact ih hcloses hrest
    | closing =>
      obtain ⟨hready, hrest⟩ := Nat.add_eq_zero_iff.1 hmissing
      obtain rfl : ready = true := by simpa using hready
      cases depth with
      | zero => exact absurd hcloses id
      | succ depth => exact ih hcloses hrest

/-- The sign of concatenation opens and closes no group. -/
theorem closes_explicit {depth : Nat} (ready : Bool) (ps : List (Placed Piece)) :
    Closes depth (rolesOf (explicit ready ps)) ↔ Closes depth (rolesOf ps) := by
  induction ps generalizing depth ready with
  | nil => rfl
  | cons p ps ih =>
    obtain ⟨piece, offset⟩ := p
    cases piece <;> cases ready <;> cases depth <;>
      simp [explicit, rolesOf_cons, Piece.role, Piece.startsOperand, Piece.endsOperand, Closes, ih]

/-- The pieces of a pattern that is reordered and evaluated are read to the end. -/
theorem scan_of_evaluate {config : Config} {next next' : Nat} {n : Nfa}
    (hpostorder : postorder (insertConcat ps) = .ok instrs)
    (heval : Compiler.evaluate config instrs [] next = (.ok n, next')) :
    scan ⟨0, false⟩ (rolesOf ps) = some ⟨0, true⟩ := by
  rw [insertConcat_eq_explicit] at hpostorder
  obtain ⟨hsymbols, hoperators, hcloses⟩ := count_of_postorderFrom hpostorder
  have hcount := Compiler.count_of_evaluate heval
  have hexplicit := count_explicit false ps
  have hwaiting : waitingCount [] = 0 := rfl
  rw [List.length_nil, hsymbols, hoperators, hwaiting] at hcount
  rw [Bool.toNat_false] at hexplicit
  exact scan_of_missing_eq_zero ((closes_explicit false ps).1 hcloses) (by omega)

end Pattern

end Acceptors
