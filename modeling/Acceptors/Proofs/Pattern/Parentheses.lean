import Acceptors.Proofs.Pattern.Grammatical

/-!
# Parentheses without a partner

Reading from left to right, with the begins of the groups that are open on a stack, an end of a
group takes the innermost begin off the stack, or has no partner; at the end the begins that are
left have none. The compiler never reads a pattern like this in one go. Where a plus stands it looks
back for the begin of a group, and it reorders pieces that are copied in part. Still, what it
refuses is a parenthesis that is left alone in the pattern itself: an operand opens and closes the
same groups in every copy, and the groups that wait on the stack of operators are the ones that are
open.

Results:
* `Pattern.Parens`, `Pattern.readParens`: reading the parentheses.
* `Pattern.readParens_expandFrom`: writing out pluses leaves the same parentheses alone.
* `Pattern.mem_unpaired_of_instructionsOf`: a parenthesis that is refused is left alone.
-/

namespace Acceptors

namespace Pattern

/-! ## Reading the parentheses -/

/-- The parentheses that are still without a partner, by their offsets. -/
structure Parens where
  /-- The ends of groups without a begin before them. -/
  ends : List Nat := []
  /-- The begins of the groups that are open, innermost first. -/
  begins : List Nat := []

/-- Reads on: the end of a group takes the innermost begin, or is left alone. -/
def Parens.step (s : Parens) (role : Role) (offset : Nat) : Parens :=
  match role, s.begins with
  | .opening, _ => { s with begins := offset :: s.begins }
  | .closing, [] => { s with ends := offset :: s.ends }
  | .closing, _ :: outer => { s with begins := outer }
  | .symbol, _ | .repetition, _ | .operator, _ => s

variable {α : Type} (role : α → Role)

/-- Reads the parentheses among some things. -/
def readParens (s : Parens) (things : List (Placed α)) : Parens :=
  things.foldl (fun s thing => s.step (role thing.value) thing.offset) s

/-- The parentheses without a partner among some things. -/
def unpaired (things : List (Placed α)) : List Nat :=
  (readParens role {} things).ends ++ (readParens role {} things).begins

variable {role} {things front back : List (Placed α)} {s : Parens} {o : Nat}

theorem readParens_append (s : Parens) (front back : List (Placed α)) :
    readParens role s (front ++ back) = readParens role (readParens role s front) back :=
  List.foldl_append

theorem readParens_cons (s : Parens) (thing : Placed α) (rest : List (Placed α)) :
    readParens role s (thing :: rest) =
      readParens role (s.step (role thing.value) thing.offset) rest := rfl

namespace Parens

variable {r : Role} {p : Nat}

theorem begins_step_closing : (s.step .closing p).begins = s.begins.tail := by
  obtain ⟨ends, begins⟩ := s
  cases begins <;> rfl

theorem mem_ends_step_closing (h : s.begins = []) : p ∈ (s.step .closing p).ends := by
  obtain ⟨ends, begins⟩ := s
  subst h
  exact List.mem_cons_self

theorem step_of_ne (hopening : r ≠ .opening) (hclosing : r ≠ .closing) : s.step r p = s := by
  cases r with
  | opening => exact absurd rfl hopening
  | closing => exact absurd rfl hclosing
  | symbol | repetition | operator => rfl

/-- An end that is left alone remains so. -/
theorem mem_ends_step (h : o ∈ s.ends) : o ∈ (s.step r p).ends := by
  obtain ⟨ends, begins⟩ := s
  cases r with
  | closing =>
    cases begins with
    | nil => exact List.mem_cons_of_mem _ h
    | cons b outer => exact h
  | opening | symbol | repetition | operator => exact h

/-- A step leaves no other parenthesis alone than the one that is read. -/
theorem mem_step (h : o ∈ (s.step r p).ends ∨ o ∈ (s.step r p).begins) :
    (o ∈ s.ends ∨ o ∈ s.begins) ∨ p = o ∧ (r = .opening ∨ r = .closing) := by
  obtain ⟨ends, begins⟩ := s
  cases r with
  | opening =>
    rcases h with h | h
    · exact .inl (.inl h)
    · rcases List.mem_cons.1 h with rfl | h
      · exact .inr ⟨rfl, .inl rfl⟩
      · exact .inl (.inr h)
  | closing =>
    cases begins with
    | nil =>
      rcases h with h | h
      · rcases List.mem_cons.1 h with rfl | h
        · exact .inr ⟨rfl, .inr rfl⟩
        · exact .inl (.inl h)
      · exact .inl (.inr h)
    | cons b outer => exact .inl (h.imp_right (List.mem_cons_of_mem b))
  | symbol | repetition | operator => exact .inl h

end Parens

theorem mem_ends_readParens (h : o ∈ s.ends) : o ∈ (readParens role s things).ends := by
  induction things generalizing s with
  | nil => exact h
  | cons thing rest ih => exact ih (Parens.mem_ends_step h)

/-- What is left alone is a parenthesis that has been read. -/
theorem exists_of_mem_readParens
    (h : o ∈ (readParens role s things).ends ∨ o ∈ (readParens role s things).begins) :
    (o ∈ s.ends ∨ o ∈ s.begins) ∨
      ∃ thing ∈ things, thing.offset = o ∧
        (role thing.value = .opening ∨ role thing.value = .closing) := by
  induction things generalizing s with
  | nil => exact .inl h
  | cons thing rest ih =>
    rcases ih h with hstep | ⟨x, hx, hparen⟩
    · rcases Parens.mem_step hstep with hs | hthing
      · exact .inl hs
      · exact .inr ⟨thing, List.mem_cons_self, hthing⟩
    · exact .inr ⟨x, List.mem_cons_of_mem _ hx, hparen⟩

/-- What is read between some things and others is of no account if it leaves everything as it
    was. -/
theorem readParens_eq_self (h : ∀ thing ∈ things, role thing.value ≠ .opening ∧
    role thing.value ≠ .closing) : readParens role s things = s := by
  induction things with
  | nil => rfl
  | cons thing rest ih =>
    obtain ⟨hthing, hrest⟩ := List.forall_mem_cons.1 h
    rw [readParens_cons, Parens.step_of_ne hthing.1 hthing.2, ih hrest]

/-! ## Copies of operands -/

section Copies

variable {before operand ps : List (Placed Piece)} {tokens : List (Placed Token)} {offset : Nat}

theorem readParens_reverse_cons (s : Parens) (p : Placed Piece) (ps : List (Placed Piece)) :
    readParens Piece.role s (p :: ps).reverse =
      (readParens Piece.role s ps.reverse).step p.value.role p.offset := by
  rw [List.reverse_cons, readParens_append]
  rfl

/-- Read backwards up to its begin, the end of a group opens the groups that are still to be closed
    in it, whatever has been read before. -/
theorem exists_begins_of_groupBefore {depth : Nat} {group : List (Placed Piece)}
    (h : groupBefore depth before = some group) :
    ∃ opened : List Nat, opened.length = depth + 1 ∧
      ∀ s, readParens Piece.role s group.reverse = { s with begins := opened ++ s.begins } := by
  fun_induction groupBefore depth before generalizing group with
  | case1 => cases h
  | case2 p before hp =>
    cases h
    refine ⟨[p.offset], rfl, fun s => ?_⟩
    rw [readParens_reverse_cons, hp]
    rfl
  | case3 p before depth hp ih =>
    obtain ⟨group, hgroup, rfl⟩ := Option.map_eq_some_iff.1 h
    obtain ⟨opened, hlength, hread⟩ := ih hgroup
    refine ⟨p.offset :: opened, by rw [List.length_cons, hlength], fun s => ?_⟩
    rw [readParens_reverse_cons, hread, hp]
    rfl
  | case4 p before depth hp ih =>
    obtain ⟨group, hgroup, rfl⟩ := Option.map_eq_some_iff.1 h
    obtain ⟨opened, hlength, hread⟩ := ih hgroup
    obtain ⟨b, opened, rfl⟩ := List.exists_cons_of_length_eq_add_one hlength
    refine ⟨opened, Nat.succ.inj hlength, fun s => ?_⟩
    rw [readParens_reverse_cons, hread, hp]
    rfl
  | case5 p before depth hzero hsucc hright ih =>
    obtain ⟨group, hgroup, rfl⟩ := Option.map_eq_some_iff.1 h
    obtain ⟨opened, hlength, hread⟩ := ih hgroup
    obtain ⟨hopening, hclosing⟩ := role_ne_of_inside hzero hsucc hright
    refine ⟨opened, hlength, fun s => ?_⟩
    rw [readParens_reverse_cons, Parens.step_of_ne hopening hclosing, hread]

/-- Where no begin of a group is found, no more groups are open than were to be opened. -/
theorem length_begins_of_groupBefore {depth : Nat} (h : groupBefore depth before = none) :
    (readParens Piece.role {} before.reverse).begins.length ≤ depth := by
  fun_induction groupBefore depth before with
  | case1 => exact Nat.zero_le _
  | case2 => cases h
  | case3 p before depth hp ih =>
    rw [readParens_reverse_cons, hp]
    exact Nat.succ_le_succ (ih (Option.map_eq_none_iff.1 h))
  | case4 p before depth hp ih =>
    have hlength := ih (Option.map_eq_none_iff.1 h)
    rw [readParens_reverse_cons, hp]
    show ((readParens Piece.role {} before.reverse).step .closing p.offset).begins.length ≤ depth
    rw [Parens.begins_step_closing, List.length_tail]
    exact Nat.sub_le_of_le_add hlength
  | case5 p before depth hzero hsucc hright ih =>
    obtain ⟨hopening, hclosing⟩ := role_ne_of_inside hzero hsucc hright
    rw [readParens_reverse_cons, Parens.step_of_ne hopening hclosing]
    exact ih (Option.map_eq_none_iff.1 h)

theorem readParens_stars {stars : List (Placed Piece)} (h : ∀ p ∈ stars, p.value = .star)
    (s : Parens) : readParens Piece.role s stars.reverse = s := by
  refine readParens_eq_self fun p hp => ?_
  rw [h p (List.mem_reverse.1 hp)]
  exact ⟨by decide, by decide⟩

/-- A copy of an operand leaves no parenthesis alone. -/
theorem readParens_operandBefore (h : operandBefore offset before = .ok operand) (s : Parens) :
    readParens Piece.role s operand.reverse = s := by
  obtain ⟨stars, body, earlier, -, rfl, hstars, hbody⟩ := operandBefore_eq_ok h
  have hread : readParens Piece.role s body.reverse = s := by
    rcases hbody with ⟨p, c, rfl, hp⟩ | ⟨p, group, rfl, hp, hgroup⟩
    · rw [readParens_reverse_cons, hp]
      rfl
    · obtain ⟨opened, hlength, hopened⟩ := exists_begins_of_groupBefore hgroup
      obtain ⟨b, rfl⟩ := List.length_eq_one_iff.1 hlength
      rw [readParens_reverse_cons, hp, hopened]
      rfl
  rw [List.reverse_append, readParens_append, hread, readParens_stars hstars]

theorem Copied.readParens {t : Placed Token} (h : Copied t before operand) (s : Parens) :
    readParens Piece.role s (operand ++ before).reverse =
      readParens Piece.role s before.reverse := by
  rcases h with rfl | h
  · rfl
  · rw [List.reverse_append, readParens_append, readParens_operandBefore h]

theorem readParens_expandFrom_cons {t : Placed Token} (h : Copied t before operand) (s : Parens) :
    Pattern.readParens Piece.role s
        (⟨t.value.piece, t.offset⟩ :: (operand ++ before)).reverse =
      (Pattern.readParens Piece.role s before.reverse).step t.value.role t.offset := by
  rw [readParens_reverse_cons, h.readParens, Token.role_piece]

/-- Writing out the pluses leaves the same parentheses alone. -/
theorem readParens_expandFrom (h : expandFrom before tokens = .ok ps) (s : Parens) :
    readParens Piece.role s ps =
      readParens Token.role (readParens Piece.role s before.reverse) tokens := by
  induction tokens generalizing before with
  | nil =>
    cases h
    rfl
  | cons t rest ih =>
    obtain ⟨operand, hcopied, h⟩ := expandFrom_cons_eq_ok h
    rw [ih h, readParens_expandFrom_cons hcopied, readParens_cons]

/-- Pluses are refused for an operand that is missing, or for the end of a group that is left
    alone. -/
theorem expandFrom_eq_error {e : Error} (h : expandFrom before tokens = .error e) :
    (∃ t ∈ tokens, e = .missingOperand t.offset) ∨
      ∃ o ∈ (readParens Token.role (readParens Piece.role {} before.reverse) tokens).ends,
        e = .unbalancedParenthesis o := by
  induction tokens generalizing before with
  | nil => cases h
  | cons t rest ih =>
    rcases expandFrom_cons_eq_error h with h | ⟨operand, hcopied, h⟩
    · rcases operandBefore_eq_error h with rfl | ⟨stars, p, earlier, rfl, hstars, hp, hgroup, rfl⟩
      · exact .inl ⟨t, List.mem_cons_self, rfl⟩
      · refine .inr ⟨p.offset, mem_ends_readParens ?_, rfl⟩
        have hopen : (readParens Piece.role {} earlier.reverse).begins = [] :=
          List.eq_nil_of_length_eq_zero (Nat.le_zero.1 (length_begins_of_groupBefore hgroup))
        rw [List.reverse_append, readParens_append, readParens_stars hstars,
          readParens_reverse_cons, hp]
        exact Parens.mem_ends_step_closing hopen
    · rcases ih h with ⟨x, hx, rfl⟩ | ⟨o, ho, rfl⟩
      · exact .inl ⟨x, List.mem_cons_of_mem _ hx, rfl⟩
      · rw [readParens_expandFrom_cons hcopied] at ho
        exact .inr ⟨o, ho, rfl⟩

end Copies

/-! ## Reordering -/

section Reordering

variable {stack : List (Placed Pending)} {ps : List (Placed Piece)}

/-- The begins of the groups that wait, innermost first. -/
def groupOffsets (stack : List (Placed Pending)) : List Nat :=
  (stack.filter (!·.value.isOperator)).map (·.offset)

theorem groupOffsets_operator (op : Operator) (offset : Nat) (stack : List (Placed Pending)) :
    groupOffsets (⟨.operator op, offset⟩ :: stack) = groupOffsets stack := rfl

theorem groupOffsets_group (offset : Nat) (stack : List (Placed Pending)) :
    groupOffsets (⟨.group, offset⟩ :: stack) = offset :: groupOffsets stack := rfl

/-- The groups stay where they are when operators are released. -/
theorem groupOffsets_release {strength : Nat} {taken : List (Placed Instr)}
    {rest : List (Placed Pending)} (h : release strength stack = (taken, rest)) :
    groupOffsets rest = groupOffsets stack := by
  obtain ⟨ops, rfl, -⟩ := exists_released h
  have hops : (ops.map Operator.pending).filter (!·.value.isOperator) = [] :=
    List.filter_eq_nil_iff.2 (List.forall_mem_map.2 fun _ _ => Bool.false_ne_true)
  rw [groupOffsets, groupOffsets, List.filter_append, hops, List.nil_append]

/-- The groups that wait are the ones that are open. -/
theorem Reorders.step_groupOffsets {p : Placed Piece} {out : List (Placed Instr)}
    {waiting : List (Placed Pending)} (h : Reorders stack p out waiting) (ends : List Nat) :
    Parens.step ⟨ends, groupOffsets stack⟩ p.value.role p.offset =
      ⟨ends, groupOffsets waiting⟩ := by
  cases h with
  | symbol | star | opening => rfl
  | operator op offset hrelease =>
    rw [groupOffsets_operator, groupOffsets_release hrelease]
    rfl
  | closing offset start hrelease =>
    rw [← groupOffsets_release hrelease, groupOffsets_group]
    rfl

/-- What reordering refuses is a parenthesis that is left alone. -/
theorem postorderFrom_eq_error {e : Error} (h : postorderFrom stack ps = .error e)
    (ends : List Nat) : ∃ o, e = .unbalancedParenthesis o ∧
      (o ∈ (readParens Piece.role ⟨ends, groupOffsets stack⟩ ps).ends ∨
        o ∈ (readParens Piece.role ⟨ends, groupOffsets stack⟩ ps).begins) := by
  induction ps generalizing stack with
  | nil =>
    obtain ⟨taken, start, outer, hrelease, he⟩ := postorderFrom_nil_eq_error h
    refine ⟨start, he, .inr ?_⟩
    show start ∈ groupOffsets stack
    rw [← groupOffsets_release hrelease, groupOffsets_group]
    exact List.mem_cons_self
  | cons p ps ih =>
    rw [readParens_cons]
    rcases postorderFrom_cons_eq_error h with ⟨taken, hp, hrelease, he⟩ | ⟨out, waiting, hp, h⟩
    · rw [← groupOffsets_release hrelease, hp]
      exact ⟨p.offset, he, .inl (mem_ends_readParens (Parens.mem_ends_step_closing rfl))⟩
    · rw [hp.step_groupOffsets]
      exact ih h

theorem readParens_explicit (s : Parens) (ready : Bool) (ps : List (Placed Piece)) :
    readParens Piece.role s (explicit ready ps) = readParens Piece.role s ps := by
  induction ps generalizing s ready with
  | nil => rfl
  | cons p ps ih =>
    rw [explicit, readParens_append, readParens_cons, readParens_cons, ih]
    split <;> rfl

end Reordering

/-! ## Parentheses that are refused -/

/-- A parenthesis that is refused is left alone in the pattern. -/
theorem mem_unpaired_of_instructionsOf {tokens : List (Placed Token)} {e : Error}
    (h : instructionsOf tokens = .error e) :
    (∃ t ∈ tokens, e = .missingOperand t.offset) ∨
      ∃ o ∈ unpaired Token.role tokens, e = .unbalancedParenthesis o := by
  rcases Except.bind_eq_error_iff.1 h with h | ⟨ps, hps, h⟩
  · rcases expandFrom_eq_error h with hmissing | ⟨o, ho, he⟩
    · exact .inl hmissing
    · exact .inr ⟨o, List.mem_append_left _ ho, he⟩
  · rw [insertConcat_eq_explicit] at h
    obtain ⟨o, he, ho⟩ := postorderFrom_eq_error h []
    have hread : readParens Piece.role {} ps = readParens Token.role {} tokens :=
      readParens_expandFrom hps {}
    rw [readParens_explicit] at ho
    refine .inr ⟨o, List.mem_append.2 ?_, he⟩
    rw [← hread]
    exact ho

end Pattern

end Acceptors
