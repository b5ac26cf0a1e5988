import Acceptors.Proofs.Pattern.Nested
import Acceptors.Proofs.Pattern.Passes

/-!
# Refused patterns

The compiler says why it refuses a pattern, and where. The offset that it names has come a long way:
pieces are copied for a plus, a sign of concatenation borrows the offset of the operand after it,
and operators change their places. But no pass makes up an offset, so that it always belongs to a
token of the pattern. And since each operand is concatenated with the one before, too many automata
never remain: an evaluation that fails lacks an operand, or had no elements at all. It has none just
when nothing was written but groups within each other. No plus and no parenthesis is left to be
evaluated, as an element in postorder is neither; so passes that do not tell their signs apart never
fail because of one.

Results:
* `Pattern.below_instructionsOf`: every element stands where a token of the pattern does.
* `Pattern.count_of_instructionsOf`: there are never too many operands.
* `Compiler.error_of_compile`: what a refusal can be, by the pass that it comes from.
* `Compiler.compile_error_located`: which patterns are refused for which reason, and where.
-/

namespace Acceptors

namespace Pattern

variable {α : Type} {n : Nat} {things : List (Placed α)} {before operand ps : List (Placed Piece)}
variable {tokens : List (Placed Token)} {stack : List (Placed Pending)}
variable {instrs : List (Placed Instr)}

/-! ## Offsets -/

/-- All things stand before a place. -/
def Below (n : Nat) (things : List (Placed α)) : Prop := ∀ thing ∈ things, thing.offset < n

theorem below_nil : Below n ([] : List (Placed α)) := List.forall_mem_nil _

theorem below_cons {thing : Placed α} :
    Below n (thing :: things) ↔ thing.offset < n ∧ Below n things := List.forall_mem_cons

theorem below_append {front back : List (Placed α)} :
    Below n (front ++ back) ↔ Below n front ∧ Below n back := List.forall_mem_append

theorem below_copied {t : Placed Token} (h : Below n before) (hcopied : Copied t before operand) :
    Below n operand := by
  rcases hcopied with rfl | hoperand
  · exact below_nil
  · obtain ⟨⟨earlier, rfl⟩, -⟩ := isOperand_operandBefore hoperand
    exact (below_append.1 h).1

/-- A copy stands where the original does. -/
theorem below_expandFrom (hbefore : Below n before) (htokens : Below n tokens)
    (h : expandFrom before tokens = .ok ps) : Below n ps := by
  induction tokens generalizing before with
  | nil =>
    cases h
    exact fun p hp => hbefore p (List.mem_reverse.1 hp)
  | cons t rest ih =>
    obtain ⟨operand, hcopied, h⟩ := expandFrom_cons_eq_ok h
    obtain ⟨ht, hrest⟩ := below_cons.1 htokens
    exact ih (below_cons.2 ⟨ht, below_append.2 ⟨below_copied hbefore hcopied, hbefore⟩⟩) hrest h

/-- A sign of concatenation stands where the operand after it does. -/
theorem below_explicit (h : Below n ps) (ready : Bool) : Below n (explicit ready ps) := by
  induction ps generalizing ready with
  | nil => exact below_nil
  | cons p ps ih =>
    obtain ⟨hp, hps⟩ := below_cons.1 h
    rw [explicit, below_append]
    refine ⟨?_, below_cons.2 ⟨hp, ih hps _⟩⟩
    split
    · exact below_cons.2 ⟨hp, below_nil⟩
    · exact below_nil

theorem below_release {strength : Nat} {taken : List (Placed Instr)} {rest : List (Placed Pending)}
    (hstack : Below n stack) (h : release strength stack = (taken, rest)) :
    Below n taken ∧ Below n rest := by
  obtain ⟨ops, rfl, rfl⟩ := exists_released h
  obtain ⟨hops, hrest⟩ := below_append.1 hstack
  exact ⟨List.forall_mem_map.2 (List.forall_mem_map.1 hops), hrest⟩

/-- Wherever an operator is moved, it keeps its offset. -/
theorem below_postorderFrom (hstack : Below n stack) (hps : Below n ps)
    (h : postorderFrom stack ps = .ok instrs) : Below n instrs := by
  induction ps generalizing stack instrs with
  | nil => exact (below_release hstack (postorderFrom_nil_eq_ok h)).1
  | cons p ps ih =>
    obtain ⟨hp, hlater⟩ := below_cons.1 hps
    obtain ⟨out, waiting, rest, hreorders, hrest, rfl⟩ := postorderFrom_cons_eq_ok h
    rw [below_append]
    cases hreorders with
    | symbol | star => exact ⟨below_cons.2 ⟨hp, below_nil⟩, ih hstack hlater hrest⟩
    | operator _ _ hrelease =>
      obtain ⟨htaken, hwaiting⟩ := below_release hstack hrelease
      exact ⟨htaken, ih (below_cons.2 ⟨hp, hwaiting⟩) hlater hrest⟩
    | opening => exact ⟨below_nil, ih (below_cons.2 ⟨hp, hstack⟩) hlater hrest⟩
    | closing _ _ hrelease =>
      obtain ⟨htaken, hwaiting⟩ := below_release hstack hrelease
      exact ⟨htaken, ih (below_cons.1 hwaiting).2 hlater hrest⟩

/-- Every element stands where a token of the pattern does. -/
theorem below_instructionsOf (htokens : Below n tokens) (h : instructionsOf tokens = .ok instrs) :
    Below n instrs := by
  obtain ⟨ps, hps, h⟩ := Except.bind_eq_ok_iff.1 h
  rw [insertConcat_eq_explicit] at h
  have hpieces : Below n ps := below_expandFrom below_nil htokens hps
  exact below_postorderFrom below_nil (below_explicit hpieces false) h

/-! ## Operands -/

/-- A concatenation goes between any two operands, so that there are never too many. -/
theorem count_of_instructionsOf (h : instructionsOf tokens = .ok instrs) :
    symbolCount instrs ≤ operatorCount instrs + 1 := by
  obtain ⟨ps, -, h⟩ := Except.bind_eq_ok_iff.1 h
  rw [insertConcat_eq_explicit] at h
  obtain ⟨hsymbols, hoperators, -⟩ := count_of_postorderFrom h
  have hexplicit := count_explicit false ps
  omega

end Pattern

namespace Compiler

open Pattern

/-! ## Refusals -/

variable {k : Compiler} {pattern : String} {e : Error}

/-- What a refusal can be, by the pass that it comes from. -/
theorem error_of_compile (h : (k.compile pattern).1 = .error e) :
    tokenize pattern = .error e ∨ ∃ tokens, tokenize pattern = .ok tokens ∧
      ((instructionsOf tokens = .ok [] ∧ e = .emptyPattern) ∨
        (∃ q ∈ unpaired Token.role tokens, e = .unbalancedParenthesis q) ∨
        ∃ q < pattern.length, e = .missingOperand q) := by
  rw [compile_fst] at h
  rcases Except.bind_eq_error_iff.1 h with h | ⟨tokens, htokens, h⟩
  · exact .inl h
  refine .inr ⟨tokens, htokens, ?_⟩
  have hbelow : Below pattern.length tokens := fun t ht => by
    have hoffset := (offset_of_mem htokens ht).2
    rwa [Nat.zero_add, String.length_toList] at hoffset
  rcases Except.bind_eq_error_iff.1 h with h | ⟨instrs, hinstrs, h⟩
  · rcases mem_unpaired_of_instructionsOf h with ⟨t, ht, he⟩ | hunpaired
    · exact .inr (.inr ⟨t.offset, hbelow t ht, he⟩)
    · exact .inr (.inl hunpaired)
  · rcases error_of_evaluate h with ⟨rfl, -, he⟩ | ⟨x, hx, he⟩ | hcount
    · exact .inl ⟨hinstrs, he⟩
    · exact .inr (.inr ⟨x.offset, below_instructionsOf hbelow hinstrs x hx, he⟩)
    · have := count_of_instructionsOf hinstrs
      rw [List.length_nil] at hcount
      omega

/-- What escapes nothing is found before anything else. -/
theorem compile_eq_danglingEscape_iff {q : Nat} :
    (k.compile pattern).1 = .error (.danglingEscape q) ↔
      Odd (trailingBackslashes pattern.toList) ∧ q + 1 = pattern.length := by
  constructor
  · intro h
    rcases error_of_compile h with h | ⟨tokens, -, ⟨-, he⟩ | ⟨o, -, he⟩ | ⟨o, -, he⟩⟩
    · obtain ⟨q', he, hplace⟩ := tokenize_eq_error_iff.1 h
      cases he
      exact hplace
    · cases he
    · cases he
    · cases he
  · intro hplace
    rw [compile_fst, tokenize_eq_error_iff.2 ⟨q, rfl, hplace⟩]
    rfl

/-- A pattern counts as empty if it is nothing but groups within each other. -/
theorem compile_eq_emptyPattern_iff :
    (k.compile pattern).1 = .error .emptyPattern ↔
      ∃ m, pattern.toList = List.replicate m '(' ++ List.replicate m ')' := by
  have hcompile : (k.compile pattern).1 = .error .emptyPattern ↔
      ∃ tokens, tokenize pattern = .ok tokens ∧ instructionsOf tokens = .ok [] := by
    constructor
    · intro h
      rcases error_of_compile h with h | ⟨tokens, htokens, ⟨hnil, -⟩ | ⟨o, -, he⟩ | ⟨o, -, he⟩⟩
      · obtain ⟨q, he, -⟩ := tokenize_eq_error_iff.1 h
        cases he
      · exact ⟨tokens, htokens, hnil⟩
      · cases he
      · cases he
    · rintro ⟨tokens, htokens, hnil⟩
      rw [compile_fst, htokens]
      show (instructionsOf tokens >>= _) = _
      rw [hnil]
      rfl
  rw [hcompile]
  constructor
  · rintro ⟨tokens, htokens, hnil⟩
    obtain ⟨m, hm⟩ := instructionsOf_eq_nil_iff.1 hnil
    exact ⟨m, exists_nested_tokensFrom_iff.1 ⟨tokens, htokens, hm⟩⟩
  · rintro ⟨m, hm⟩
    obtain ⟨tokens, htokens, hroles⟩ := exists_nested_tokensFrom_iff.2 hm
    exact ⟨tokens, htokens, instructionsOf_eq_nil_iff.2 ⟨m, hroles⟩⟩

/-- Which patterns are refused for which reason, and where, whatever the settings of the compiler
    and the number of its next state. A pattern is refused for its last backslash just if it ends in
    an odd number of them, and as empty just if it consists of the begins of some groups and their
    ends. Otherwise what is refused is a parenthesis that is left alone in the pattern, or a place
    in the pattern where an operand is missing. With passes over one kind of sign it is the same,
    and evaluation meets no plus and no parenthesis. -/
theorem compile_error_located (k : Compiler) (pattern : String) :
    (∀ q, (k.compile pattern).1 = .error (.danglingEscape q) ↔
        Odd (trailingBackslashes pattern.toList) ∧ q + 1 = pattern.length) ∧
      ((k.compile pattern).1 = .error .emptyPattern ↔
        ∃ m, pattern.toList = List.replicate m '(' ++ List.replicate m ')') ∧
      (∀ e, (k.compile pattern).1 = .error e →
        (∃ q, e = .danglingEscape q) ∨ e = .emptyPattern ∨
          (∃ q, e = .unbalancedParenthesis q ∧ LeftAlone pattern.toList q) ∨
          ∃ q < pattern.length, e = .missingOperand q) ∧
      (k.compileSigns pattern).1 = (k.compile pattern).1.mapError .refused ∧
      ∀ s, (k.compileSigns pattern).1 ≠ .error (.unexpected s) := by
  refine ⟨fun q => compile_eq_danglingEscape_iff, compile_eq_emptyPattern_iff, fun e h => ?_,
    congrArg Prod.fst (compileSigns_eq k pattern), compileSigns_ne_unexpected k pattern⟩
  rcases error_of_compile h with h | ⟨tokens, htokens, ⟨-, he⟩ | ⟨q, hq, he⟩ | hmissing⟩
  · obtain ⟨q, he, -⟩ := tokenize_eq_error_iff.1 h
    exact .inl ⟨q, he⟩
  · exact .inr (.inl he)
  · exact .inr (.inr (.inl ⟨q, he, leftAlone_of_mem_unpaired htokens hq⟩))
  · exact .inr (.inr (.inr hmissing))

/-- A group that is ended twice and repeated. -/
theorem compile_error_located_twice :
    (({ next := 3 } : Compiler).compile "(a))+b").1 = .error (.unbalancedParenthesis 3) ∧
      LeftAlone "(a))+b".toList 3 := by
  have h : (({ next := 3 } : Compiler).compile "(a))+b").1 =
      .error (.unbalancedParenthesis 3) := rfl
  refine ⟨h, ?_⟩
  rcases (compile_error_located { next := 3 } "(a))+b").2.2.1 _ h with
    ⟨q, he⟩ | he | ⟨q, he, halone⟩ | ⟨q, -, he⟩
  · cases he
  · cases he
  · cases he
    exact halone
  · cases he

end Compiler

end Acceptors
