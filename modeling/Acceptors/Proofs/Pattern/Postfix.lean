import Mathlib.Data.List.SplitBy
import Acceptors.Proofs.Pattern.Language

/-!
# Runs of stars and pluses

A star or a plus stands after its operand, and several of them may follow each other. By the grammar
each one applies to all that stands before it, so that the run `op₁ … opₖ` after an operand means
`(… (operand op₁) …) opₖ`. Only two languages can come out: a star somewhere in the run makes it the
star of the operand, and a run of pluses alone is worth one plus.

Results:
* `Postfix.applyRun_eq_foldl_iff`: the first operator of a run decides alone, unless it is a plus
  with a star after it and the operand lacks the empty word.
* `Pattern.plusRunsPure_append`: the runs of a token list are those of its parts, as long as no run
  reaches across.
-/

namespace Acceptors

namespace Pattern

open scoped Computability

/-- The operators that stand after their operand. -/
inductive Postfix where
  /-- Zero or more times. -/
  | star
  /-- One or more times. -/
  | plus
  deriving DecidableEq

namespace Postfix

/-- The operator as it is written. -/
def char : Postfix → Char
  | star => '*'
  | plus => '+'

/-- The operator as a token. -/
def token : Postfix → Token
  | star => .star
  | plus => .plus

/-- The operator after an expression. -/
def regex : Postfix → Regex → Regex
  | star, r => .star r
  | plus, r => .plus r

/-- What an operator makes of a language. -/
def apply : Postfix → Language String → Language String
  | star, L => L∗
  | plus, L => L * L∗

/-- What the first operator of a run makes of a language. -/
def applyRun : List Postfix → Language String → Language String
  | [], L => L
  | op :: _, L => op.apply L

variable {L : Language String} {ops : List Postfix}

theorem language_regex (op : Postfix) (r : Regex) :
    (op.regex r).language = op.apply r.language := by
  cases op with
  | star => exact Regex.language_star
  | plus => exact Regex.language_plus

theorem language_foldl_regex (ops : List Postfix) (r : Regex) :
    (ops.foldl (fun s op => op.regex s) r).language =
      ops.foldl (fun L op => op.apply L) r.language := by
  induction ops generalizing r with
  | nil => rfl
  | cons op ops ih => rw [List.foldl_cons, List.foldl_cons, ih, language_regex]

/-! ## What a run comes to -/

/-- The words of one or more factors can be repeated like the factors themselves. -/
theorem kstar_mul_kstar_self : (L * L∗)∗ = L∗ := by
  refine le_antisymm ?_ (kstar_mono ?_)
  · calc (L * L∗)∗ ≤ (L∗)∗ := kstar_mono mul_kstar_le_kstar
      _ = L∗ := kstar_idem L
  · calc L = L * 1 := (mul_one L).symm
      _ ≤ L * L∗ := mul_le_mul_right one_le_kstar L

theorem foldl_apply_kstar : ops.foldl (fun L op => op.apply L) L∗ = L∗ := by
  induction ops with
  | nil => rfl
  | cons op ops ih =>
    have hop : op.apply L∗ = L∗ := by
      cases op with
      | star => exact kstar_idem L
      | plus =>
        show L∗ * (L∗)∗ = L∗
        rw [kstar_idem, kstar_mul_kstar]
    rw [List.foldl_cons, hop, ih]

theorem foldl_apply_plus :
    ops.foldl (fun L op => op.apply L) (L * L∗) = if .star ∈ ops then L∗ else L * L∗ := by
  induction ops with
  | nil => rfl
  | cons op ops ih =>
    rw [List.foldl_cons]
    cases op with
    | star =>
      rw [show star.apply (L * L∗) = L∗ from kstar_mul_kstar_self, foldl_apply_kstar,
        if_pos List.mem_cons_self]
    | plus =>
      have hplus : plus.apply (L * L∗) = L * L∗ := by
        show L * L∗ * (L * L∗)∗ = L * L∗
        rw [kstar_mul_kstar_self, mul_assoc, kstar_mul_kstar]
      rw [hplus, ih]
      simp

/-- One or more factors can be none at all just when a factor can be empty. -/
theorem mul_kstar_eq_kstar_iff : L * L∗ = L∗ ↔ [] ∈ L := by
  constructor
  · intro h
    have hnil : [] ∈ L * L∗ := by
      rw [h]
      exact Language.nil_mem_kstar L
    obtain ⟨u, hu, v, -, huv⟩ := Language.mem_mul.1 hnil
    obtain ⟨rfl, -⟩ := List.append_eq_nil_iff.1 huv
    exact hu
  · intro h
    have hone : 1 ≤ L := by
      rintro w rfl
      exact h
    refine le_antisymm mul_kstar_le_kstar ?_
    calc L∗ = 1 * L∗ := (one_mul _).symm
      _ ≤ L * L∗ := mul_le_mul_left hone _

/-- The first operator of a run decides alone, unless it is a plus with a star after it and the
    operand lacks the empty word. -/
theorem applyRun_eq_foldl_iff :
    applyRun ops L = ops.foldl (fun L op => op.apply L) L ↔
      (ops.head? = some .plus ∧ .star ∈ ops → [] ∈ L) := by
  cases ops with
  | nil => simp [applyRun]
  | cons op ops =>
    rw [List.foldl_cons]
    cases op with
    | star =>
      rw [show star.apply L = L∗ from rfl, foldl_apply_kstar]
      simp [applyRun, apply]
    | plus =>
      rw [show plus.apply L = L * L∗ from rfl, foldl_apply_plus]
      by_cases hstar : .star ∈ ops
      · simp [applyRun, apply, hstar, mul_kstar_eq_kstar_iff]
      · simp [applyRun, apply, hstar]

end Postfix

/-! ## The runs of a token list -/

/-- Whether the token is an operator that stands after its operand. -/
def Token.isPostfix : Token → Bool
  | star | plus => true
  | symbol _ | bar | leftParen | rightParen => false

theorem Postfix.isPostfix_token (op : Postfix) : op.token.isPostfix = true := by
  cases op <;> rfl

/-- The token list cut into the runs of postfix operators, each as long as can be, and the single
    tokens between them. -/
def postfixRuns (ts : List Token) : List (List Token) :=
  ts.splitBy fun t u => t.isPostfix && u.isPostfix

/-- No run of postfix operators that begins with a plus contains a star. -/
def PlusRunsPure (ts : List Token) : Prop :=
  ∀ run ∈ postfixRuns ts, run.head? = some .plus → .star ∉ run

instance (ts : List Token) : Decidable (PlusRunsPure ts) :=
  inferInstanceAs (Decidable (∀ run ∈ postfixRuns ts, run.head? = some .plus → .star ∉ run))

variable {ts us : List Token}

theorem plusRunsPure_append
    (h : (∀ t ∈ ts.getLast?, t.isPostfix = false) ∨ ∀ u ∈ us.head?, u.isPostfix = false) :
    PlusRunsPure (ts ++ us) ↔ PlusRunsPure ts ∧ PlusRunsPure us := by
  have hruns : postfixRuns (ts ++ us) = postfixRuns ts ++ postfixRuns us := by
    refine List.splitBy_append fun t ht u hu => ?_
    rcases h with h | h
    · rw [h t ht, Bool.false_and]
    · rw [h u hu, Bool.and_false]
  rw [PlusRunsPure, hruns, List.forall_mem_append]
  rfl

/-- The tokens of a run are cut nowhere. -/
theorem plusRunsPure_map_token (ops : List Postfix) :
    PlusRunsPure (ops.map Postfix.token) ↔ ¬ (ops.head? = some .plus ∧ .star ∈ ops) := by
  cases ops with
  | nil => simp [PlusRunsPure, postfixRuns]
  | cons op ops =>
    have hchain : ((op :: ops).map Postfix.token).IsChain fun t u =>
        (t.isPostfix && u.isPostfix) = true := by
      refine List.Pairwise.isChain (List.pairwise_of_forall_mem_list fun t ht u hu => ?_)
      obtain ⟨o, -, rfl⟩ := List.mem_map.1 ht
      obtain ⟨o', -, rfl⟩ := List.mem_map.1 hu
      rw [o.isPostfix_token, o'.isPostfix_token]
      rfl
    have hmem : Token.star ∈ (op :: ops).map Postfix.token ↔ Postfix.star ∈ op :: ops := by
      refine ⟨fun h => ?_, fun h => List.mem_map_of_mem h⟩
      obtain ⟨o, ho, hstar⟩ := List.mem_map.1 h
      cases o with
      | star => exact ho
      | plus => cases hstar
    have hhead : ((op :: ops).map Postfix.token).head? = some .plus ↔
        (op :: ops).head? = some .plus := by
      cases op <;> simp [Postfix.token]
    rw [PlusRunsPure, postfixRuns, List.splitBy_of_isChain (by simp) hchain,
      List.forall_mem_singleton, hmem, hhead, not_and]

end Pattern

end Acceptors
