import Mathlib.Data.Nat.ModEq
import Mathlib.Data.Nat.GCD.Basic
import Acceptors.Proofs.Dfa.Multiples
import Acceptors.Proofs.Minimal.Fixed

/-!
# Multiples in a base that is coprime to the number

Every number has numerals of any length that is long enough for it. So every remainder is reached,
and every remainder can be completed to a multiple by further digits. If the base is coprime to the
number, then the same digits complete no other remainder: the power of the base by which a remainder
is multiplied can be cancelled. No two remainders can be merged then, and minimization changes
nothing.

Results:
* `exists_numeral`: the numerals of one length have all values that are small enough.
* `Dfa.exists_completion`: every remainder can be completed to a multiple.
* `Dfa.trim_remainders`: the remainders are reached, completed and told apart.
* `Dfa.minimize_multiplesOf`: the automaton is minimal already.
-/

namespace Acceptors

variable {number base k v s t : Nat}

/-- Every value below a power of the base has a numeral of that many digits. -/
theorem exists_numeral (hbase : base ≤ 16) (hv : v < base ^ k) :
    ∃ w, (∀ x ∈ w, x ∈ Alphabet.digits base) ∧ w.length = k ∧ numeralValue base w = v := by
  induction k generalizing v with
  | zero =>
    rw [pow_zero, Nat.lt_one_iff] at hv
    exact ⟨[], List.forall_mem_nil _, rfl, hv.symm⟩
  | succ k ih =>
    have hpower : 0 < base ^ k := by
      rw [pow_succ] at hv
      exact Nat.pos_of_mul_pos_right (Nat.zero_lt_of_lt hv)
    have hfirst : v / base ^ k < base := Nat.div_lt_of_lt_mul (by rwa [pow_succ] at hv)
    obtain ⟨w, hw, hlength, hvalue⟩ := ih (Nat.mod_lt v hpower)
    obtain ⟨x, hx⟩ := Alphabet.exists_idxOf?_eq_some (a := Alphabet.digits base)
      (by rwa [Alphabet.size_digits hbase])
    obtain ⟨hmem, hdigit⟩ := Alphabet.idxOf?_digits_eq_some_iff.1 hx
    refine ⟨x :: w, List.forall_mem_cons.2 ⟨hmem, hw⟩, congrArg Nat.succ hlength, ?_⟩
    rw [numeralValue_cons, hdigit, hlength, hvalue, Nat.div_add_mod']

namespace Dfa

section Remainders

variable (hlow : 2 ≤ base) (hhigh : base ≤ 16)

include hlow hhigh

/-- Every remainder is left by some numeral. -/
theorem allReached_remainders : (remainders number base).AllReached := by
  intro s hs
  have hs : s < number := (StateNames.size_numbered "S" number) ▸ hs
  obtain ⟨w, hw, -, hvalue⟩ := exists_numeral hhigh (Nat.lt_pow_self hlow : s < base ^ s)
  refine ⟨w, (run_remainders hhigh (Nat.zero_lt_of_lt hs) hw).trans ?_⟩
  rw [Nat.zero_mul, Nat.zero_add, hvalue, Nat.mod_eq_of_lt hs]

/-- Every remainder can be completed to a multiple. -/
theorem exists_completion (hnumber : 0 < number) (s : Nat) :
    ∃ w, (∀ x ∈ w, x ∈ Alphabet.digits base) ∧
      number ∣ s * base ^ w.length + numeralValue base w := by
  -- what is missing to the next multiple is at most the number, and has few enough digits
  have hmissing : number - s * base ^ number % number < base ^ number :=
    calc number - s * base ^ number % number ≤ number := Nat.sub_le _ _
      _ < base ^ number := Nat.lt_pow_self hlow
  obtain ⟨w, hw, hlength, hvalue⟩ := exists_numeral hhigh hmissing
  refine ⟨w, hw, ?_⟩
  have hrest := Nat.mod_lt (s * base ^ number) hnumber
  have hnext : s * base ^ number + (number - s * base ^ number % number) =
      number * (s * base ^ number / number) + number := by
    have hdivide := Nat.div_add_mod (s * base ^ number) number
    omega
  rw [hlength, hvalue, hnext]
  exact Dvd.intro _ (Nat.mul_succ _ _)

/-- If the base is coprime to the number, no digits complete two remainders. -/
theorem allSeparated_remainders (hcoprime : number.Coprime base) :
    (remainders number base).AllSeparated := by
  intro s hs t ht hne
  have hsize : (remainders number base).size = number := StateNames.size_numbered "S" number
  rw [hsize] at hs ht
  obtain ⟨w, hw, hdvd⟩ := exists_completion hlow hhigh (Nat.zero_lt_of_lt hs) s
  refine ⟨w, fun hsame => hne ?_⟩
  have hs' := (acceptsFrom_remainders_iff hhigh hs hw).2 hdvd
  rw [hsame, acceptsFrom_remainders_iff hhigh ht hw] at hs'
  have hmultiples : s * base ^ w.length + numeralValue base w ≡
      t * base ^ w.length + numeralValue base w [MOD number] :=
    (Nat.modEq_zero_iff_dvd.2 hdvd).trans (Nat.modEq_zero_iff_dvd.2 hs').symm
  have hpower : s * base ^ w.length ≡ t * base ^ w.length [MOD number] :=
    hmultiples.add_right_cancel' _
  have hremainders : s ≡ t [MOD number] :=
    hpower.cancel_right_of_coprime (hcoprime.pow_right w.length)
  exact hremainders.eq_of_lt_of_lt hs ht

/-- The remainders are reached, completed and told apart. -/
theorem trim_remainders (hcoprime : number.Coprime base) : (remainders number base).Trim where
  reached := allReached_remainders hlow hhigh
  productive s hs := by
    have hs : s < number := (StateNames.size_numbered "S" number) ▸ hs
    obtain ⟨w, hw, hdvd⟩ := exists_completion hlow hhigh (Nat.zero_lt_of_lt hs) s
    exact ⟨w, (acceptsFrom_remainders_iff hhigh hs hw).2 hdvd⟩
  separated := allSeparated_remainders hlow hhigh hcoprime

end Remainders

/-- If the base is coprime to the number, minimization leaves the automaton of the multiples as it
    is, with its numbers, names, moves, start and accepting states, whatever the settings. -/
theorem minimize_multiplesOf (hnumber : 1 ≤ number) (hlow : 2 ≤ base) (hhigh : base ≤ 16)
    (hcoprime : Nat.gcd number base = 1) (config : Config) :
    ∃ d, multiplesOf number base = .ok d ∧ Automaton.minimize config d = d := by
  refine ⟨_, multiplesOf_eq_ok hnumber hlow hhigh, ?_⟩
  have htrim : (remainders number base).Trim := trim_remainders hlow hhigh hcoprime
  exact htrim.minimize_eq_self (wellFormed_remainders hnumber) config

/-- The multiples of nine in base ten; and those of one, under a sink and a prefix that are called
    like its only state. -/
theorem minimize_multiplesOf_nine :
    (∃ d, multiplesOf 9 10 = .ok d ∧ Automaton.minimize {} d = d) ∧
      ∃ d, multiplesOf 1 2 = .ok d ∧
        Automaton.minimize { sinkName := "S0", dfaPrefix := "S" } d = d :=
  ⟨minimize_multiplesOf (by decide) (by decide) (by decide) (by decide) _,
    minimize_multiplesOf (by decide) (by decide) (by decide) (by decide) _⟩

end Dfa

end Acceptors
