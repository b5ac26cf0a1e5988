import Mathlib.Computability.Language
import Acceptors.Pattern.Regex

/-!
# The languages of regular expressions

The words of a regular expression form a language, and each way of making an expression is the
operation on languages of the same name. Laws of expressions are then laws of a Kleene algebra.

Results:
* `Regex.language_union`, `Regex.language_concat`, `Regex.language_star`, `Regex.language_plus`: the
  language of an expression from those of its parts.
-/

namespace Acceptors

namespace Regex

open scoped Computability

variable {r s : Regex} {c : Char} {w : List String}

/-- The words of an expression. -/
def language (r : Regex) : Language String := fun w => r.Matches w

theorem mem_language : w ∈ r.language ↔ r.Matches w := Iff.rfl

theorem language_symbol : (symbol c).language = {[String.singleton c]} := by
  ext w
  constructor
  · rintro ⟨⟩
    rfl
  · rintro rfl
    exact .symbol c

theorem language_union : (union r s).language = r.language + s.language := by
  ext w
  constructor
  · intro h
    cases h with
    | unionLeft h => exact .inl h
    | unionRight h => exact .inr h
  · rintro (h | h)
    · exact .unionLeft h
    · exact .unionRight h

theorem language_concat : (concat r s).language = r.language * s.language := by
  ext w
  rw [Language.mem_mul]
  constructor
  · intro h
    cases h with
    | concat hu hv => exact ⟨_, hu, _, hv, rfl⟩
  · rintro ⟨u, hu, v, hv, rfl⟩
    exact .concat hu hv

theorem language_star : (star r).language = r.language∗ := by
  ext w
  rw [Language.mem_kstar]
  constructor
  · intro h
    rw [mem_language] at h
    generalize hs : star r = s at h
    induction h with
    | starNil => exact ⟨[], rfl, by simp⟩
    | @starAppend r' u v hu _ _ ih =>
      obtain rfl : r = r' := by cases hs; rfl
      obtain ⟨words, rfl, hwords⟩ := ih rfl
      exact ⟨u :: words, rfl, List.forall_mem_cons.2 ⟨hu, hwords⟩⟩
    | symbol | unionLeft | unionRight | concat | plus => cases hs
  · rintro ⟨words, rfl, hwords⟩
    induction words with
    | nil => exact .starNil r
    | cons u words ih =>
      obtain ⟨hu, hwords⟩ := List.forall_mem_cons.1 hwords
      exact .starAppend hu (ih hwords)

theorem language_plus : (plus r).language = r.language * r.language∗ := by
  ext w
  rw [← language_star, Language.mem_mul]
  constructor
  · intro h
    cases h with
    | plus hu hv => exact ⟨_, hu, _, hv, rfl⟩
  · rintro ⟨u, hu, v, hv, rfl⟩
    exact .plus hu hv

end Regex

end Acceptors
