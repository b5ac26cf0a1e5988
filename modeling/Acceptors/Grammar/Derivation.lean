import Acceptors.Grammar.Basic

/-!
# Derivations

A grammar generates a word from a variable by applying rules until no variable is left.
-/

namespace Acceptors

namespace Grammar

/-- `g.Derives A w`: the word `w` is generated from the variable `A`. -/
inductive Derives (g : Grammar) : String → List String → Prop
  | step {A a B : String} {w : List String} :
      ⟨A, .step a B⟩ ∈ g.rules → Derives g B w → Derives g A (a :: w)
  | terminal {A a : String} : ⟨A, .terminal a⟩ ∈ g.rules → Derives g A [a]
  | empty {A : String} : ⟨A, .empty⟩ ∈ g.rules → Derives g A []
  | unit {A B : String} {w : List String} :
      ⟨A, .unit B⟩ ∈ g.rules → Derives g B w → Derives g A w

/-- The word is generated from the start variable. -/
def Generates (g : Grammar) (w : List String) : Prop := g.Derives g.start w

end Grammar

end Acceptors
