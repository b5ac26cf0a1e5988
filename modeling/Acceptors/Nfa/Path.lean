import Acceptors.Nfa.Run

/-!
# Paths

What a nondeterministic automaton accepts is defined by its paths: a word is accepted if its symbols
label a path from the start to an accepting state, with any number of epsilon moves between them.
The runs of `Acceptors.Nfa.Run` find out whether there is such a path.

Results:
* `Nfa.Path.trans`, `Nfa.path_append_iff`: paths are composed and cut at any place of their words.
* `Nfa.mem_closure`: the closure of a set holds what paths without symbols lead to.
-/

namespace Acceptors

namespace Nfa

/-- `n.Path s w t`: the word `w` labels a path from state `s` to state `t`. -/
inductive Path (n : Nfa) : Nat → List String → Nat → Prop
  | refl (s : Nat) : Path n s [] s
  | epsilon {s t u : Nat} {w : List String} :
      t ∈ n.epsilonTargets s → Path n t w u → Path n s w u
  | symbol {s t u c : Nat} {a : String} {w : List String} :
      n.alphabet.idxOf? a = some c → t ∈ n.targets s c → Path n t w u → Path n s (a :: w) u

namespace Path

variable {n : Nfa} {s t u : Nat} {v w : List String}

theorem trans (hst : n.Path s v t) (htu : n.Path t w u) : n.Path s (v ++ w) u := by
  induction hst with
  | refl => exact htu
  | epsilon h _ ih => exact .epsilon h (ih htu)
  | symbol ha h _ ih => exact .symbol ha h (ih htu)

/-- A path for two words one after the other passes through a state between them. -/
theorem split (h : n.Path s (v ++ w) u) : ∃ t, n.Path s v t ∧ n.Path t w u := by
  generalize hvw : v ++ w = x at h
  induction h generalizing v with
  | refl s =>
    obtain ⟨rfl, rfl⟩ := List.append_eq_nil_iff.1 hvw
    exact ⟨s, .refl s, .refl s⟩
  | epsilon ht _ ih =>
    obtain ⟨r, hr, hu⟩ := ih hvw
    exact ⟨r, .epsilon ht hr, hu⟩
  | @symbol s t u c a x ha ht h ih =>
    cases v with
    | nil =>
      subst hvw
      exact ⟨s, .refl s, .symbol ha ht h⟩
    | cons b v =>
      rw [List.cons_append, List.cons.injEq] at hvw
      obtain ⟨rfl, hvw⟩ := hvw
      obtain ⟨r, hr, hu⟩ := ih hvw
      exact ⟨r, .symbol ha ht hr, hu⟩

end Path

theorem path_append_iff {n : Nfa} {s u : Nat} {v w : List String} :
    n.Path s (v ++ w) u ↔ ∃ t, n.Path s v t ∧ n.Path t w u :=
  ⟨Path.split, fun ⟨_, h, h'⟩ => h.trans h'⟩

/-- The search along epsilon moves follows the paths without symbols. -/
theorem leads_epsilon_iff {n : Nfa} {s t : Nat} :
    Search.Leads (fun s => (n.epsilonTargets s).members) s t ↔ n.Path s [] t := by
  constructor
  · intro h
    induction h with
    | refl s => exact .refl s
    | step h _ ih => exact .epsilon (StateSet.mem_members.1 h) ih
  · intro h
    generalize hw : ([] : List String) = w at h
    induction h with
    | refl s => exact .refl s
    | epsilon h _ ih => exact .step (StateSet.mem_members.2 h) (ih hw)
    | symbol => cases hw

/-- The closure of a set of states holds what paths without symbols lead to from it. -/
theorem WellFormed.mem_closure {n : Nfa} (hn : n.WellFormed) {X : StateSet} {t : Nat}
    (hX : ∀ s ∈ X, s < n.size) : t ∈ n.closure X ↔ ∃ s ∈ X, n.Path s [] t := by
  rw [closure, Search.mem_reach
    (fun s _ r hr => hn.epsilonTargets_lt s r (StateSet.mem_members.1 hr))
    (fun s hs => hX s (StateSet.mem_members.1 hs))]
  simp only [leads_epsilon_iff, StateSet.mem_members]

end Nfa

end Acceptors
