import Acceptors.Automaton
import Acceptors.Pattern.Compiler
import Acceptors.Proofs.Alike.Deterministic

/-!
# Names do not decide what is built

Every operation, on automata of either kind, makes alike automata from alike ones, whatever names it
is told to give to new states. A compiler evaluates a postorder on a stack of automata; two
compilers that name states differently do so in step, with alike automata on their stacks, and
refuse a pattern at the same place and for the same reason.

Results:
* `Automaton.Alike.accepts_eq`: alike automata accept the same words.
* `Automaton.Alike.inter`, `Automaton.Alike.minimize`: intersection and minimization of automata of
  either kind.
* `Compiler.evaluate_alike`, `Compiler.compile_alike`: two compilers in step.
* `operations_alike`: all of the operations and the compiler.
-/

namespace Acceptors

/-! ## Automata of either kind -/

namespace Automaton

/-- The automata are of one kind and agree on everything but the names of their states. -/
def Alike : Automaton → Automaton → Prop
  | nfa a, nfa b => a.Alike b
  | dfa a, dfa b => a.Alike b
  | _, _ => False

variable {a b a' b' : Automaton}

theorem Alike.toNfa (h : a.Alike b) : a.toNfa.Alike b.toNfa := by
  cases a <;> cases b
  case nfa.nfa => exact h
  case dfa.dfa => exact Dfa.Alike.toNfa h
  all_goals exact h.elim

theorem Alike.toDfa (h : a.Alike b) (config config' : Config) :
    (a.toDfa config).Alike (b.toDfa config') := by
  cases a <;> cases b
  case nfa.nfa => exact Nfa.Alike.toDfa h config config'
  case dfa.dfa => exact h
  all_goals exact h.elim

theorem Alike.alphabet_eq (h : a.Alike b) : a.alphabet = b.alphabet := by
  cases a <;> cases b
  case nfa.nfa => exact Nfa.Alike.alphabet_eq h
  case dfa.dfa => exact Dfa.Alike.alphabet_eq h
  all_goals exact h.elim

/-- Alike automata accept the same words. -/
theorem Alike.accepts_eq (h : a.Alike b) (w : List String) : a.accepts w = b.accepts w := by
  cases a <;> cases b
  case nfa.nfa => exact Nfa.Alike.accepts_eq h w
  case dfa.dfa => exact Dfa.Alike.accepts_eq h w
  all_goals exact h.elim

theorem Alike.complement (h : a.Alike b) (config config' : Config) :
    (a.complement config).Alike (b.complement config') :=
  (h.toDfa config config').complement config config'

theorem Alike.union (h : a.Alike b) (h' : a'.Alike b') (config config' : Config) :
    (a.union config a').Alike (b.union config' b') :=
  h.toNfa.union h'.toNfa config config'

theorem Alike.concat (h : a.Alike b) (h' : a'.Alike b') : (a.concat a').Alike (b.concat b') :=
  h.toNfa.concat h'.toNfa

theorem Alike.star (h : a.Alike b) (config config' : Config) :
    (a.star config).Alike (b.star config') :=
  h.toNfa.star config config'

theorem Alike.minimize (h : a.Alike b) (config config' : Config) :
    (a.minimize config).Alike (b.minimize config') :=
  (h.toDfa config config').minimize config config'

/-- The two complements of the operands are taken over one alphabet, and alike operands agree on
    it. -/
theorem Alike.inter (h : a.Alike b) (h' : a'.Alike b') (config config' : Config) :
    (a.inter config a').Alike (b.inter config' b') := by
  have hrejects : ∀ {x y : Automaton}, x.Alike y →
      Alike (((x.toDfa config).widen (a.alphabet.union a'.alphabet)).complement config)
        (((y.toDfa config').widen (a.alphabet.union a'.alphabet)).complement config') :=
    fun hxy => ((hxy.toDfa config config').widen _).complement config config'
  have hunion : Alike (.nfa _) (.nfa _) := (hrejects h).union (hrejects h') config config'
  rw [Automaton.inter, Automaton.inter, ← h.alphabet_eq, ← h'.alphabet_eq]
  exact hunion.complement config config'

end Automaton

/-! ## Two compilers -/

namespace Compiler

/-- Both compilations fail with the same error, or both lead to alike automata. -/
def SameOutcome : Except Error Nfa → Except Error Nfa → Prop
  | .ok a, .ok b => a.Alike b
  | .error e, .error e' => e = e'
  | _, _ => False

variable {config config' : Config} {a b a' b' : Nfa} {stack stack' : List Nfa}

theorem atom_alike (config config' : Config) (next next' : Nat) (c : Char) :
    (atom config next c).Alike (atom config' next' c) :=
  (((Nfa.alike_new _ _).addState _ _).addMove 0 0 1).setAccepting 1 true

theorem combine_alike (op : Pattern.Operator) (h : a.Alike b) (h' : a'.Alike b') :
    (combine config op a a').Alike (combine config' op b b') := by
  cases op with
  | union => exact h.union h' config config'
  | concat => exact h.concat h'

/-- Each element changes alike stacks to alike stacks, or is refused on both. -/
theorem evaluate_alike (instrs : List (Pattern.Placed Pattern.Instr)) (next next' : Nat)
    (hstack : List.Forall₂ Nfa.Alike stack stack') :
    SameOutcome (evaluate config instrs stack next).1 (evaluate config' instrs stack' next').1 := by
  induction instrs generalizing stack stack' next next' with
  | nil =>
    cases hstack with
    | nil => rfl
    | cons h hstack =>
      cases hstack with
      | nil => exact h
      | cons h' hstack =>
        show Error.leftover _ = Error.leftover _
        rw [List.length_cons, List.length_cons, List.length_cons, List.length_cons,
          hstack.length_eq]
  | cons instr rest ih =>
    obtain ⟨instr, offset⟩ := instr
    cases instr with
    | symbol c => exact ih _ _ (.cons (atom_alike config config' next next' c) hstack)
    | star =>
      cases hstack with
      | nil => rfl
      | cons h hstack => exact ih _ _ (.cons (h.star config config') hstack)
    | operator op =>
      -- the right operand lies on top of the left one
      cases hstack with
      | nil => rfl
      | cons hright hstack =>
        cases hstack with
        | nil => rfl
        | cons hleft hstack => exact ih _ _ (.cons (combine_alike op hleft hright) hstack)

theorem compile_alike (config config' : Config) (next next' : Nat) (pattern : String) :
    SameOutcome (compile ⟨config, next⟩ pattern).1 (compile ⟨config', next'⟩ pattern).1 := by
  rw [compile, compile]
  cases Pattern.instructions pattern with
  | error e => exact rfl
  | ok instrs => exact evaluate_alike instrs next next' .nil

end Compiler

/-! ## All of the operations -/

/-- Alike operands lead to alike results, whatever the names that the two automata have, that the
    two settings give to new states and that two sinks are given. Two compilers that differ in
    their settings and in the number of the next state compile a pattern to alike automata or
    refuse it with the same error. -/
theorem operations_alike (config config' : Config) :
    (∀ a b : Nfa, a.Alike b →
      a.eliminateEpsilon.Alike b.eliminateEpsilon ∧
        (a.determinize config).Alike (b.determinize config')) ∧
    (∀ a b : Automaton, a.Alike b →
      a.toNfa.Alike b.toNfa ∧
        (a.toDfa config).Alike (b.toDfa config') ∧
        (a.minimize config).Alike (b.minimize config') ∧
        (a.complement config).Alike (b.complement config') ∧
        (a.star config).Alike (b.star config')) ∧
    (∀ a b a' b' : Automaton, a.Alike b → a'.Alike b' →
      (a.union config a').Alike (b.union config' b') ∧
        (a.concat a').Alike (b.concat b') ∧
        (a.inter config a').Alike (b.inter config' b')) ∧
    (∀ a b : Dfa, a.Alike b →
      (∀ sinkName sinkName', (a.complete sinkName).Alike (b.complete sinkName')) ∧
        ∀ keep, (a.restrict keep).Alike (b.restrict keep)) ∧
    ∀ next next' pattern,
      Compiler.SameOutcome (Compiler.compile ⟨config, next⟩ pattern).1
        (Compiler.compile ⟨config', next'⟩ pattern).1 := by
  refine ⟨fun a b h => ?_, fun a b h => ?_, fun a b a' b' h h' => ?_, fun a b h => ?_,
    fun next next' pattern => ?_⟩
  · exact ⟨h.eliminateEpsilon, h.determinize config config'⟩
  · exact ⟨h.toNfa, h.toDfa config config', h.minimize config config',
      h.complement config config', h.star config config'⟩
  · exact ⟨h.union h' config config', h.concat h', h.inter h' config config'⟩
  · exact ⟨fun sinkName sinkName' => h.complete sinkName sinkName', h.restrict⟩
  · exact Compiler.compile_alike config config' next next' pattern

/-- The states of two automata have the names that the settings hold ready, so that one union has
    its new start state renamed and the other both of its new states. -/
theorem operations_alike_renamed :
    let a : Automaton := .nfa (.new (.single "a") "S")
    let b : Automaton := .nfa (.new (.single "a") "p")
    let config' : Config := { startName := "p'", finalName := "p" }
    a.Alike b ∧ (a.union {} a).Alike (b.union config' b) ∧
      (a.union {} a).names.toList = ["S", "S'", "S''", "F"] ∧
      (b.union config' b).names.toList = ["p", "p'", "p''", "p'''"] := by
  intro a b config'
  have h : a.Alike b := Nfa.alike_new "S" "p"
  exact ⟨h, ((operations_alike {} config').2.2.1 a b a b h h).1, by decide +kernel,
    by decide +kernel⟩

end Acceptors
