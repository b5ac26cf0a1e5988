import Acceptors.Proofs.Grammar.Minimized
import Acceptors.Proofs.Intersection
import Acceptors.Proofs.Table.RoundTrip

/-!
# Automata that are composed can be written in tables

An automaton can be written in a table if its symbols and the names of its states are names and no
symbol is the epsilon marker. No operation takes this away, so that it is kept however the
operations are nested. The symbols of a result are symbols of the operands. The names of its states
are names of the operands, names from the settings, or made from them: written one after the other,
with a number or with rename suffixes behind them.

Only minimization needs more than this of its operand. It writes the names of a class of states one
after the other, which make a name because no class is empty, and this is known of well-formed
automata alone. So well-formedness is carried along.

Results:
* `StateNames.Tabular`, `Config.Tabular`, `Automaton.Tabular`: names that can be written.
* `Automaton.Tabular.union`, `Automaton.Tabular.inter` and others: what each operation keeps.
* `Automaton.Composed`: what the operations make in any nesting.
* `Automaton.render_composed`: all of it can be written.
-/

namespace Acceptors

open Text (isName)

/-! ## Names -/

namespace StateNames

variable {t : StateNames} {names : List String} {x : String}

/-- The names can be written in tables. -/
def Tabular (t : StateNames) : Prop := ∀ x ∈ t.toList, isName x = true

theorem Tabular.insert (h : t.Tabular) (hx : isName x = true) : (t.insert x).Tabular := by
  rw [Tabular, toList_insert, List.forall_mem_append, List.forall_mem_singleton]
  exact ⟨h, (t.renamed_fresh x).isName hx⟩

theorem Tabular.insertAll (h : t.Tabular) (hnames : ∀ x ∈ names, isName x = true) :
    (t.insertAll names).Tabular := by
  induction names generalizing t with
  | nil => exact h
  | cons x names ih =>
    obtain ⟨hx, hnames⟩ := List.forall_mem_cons.1 hnames
    exact ih (h.insert hx) hnames

theorem tabular_numbered (h : x = "" ∨ isName x = true) (n : Nat) : (numbered x n).Tabular := by
  intro y hy
  rw [toList_numbered] at hy
  obtain ⟨i, -, rfl⟩ := List.mem_map.1 hy
  exact Text.isName_append_toString h i

end StateNames

/-- The names of created states can be written in tables. -/
structure Config.Tabular (config : Config) : Prop where
  sink : isName config.sinkName = true
  subsets : config.dfaPrefix = "" ∨ isName config.dfaPrefix = true
  start : isName config.startName = true
  final : isName config.finalName = true

theorem Config.tabular_default : ({} : Config).Tabular where
  sink := by decide
  subsets := .inr (by decide)
  start := by decide
  final := by decide

/-! ## Operations -/

namespace Automaton

variable {marker : String} {config : Config} {a b : Automaton} {n : Nfa} {d : Dfa}

/-- The symbols and the names of the states can be written in tables that have the given epsilon
    marker. -/
structure Tabular (marker : String) (a : Automaton) : Prop where
  symbols : ∀ x ∈ a.alphabet, isName x = true ∧ x ≠ marker
  names : a.names.Tabular

/-- What is made from other names over the same symbols. -/
theorem Tabular.of_alphabet_eq (ha : a.Tabular marker) (halphabet : b.alphabet = a.alphabet)
    (hnames : b.names.Tabular) : b.Tabular marker where
  symbols := halphabet ▸ ha.symbols
  names := hnames

theorem Tabular.toNfa (ha : a.Tabular marker) : Tabular marker (nfa a.toNfa) := by
  refine ha.of_alphabet_eq alphabet_toNfa ?_
  show a.toNfa.names.Tabular
  rw [names_toNfa]
  exact ha.names

theorem Tabular.eliminateEpsilon (hn : Tabular marker (nfa n)) :
    Tabular marker (nfa n.eliminateEpsilon) := ⟨hn.symbols, hn.names⟩

theorem Tabular.determinize (hn : Tabular marker (nfa n)) (hconfig : config.Tabular) :
    Tabular marker (dfa (n.determinize config)) :=
  hn.of_alphabet_eq Nfa.alphabet_determinize (StateNames.tabular_numbered hconfig.subsets _)

theorem Tabular.toDfa (ha : a.Tabular marker) (hconfig : config.Tabular) :
    Tabular marker (dfa (a.toDfa config)) := by
  refine ha.of_alphabet_eq alphabet_toDfa ?_
  cases a with
  | dfa d => exact ha.names
  | nfa n =>
    show (n.toDfa config).names.Tabular
    rcases n.names_toDfa config with h | ⟨size, h⟩
    · exact h.symm ▸ ha.names
    · exact h.symm ▸ StateNames.tabular_numbered hconfig.subsets size

theorem Tabular.complete {sinkName : String} (hd : Tabular marker (dfa d))
    (hsink : isName sinkName = true) : Tabular marker (dfa (d.complete sinkName)) := by
  refine hd.of_alphabet_eq Dfa.alphabet_complete fun x hx => ?_
  rcases Dfa.mem_names_complete hx with hx | hx
  · exact hd.names x hx
  · exact hx.isName hsink

theorem Tabular.complement (ha : a.Tabular marker) (hconfig : config.Tabular) :
    Tabular marker (dfa (a.complement config)) :=
  have hcomplete := (ha.toDfa hconfig).complete hconfig.sink
  ⟨hcomplete.symbols, hcomplete.names⟩

/-- The states of two automata side by side. -/
theorem Tabular.join (ha : a.Tabular marker) (hb : b.Tabular marker) :
    Tabular marker (nfa (a.toNfa.join b.toNfa)) where
  symbols x hx := by
    rcases Alphabet.mem_union.1 hx with hx | hx
    · exact ha.toNfa.symbols x hx
    · exact hb.toNfa.symbols x hx
  names := ha.toNfa.names.insertAll hb.toNfa.names

theorem Tabular.union (ha : a.Tabular marker) (hb : b.Tabular marker) (hconfig : config.Tabular) :
    Tabular marker (nfa (a.union config b)) where
  symbols := (ha.join hb).symbols
  names := ((ha.join hb).names.insert hconfig.start).insert hconfig.final

theorem Tabular.concat (ha : a.Tabular marker) (hb : b.Tabular marker) :
    Tabular marker (nfa (a.concat b)) := ⟨(ha.join hb).symbols, (ha.join hb).names⟩

theorem Tabular.star (ha : a.Tabular marker) (hconfig : config.Tabular) :
    Tabular marker (nfa (a.star config)) where
  symbols := ha.toNfa.symbols
  names := (ha.toNfa.names.insert hconfig.start).insert hconfig.final

theorem Tabular.widen {alphabet : Alphabet} (hd : Tabular marker (dfa d))
    (hsymbols : ∀ x ∈ alphabet, isName x = true ∧ x ≠ marker) :
    Tabular marker (dfa (d.widen alphabet)) := ⟨hsymbols, hd.names⟩

theorem Tabular.inter (ha : a.Tabular marker) (hb : b.Tabular marker) (hconfig : config.Tabular) :
    Tabular marker (dfa (a.inter config b)) := by
  have hjoint : ∀ x ∈ a.alphabet.union b.alphabet, isName x = true ∧ x ≠ marker := by
    intro x hx
    rcases Alphabet.mem_union.1 hx with hx | hx
    · exact ha.symbols x hx
    · exact hb.symbols x hx
  have hleft := ((ha.toDfa hconfig).widen hjoint).complement hconfig
  have hright := ((hb.toDfa hconfig).widen hjoint).complement hconfig
  exact (hleft.union hright hconfig).complement hconfig

theorem Tabular.minimize (ha : a.Tabular marker) (hwell : a.WellFormed)
    (hconfig : config.Tabular) : Tabular marker (dfa (a.minimize config)) := by
  have hd := ha.toDfa hconfig
  refine hd.of_alphabet_eq (Dfa.alphabet_minimize config _) ?_
  exact (hwell.toDfa config).isName_minimize config (hd.complete hconfig.sink).names

theorem Tabular.restrict {keep : StateSet} (hd : Tabular marker (dfa d)) :
    Tabular marker (dfa (d.restrict keep)) := by
  refine hd.of_alphabet_eq Dfa.alphabet_restrict fun x hx => ?_
  have hx : x ∈ (d.restrict keep).names.toList := hx
  rw [Dfa.toList_names_restrict] at hx
  obtain ⟨s, hs, rfl⟩ := List.mem_map.1 hx
  exact hd.names _ (Dfa.mem_names_iff.2 ⟨s, (Dfa.mem_kept_iff.1 hs).1, rfl⟩)

/-! ## Any nesting of operations -/

/-- What the operations make, in any order and number, from well-formed automata that can be
    written. Each operation has settings of its own. -/
inductive Composed (marker : String) : Automaton → Prop
  | given {a : Automaton} : a.WellFormed → a.Tabular marker → Composed marker a
  | toNfa {a : Automaton} : Composed marker a → Composed marker (nfa a.toNfa)
  | eliminateEpsilon {n : Nfa} : Composed marker (nfa n) → Composed marker (nfa n.eliminateEpsilon)
  | determinize {n : Nfa} {config : Config} : Composed marker (nfa n) → config.Tabular →
      Composed marker (dfa (n.determinize config))
  | toDfa {a : Automaton} {config : Config} : Composed marker a → config.Tabular →
      Composed marker (dfa (a.toDfa config))
  | minimize {a : Automaton} {config : Config} : Composed marker a → config.Tabular →
      Composed marker (dfa (a.minimize config))
  | complement {a : Automaton} {config : Config} : Composed marker a → config.Tabular →
      Composed marker (dfa (a.complement config))
  | union {a b : Automaton} {config : Config} : Composed marker a → Composed marker b →
      config.Tabular → Composed marker (nfa (a.union config b))
  | concat {a b : Automaton} : Composed marker a → Composed marker b →
      Composed marker (nfa (a.concat b))
  | star {a : Automaton} {config : Config} : Composed marker a → config.Tabular →
      Composed marker (nfa (a.star config))
  | inter {a b : Automaton} {config : Config} : Composed marker a → Composed marker b →
      config.Tabular → Composed marker (dfa (a.inter config b))
  | complete {d : Dfa} {sinkName : String} : Composed marker (dfa d) → isName sinkName = true →
      Composed marker (dfa (d.complete sinkName))
  | restrict {d : Dfa} {keep : StateSet} : Composed marker (dfa d) → d.start ∈ keep →
      (∀ s ∈ keep, s < d.size) → Composed marker (dfa (d.restrict keep))

theorem Composed.wellFormed (h : Composed marker a) : a.WellFormed := by
  induction h with
  | given hwell _ => exact hwell
  | toNfa _ ih => exact ih.toNfa
  | eliminateEpsilon _ ih => exact Nfa.WellFormed.eliminateEpsilon ih
  | determinize _ _ _ => exact Nfa.wellFormed_determinize
  | toDfa _ _ ih => exact ih.toDfa _
  | minimize _ _ ih => exact ih.minimize _
  | complement _ _ ih => exact ih.complement _
  | union _ _ _ iha ihb => exact iha.union ihb _
  | concat _ _ iha ihb => exact iha.concat ihb
  | star _ _ ih => exact ih.star _
  | inter _ _ _ iha ihb => exact iha.inter ihb _
  | complete _ _ ih => exact Dfa.WellFormed.complete ih _
  | restrict _ hstart _ ih => exact Dfa.WellFormed.restrict ih hstart

theorem Composed.tabular (h : Composed marker a) : a.Tabular marker := by
  induction h with
  | given _ htabular => exact htabular
  | toNfa _ ih => exact ih.toNfa
  | eliminateEpsilon _ ih => exact ih.eliminateEpsilon
  | determinize _ hconfig ih => exact ih.determinize hconfig
  | toDfa _ hconfig ih => exact ih.toDfa hconfig
  -- the operation that also needs the tables of its operand to be in shape
  | minimize h hconfig ih => exact ih.minimize h.wellFormed hconfig
  | complement _ hconfig ih => exact ih.complement hconfig
  | union _ _ hconfig iha ihb => exact iha.union ihb hconfig
  | concat _ _ iha ihb => exact iha.concat ihb
  | star _ hconfig ih => exact ih.star hconfig
  | inter _ _ hconfig iha ihb => exact iha.inter ihb hconfig
  | complete _ hsink ih => exact ih.complete hsink
  | restrict _ _ _ ih => exact ih.restrict

/-- Whatever the operations make from automata that can be written, in any nesting, can be
    written. -/
theorem render_composed (h : Composed config.epsilon a) :
    ∃ text, Table.render config a = .ok text := by
  have htabular := h.tabular.toNfa
  have hchecked := checkWritable_eq_ok_iff.2 ⟨htabular.symbols, htabular.names⟩
  exact ⟨_, Table.render_eq_ok_iff.2 ⟨hchecked, rfl⟩⟩

/-- Two automata of which the states are called like states that operations create. The names of
    their union get suffixes, and a state of the minimized star is called after two subsets. -/
theorem render_composed_repeated :
    let a : Automaton :=
      (((Nfa.new (.single "a") "S").addState "S'").addMove 0 0 1).setAccepting 1 true
    let b : Automaton := (Dfa.new (.single "b") "DFA0").setAccepting 0 true
    let either := a.union {} b
    let repeated := Automaton.minimize {} (Automaton.star {} either)
    let both := Automaton.concat repeated either
    a.Tabular "e" ∧ b.Tabular "e" ∧
      both.names.toList = ["DFA0DFA1", "S", "S'", "DFA0", "S''", "F"] ∧
      ∃ text, Table.render {} both = .ok text := by
  intro a b either repeated both
  have ha : a.WellFormed :=
    ((Nfa.wellFormed_new.addState _).addMove 0 0 (by decide)).setAccepting (by decide) true
  have hb : b.WellFormed := Dfa.wellFormed_new.setAccepting (by decide) true
  have hnames : ∀ x ∈ a.names.toList ++ b.names.toList, isName x = true := by decide
  obtain ⟨hleft, hright⟩ := List.forall_mem_append.1 hnames
  have hta : a.Tabular "e" := ⟨List.forall_mem_singleton.2 (by decide), hleft⟩
  have htb : b.Tabular "e" := ⟨List.forall_mem_singleton.2 (by decide), hright⟩
  have hdefault := Config.tabular_default
  have heither : Composed "e" either := .union (.given ha hta) (.given hb htb) hdefault
  have hrepeated : Composed "e" repeated := .minimize (.star heither hdefault) hdefault
  exact ⟨hta, htb, by decide +kernel, render_composed (.concat hrepeated heither)⟩

end Automaton

end Acceptors
