import Acceptors.Builder
import Acceptors.Dfa.Multiples
import Acceptors.Proofs.Dfa.Language
import Acceptors.Proofs.Listing
import Acceptors.Proofs.Pattern.Compiled

/-!
# Automata that are compiled and loaded

Whatever an automaton is made from, it is well-formed. A pattern is evaluated on a stack of
automata, which stay well-formed from element to element. Tables, grammars and definitions are
turned into listings, and the states of a listing are numbered before its moves are entered. The
remainders of a division are below the divisor.

Results:
* `Compiler.wellFormed_of_compile`: automata of patterns.
* `Dfa.wellFormed_of_multiplesOf`: automata of remainders.
* `Table.wellFormed_of_load`, `Grammar.wellFormed_of_toNfa`, `Definition.wellFormed_of_toNfa`:
  automata that are described by names.
* `Builder.wellFormed_of_build`: automata of any source.
-/

namespace Acceptors

variable {config : Config} {n : Nfa} {d : Dfa} {text : String}

/-! ## Patterns -/

namespace Compiler

theorem wellFormed_combine {op : Pattern.Operator} {left right : Nfa} (hl : left.WellFormed)
    (hr : right.WellFormed) : (combine config op left right).WellFormed := by
  cases op with
  | union => exact hl.union hr
  | concat => exact hl.concat hr

/-- What holds of the automata of symbols and of all on the stack, and is kept by the operations,
    holds of the automaton that remains. -/
theorem of_evaluate {P : Nfa → Prop} (hatom : ∀ next c, P (atom config next c))
    (hstar : ∀ m, P m → P (m.star config))
    (hcombine : ∀ op left right, P left → P right → P (combine config op left right))
    {instrs : List (Pattern.Placed Pattern.Instr)} {stack : List Nfa} {next : Nat}
    (hstack : ∀ m ∈ stack, P m) (h : (evaluate config instrs stack next).1 = .ok n) : P n := by
  induction instrs generalizing stack next with
  | nil =>
    match stack, h with
    | [m], rfl => exact hstack m List.mem_cons_self
  | cons instr rest ih =>
    obtain ⟨instr, offset⟩ := instr
    cases instr with
    | symbol c => exact ih (List.forall_mem_cons.2 ⟨hatom next c, hstack⟩) h
    | star =>
      match stack, h with
      | m :: stack, h =>
        obtain ⟨hm, hstack⟩ := List.forall_mem_cons.1 hstack
        exact ih (List.forall_mem_cons.2 ⟨hstar m hm, hstack⟩) h
    | operator op =>
      match stack, h with
      | right :: left :: stack, h =>
        obtain ⟨hr, hstack⟩ := List.forall_mem_cons.1 hstack
        obtain ⟨hl, hstack⟩ := List.forall_mem_cons.1 hstack
        exact ih (List.forall_mem_cons.2 ⟨hcombine op left right hl hr, hstack⟩) h

theorem wellFormed_of_compile {k : Compiler} (h : (k.compile text).1 = .ok n) : n.WellFormed := by
  obtain ⟨tokens, instrs, -, -, h⟩ := exists_instructions_of_compile h
  exact of_evaluate (fun _ _ => wellFormed_atom) (fun _ hm => hm.star)
    (fun _ _ _ hl hr => wellFormed_combine hl hr) (List.forall_mem_nil _) h

end Compiler

/-! ## Remainders -/

namespace Dfa

theorem wellFormed_remainders {number base : Nat} (hnumber : 0 < number) :
    (remainders number base).WellFormed := by
  have hsize : (StateNames.numbered "S" number).size = number := StateNames.size_numbered _ _
  refine WellFormed.ofFn (by rwa [hsize]) (fun s hs => ?_) fun s c t _ ht => ?_
  · rwa [StateSet.mem_single.1 hs, hsize]
  · rw [hsize, ← Option.some.inj ht]
    exact Nat.mod_lt _ hnumber

theorem wellFormed_of_multiplesOf {number base : Nat} (h : multiplesOf number base = .ok d) :
    d.WellFormed := by
  rw [multiplesOf] at h
  split at h
  · cases h
  · next hnumber =>
    split at h
    · cases h
    · rw [← Except.ok.inj h]
      exact wellFormed_remainders (Nat.pos_of_ne_zero hnumber)

end Dfa

/-! ## Descriptions by names -/

theorem Table.wellFormed_of_load (h : load config text = .ok n) : n.WellFormed := by
  obtain ⟨t, -, rfl⟩ := Except.map_eq_ok_iff.1 h
  exact Listing.wellFormed_toNfa _

theorem Grammar.wellFormed_of_toNfa {g : Grammar} (h : g.toNfa config = .ok n) :
    n.WellFormed := by
  obtain ⟨alphabet, -, h⟩ := Except.bind_eq_ok_iff.1 h
  obtain ⟨edges, -, h⟩ := Except.bind_eq_ok_iff.1 h
  rw [← Except.ok.inj h]
  exact Listing.wellFormed_toNfa _

theorem Definition.wellFormed_of_toNfa {d : Definition} (h : d.toNfa config = .ok n) :
    n.WellFormed := by
  obtain ⟨alphabet, -, h⟩ := Except.bind_eq_ok_iff.1 h
  obtain ⟨edges, -, h⟩ := Except.bind_eq_ok_iff.1 h
  rw [← Except.ok.inj h]
  exact Listing.wellFormed_toNfa _

/-! ## Sources -/

namespace Source

theorem wellFormed_of_loadGrammar (h : loadGrammar config text = .ok n) : n.WellFormed := by
  obtain ⟨g, -, h⟩ := Except.bind_eq_ok_iff.1 h
  exact Grammar.wellFormed_of_toNfa h

theorem wellFormed_of_load {source : Source} (h : source.load config = .ok n) : n.WellFormed := by
  cases source with
  | definition d => exact Definition.wellFormed_of_toNfa (Except.mapError_eq_ok_iff.1 h)
  | table text => exact Table.wellFormed_of_load h
  | grammar text => exact wellFormed_of_loadGrammar h
  | tableFile contents =>
    obtain ⟨text, -, h⟩ := Except.bind_eq_ok_iff.1 h
    exact Table.wellFormed_of_load h
  | grammarFile contents =>
    obtain ⟨text, -, h⟩ := Except.bind_eq_ok_iff.1 h
    exact wellFormed_of_loadGrammar h
  | pattern text => exact Compiler.wellFormed_of_compile (Except.mapError_eq_ok_iff.1 h)

end Source

theorem Builder.wellFormed_of_build {b : Builder} (h : b.build = .ok n) : n.WellFormed := by
  rw [build] at h
  split at h
  · cases h
  · exact Source.wellFormed_of_load h
  · cases h

end Acceptors
