import Acceptors.Pattern.Compiler
import Acceptors.Proofs.Nfa.Combined
import Acceptors.Proofs.Pattern.Spelled

/-!
# The language of a compiled pattern

A postorder is evaluated on a stack of automata: the elements of an expression put one automaton on
the stack, whose language is that of the expression. The stack below and the elements that follow
play no part, so that the operands of an operator are found where they were put. Before that, the
text of the pattern was read as tokens, its pluses were written out and its postorder was found;
each of these passes leaves an expression of the same language.

Results:
* `Compiler.language_atom`: the automaton of a symbol accepts the word of that symbol.
* `Compiler.yields_postorder`: evaluation puts an automaton of the expression on the stack.
* `Compiler.compile_fst`: a pattern is compiled pass by pass.
* `Compiler.compile_of_reads`: a pattern is compiled to the language that its tokens are read as.
* `Compiler.compile_accepts_iff`: if no run of stars and pluses that begins with a plus contains a
  star, the compiled automaton accepts the words of the expression that the pattern is a way to
  write.
-/

namespace Acceptors

/-- The elements that are evaluated for the tokens of a pattern. -/
def Pattern.instructionsOf (tokens : List (Placed Token)) : Except Error (List (Placed Instr)) := do
  let pieces ← expandPlus tokens
  postorder (insertConcat pieces)

namespace Compiler

open Pattern

open scoped Computability

variable {config : Config} {next : Nat} {c : Char} {level : Level} {r : Regex}
variable {L : Language String} {ts : List Token} {s t : Nat} {a : String}

/-! ## Symbols -/

/-- The two states of a symbol, before the move between them is added. -/
def atomStates (config : Config) (next : Nat) (c : Char) : Nfa :=
  (Nfa.new (.single (String.singleton c)) (config.statePrefix ++ toString next)).addState
    (config.statePrefix ++ toString (next + 1))

theorem wellFormed_atomStates : (atomStates config next c).WellFormed :=
  Nfa.wellFormed_new.addState _

theorem size_atomStates : (atomStates config next c).size = 2 := by
  rw [atomStates, Nfa.size_addState, Nfa.size_new]

theorem wellFormed_atom : (atom config next c).WellFormed := by
  refine (wellFormed_atomStates.addMove 0 0 ?_).setAccepting ?_ true
  · rw [size_atomStates]
    decide
  · show 1 < (atomStates config next c).size
    rw [size_atomStates]
    decide

/-- The only move reads the symbol and leads from the first state to the second. -/
theorem moves_atom :
    (atom config next c).Moves s a t ↔ s = 0 ∧ a = String.singleton c ∧ t = 1 := by
  have hcell : ∀ column, t ∈ (atom config next c).targets s column ↔
      s = 0 ∧ column = 0 ∧ t = 1 := by
    intro column
    show t ∈ ((atomStates config next c).addMove 0 0 1).targets s column ↔ _
    rw [Nfa.mem_targets_addMove wellFormed_atomStates, size_atomStates, atomStates,
      Nfa.targets_addState Nfa.wellFormed_new, Nfa.targets_new]
    simp [StateSet.not_mem_empty, Nfa.addState, Nfa.new, Alphabet.size, Alphabet.single]
  have hcolumn : ∀ column, (atom config next c).alphabet.idxOf? a = some column ↔
      a = String.singleton c ∧ column = 0 := fun column => Alphabet.idxOf?_single_eq_some_iff
  simp only [Nfa.Moves, hcell, hcolumn]
  constructor
  · rintro ⟨column, ⟨ha, -⟩, hs, -, ht⟩
    exact ⟨hs, ha, ht⟩
  · rintro ⟨hs, ha, ht⟩
    exact ⟨0, ⟨ha, rfl⟩, hs, rfl, ht⟩

theorem epsilonTargets_atom : (atom config next c).epsilonTargets s = ∅ := by
  show (atomStates config next c).epsilonTargets s = ∅
  rw [atomStates, Nfa.epsilonTargets_addState, Nfa.epsilonTargets_new]

theorem mem_accepting_atom : s ∈ (atom config next c).accepting ↔ s = 1 := by
  show s ∈ StateSet.insert ∅ 1 ↔ s = 1
  rw [StateSet.mem_insert, or_iff_right (StateSet.not_mem_empty s)]

/-- The automaton of a symbol accepts the word of that symbol and no other. -/
theorem language_atom : (atom config next c).language = {[String.singleton c]} := by
  ext w
  constructor
  · intro h
    have key := Nfa.RecognizesFrom.induct
      (P := fun s w => (s = 0 → w = [String.singleton c]) ∧ (s = 1 → w = [])) ?_ ?_ ?_ h
    · exact key.1 rfl
    · intro s hs
      rw [mem_accepting_atom.1 hs]
      exact ⟨fun h => absurd h (by decide), fun _ => rfl⟩
    · intro s t w ht
      rw [epsilonTargets_atom] at ht
      exact absurd ht (StateSet.not_mem_empty t)
    · intro s a t w ht ih
      obtain ⟨rfl, rfl, rfl⟩ := moves_atom.1 ht
      exact ⟨fun _ => by rw [ih.2 rfl], fun h => absurd h (by decide)⟩
  · rintro rfl
    exact .cons (moves_atom.2 ⟨rfl, rfl, rfl⟩) (.nil (mem_accepting_atom.2 rfl))

/-! ## Evaluation -/

/-- `Yields config instrs L`: whatever is on the stack and whatever follows, the elements put one
    automaton on the stack, whose language is `L`. -/
def Yields (config : Config) (instrs : List (Placed Instr)) (L : Language String) : Prop :=
  ∀ rest stack next, ∃ n next', evaluate config (instrs ++ rest) stack next =
      evaluate config rest (n :: stack) next' ∧
    n.WellFormed ∧ n.language = L

variable {left right instrs : List (Placed Instr)} {M : Language String}

theorem yields_symbol (config : Config) (c : Char) (offset : Nat) :
    Yields config [⟨.symbol c, offset⟩] {[String.singleton c]} := fun _ _ next =>
  ⟨atom config next c, next + 2, rfl, wellFormed_atom, language_atom⟩

theorem Yields.star (h : Yields config instrs L) (offset : Nat) :
    Yields config (instrs ++ [⟨.star, offset⟩]) L∗ := by
  intro rest stack next
  obtain ⟨n, next', heval, hn, hlang⟩ := h ([⟨.star, offset⟩] ++ rest) stack next
  refine ⟨n.star config, next', ?_, hn.star, ?_⟩
  · rw [List.append_assoc, heval]
    rfl
  · rw [hn.language_star, hlang]

/-- The automata that two operands have put on the stack, the right one on top. -/
theorem Yields.both (hl : Yields config left L) (hr : Yields config right M)
    (rest : List (Placed Instr)) (stack : List Nfa) (next : Nat) :
    ∃ n m next', evaluate config (left ++ right ++ rest) stack next =
        evaluate config rest (m :: n :: stack) next' ∧
      (n.WellFormed ∧ n.language = L) ∧ m.WellFormed ∧ m.language = M := by
  obtain ⟨n, next₁, hn, hleft⟩ := hl (right ++ rest) stack next
  obtain ⟨m, next₂, hm, hright⟩ := hr rest (n :: stack) next₁
  exact ⟨n, m, next₂, by rw [List.append_assoc, hn, hm], hleft, hright⟩

theorem Yields.union (hl : Yields config left L) (hr : Yields config right M) (offset : Nat) :
    Yields config (left ++ right ++ [⟨.operator .union, offset⟩]) (L + M) := by
  intro rest stack next
  obtain ⟨n, m, next', heval, ⟨hn, hL⟩, hm, hM⟩ :=
    hl.both hr ([⟨.operator .union, offset⟩] ++ rest) stack next
  refine ⟨n.union config m, next', ?_, hn.union hm, ?_⟩
  · rw [List.append_assoc, heval]
    rfl
  · rw [hn.language_union hm, hL, hM]

theorem Yields.concat (hl : Yields config left L) (hr : Yields config right M) (offset : Nat) :
    Yields config (left ++ right ++ [⟨.operator .concat, offset⟩]) (L * M) := by
  intro rest stack next
  obtain ⟨n, m, next', heval, ⟨hn, hL⟩, hm, hM⟩ :=
    hl.both hr ([⟨.operator .concat, offset⟩] ++ rest) stack next
  refine ⟨n.concat m, next', ?_, hn.concat hm, ?_⟩
  · rw [List.append_assoc, heval]
    rfl
  · rw [hn.language_concat hm, hL, hM]

/-- The last element of a list by its value. -/
theorem map_value_eq_append {instr : Instr} {values : List Instr}
    (h : instrs.map (·.value) = values ++ [instr]) :
    ∃ front offset, instrs = front ++ [⟨instr, offset⟩] ∧ front.map (·.value) = values := by
  obtain ⟨front, last, rfl, hfront, hlast⟩ := List.map_eq_append_iff.1 h
  obtain ⟨⟨_, offset⟩, tail, rfl, rfl, htail⟩ := List.map_eq_cons_iff.1 hlast
  obtain rfl := List.map_eq_nil_iff.1 htail
  exact ⟨front, offset, rfl, hfront⟩

/-- The elements of an expression put an automaton of the expression on the stack. -/
theorem yields_postorder (config : Config) (r : Regex) {instrs : List (Placed Instr)}
    (h : instrs.map (·.value) = r.postorder) : Yields config instrs r.language := by
  induction r generalizing instrs with
  | symbol c =>
    have hvalues : instrs.map (·.value) = [] ++ [.symbol c] := h
    obtain ⟨front, offset, rfl, hfront⟩ := map_value_eq_append hvalues
    obtain rfl := List.map_eq_nil_iff.1 hfront
    rw [Regex.language_symbol]
    exact yields_symbol config c offset
  | union r s ihr ihs =>
    obtain ⟨operands, offset, rfl, hoperands⟩ := map_value_eq_append h
    obtain ⟨left, right, rfl, hleft, hright⟩ := List.map_eq_append_iff.1 hoperands
    rw [Regex.language_union]
    exact (ihr hleft).union (ihs hright) offset
  | concat r s ihr ihs =>
    obtain ⟨operands, offset, rfl, hoperands⟩ := map_value_eq_append h
    obtain ⟨left, right, rfl, hleft, hright⟩ := List.map_eq_append_iff.1 hoperands
    rw [Regex.language_concat]
    exact (ihr hleft).concat (ihs hright) offset
  | star r ih =>
    obtain ⟨operand, offset, rfl, hoperand⟩ := map_value_eq_append h
    rw [Regex.language_star]
    exact (ih hoperand).star offset
  | plus r ih =>
    obtain ⟨operands, offset, rfl, hoperands⟩ := map_value_eq_append h
    obtain ⟨left, right, rfl, hleft, hright⟩ := List.map_eq_append_iff.1 hoperands
    obtain ⟨operand, offset', rfl, hoperand⟩ := map_value_eq_append hright
    rw [Regex.language_plus]
    exact (ih hleft).concat ((ih hoperand).star offset') offset

/-! ## Compilation -/

/-- A pattern is compiled by passes, each of which can refuse it. That it must not be empty needs no
    check of its own: there would be nothing to evaluate. -/
theorem compile_fst (k : Compiler) (pattern : String) :
    (k.compile pattern).1 = (do
      let tokens ← tokenize pattern
      let instrs ← instructionsOf tokens
      (evaluate k.config instrs [] k.next).1) := by
  rw [compile]
  cases htokens : tokenize pattern with
  | error e =>
    have hinstrs : instructions pattern = .error e := by
      rw [instructions, htokens]
      rfl
    rw [hinstrs]
    rfl
  | ok tokens =>
    cases tokens with
    | nil =>
      have hinstrs : instructions pattern = .error .emptyPattern := by
        rw [instructions, htokens]
        rfl
      rw [hinstrs]
      rfl
    | cons t rest =>
      have hinstrs : instructions pattern = instructionsOf (t :: rest) := by
        rw [instructions, htokens]
        rfl
      rw [hinstrs]
      show _ = instructionsOf (t :: rest) >>= _
      cases instructionsOf (t :: rest) with
      | error e => rfl
      | ok instrs => rfl

/-- The passes that a pattern has gone through when it is compiled. -/
theorem exists_instructions_of_compile {k : Compiler} {pattern : String} {n : Nfa}
    (h : (k.compile pattern).1 = .ok n) :
    ∃ tokens instrs, tokenize pattern = .ok tokens ∧ instructionsOf tokens = .ok instrs ∧
      (evaluate k.config instrs [] k.next).1 = .ok n := by
  rw [compile_fst] at h
  obtain ⟨tokens, htokens, h⟩ := Except.bind_eq_ok_iff.1 h
  obtain ⟨instrs, hinstrs, h⟩ := Except.bind_eq_ok_iff.1 h
  exact ⟨tokens, instrs, htokens, hinstrs, h⟩

/-- A pattern is compiled to the language that its tokens are read as. -/
theorem compile_of_reads (k : Compiler) {pattern : String} (hpattern : Spells pattern.toList ts)
    (h : Reads .alternatives r L ts) :
    ∃ n, (k.compile pattern).1 = .ok n ∧ n.WellFormed ∧ n.language = L := by
  obtain ⟨tokens, htokens, rfl⟩ := hpattern.tokenize
  obtain ⟨pieces, e, hpieces, he, rfl⟩ := h.expandPlus
  obtain ⟨instrs, hinstrs, hvalues⟩ := he.postorder
  obtain ⟨n, next, heval, hn, hlang⟩ := yields_postorder k.config e hvalues [] [] k.next
  rw [List.append_nil] at heval
  have hpasses : instructionsOf tokens = .ok instrs :=
    Except.bind_eq_ok_iff.2 ⟨pieces, hpieces, hinstrs⟩
  have hresult : (evaluate k.config instrs [] k.next).1 = .ok n := by
    rw [heval]
    rfl
  refine ⟨n, ?_, hn, hlang⟩
  rw [compile_fst]
  exact Except.bind_eq_ok_iff.2
    ⟨tokens, htokens, Except.bind_eq_ok_iff.2 ⟨instrs, hpasses, hresult⟩⟩

/-- Unless a run of stars and pluses that begins with a plus contains a star, a pattern is compiled
    to an automaton that accepts the words of the expression that it is a way to write. -/
theorem compile_accepts_iff (k : Compiler) {pattern : String}
    (hpattern : Writes .alternatives r pattern.toList)
    (hruns : ∀ tokens, tokenize pattern = .ok tokens → PlusRunsPure (tokens.map (·.value))) :
    ∃ n, (k.compile pattern).1 = .ok n ∧ ∀ w, n.accepts w = true ↔ r.Matches w := by
  obtain ⟨L, ts, hspells, hreads⟩ := hpattern.reads
  obtain ⟨tokens, htokens, rfl⟩ := hspells.tokenize
  obtain ⟨n, hcompile, hn, hlang⟩ := compile_of_reads k hspells hreads
  refine ⟨n, hcompile, fun w => ?_⟩
  rw [hn.accepts_iff, hlang, ← hreads.language_eq (hruns tokens htokens), Regex.mem_language]

/-- Groups, runs of both kinds, a bar and an escaped operator. -/
theorem compile_accepts_iff_groups :
    ∃ n, (({ next := 7 } : Compiler).compile "(a|b)*+c|\\*++").1 = .ok n ∧
      ∀ w, n.accepts w = true ↔
        (Regex.union (.concat (.plus (.star (.union (.symbol 'a') (.symbol 'b')))) (.symbol 'c'))
          (.plus (.plus (.symbol '*')))).Matches w := by
  apply compile_accepts_iff
  · show Writes .alternatives _
      (('(' :: (['a'] ++ '|' :: ['b']) ++ [')'] ++ ['*'] ++ ['+'] ++ ['c']) ++
        '|' :: (['\\', '*'] ++ ['+'] ++ ['+']))
    have ha : Writes .repeated (.symbol 'a') ['a'] := .ofAtom (.plain (by decide) (by decide))
    have hb : Writes .repeated (.symbol 'b') ['b'] := .ofAtom (.plain (by decide) (by decide))
    have hc : Writes .repeated (.symbol 'c') ['c'] := .ofAtom (.plain (by decide) (by decide))
    have hgroup := Writes.group (.bar (.ofSequence (.ofRepeated ha)) (.ofRepeated hb))
    have hleft := Writes.append (.ofRepeated (.plus (.star (.ofAtom hgroup)))) hc
    exact .bar (.ofSequence hleft) (.ofRepeated (.plus (.plus (.ofAtom (.escaped '*')))))
  · rintro _ ⟨⟩
    decide

end Compiler

end Acceptors
