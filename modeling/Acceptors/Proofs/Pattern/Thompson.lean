import Acceptors.Proofs.Loaded
import Acceptors.Proofs.Pattern.Grammatical

/-!
# The shape of a compiled automaton

A compiled automaton has one accepting state, which no move leaves, and no move enters its start
state, which does not accept. The automaton of a symbol has this shape. Union and star add a start
and an accepting state of their own. Concatenation adds no state: only the start state of the right
operand is entered, and only the accepting state of the left one is left, and neither of these keeps
its part.

The columns are in the order in which the symbols occur first in the pattern, although the alphabets
are united in the order of evaluation. What stays the same all the way is the order of first
occurrences of the symbols of the stack, from the bottom up, with those still to come after them.
The copies that a plus makes stand right after what is copied and add no first occurrence.

Results:
* `Nfa.Thompson`: the shape.
* `Nfa.Thompson.concat`, `Compiler.thompson_of_evaluate`: all operations keep it.
* `Compiler.symbols_of_evaluate`, `Pattern.symbolsOf_expandFrom`: the order of the symbols.
* `Compiler.compile_thompson`: what is compiled.
-/

namespace Acceptors

/-! ## Lists without repetitions -/

section FirstOccurrences

variable {α : Type} [DecidableEq α] {xs ys us vs : List α} {x : α}

theorem eraseDups_concat :
    (xs ++ [x]).eraseDups = if x ∈ xs then xs.eraseDups else xs.eraseDups ++ [x] := by
  rw [List.eraseDups_append, List.removeAll]
  by_cases hx : x ∈ xs <;> simp [hx, List.eraseDups_cons]

theorem eraseDups_filter (p : α → Bool) : (xs.filter p).eraseDups = xs.eraseDups.filter p := by
  induction xs using List.reverseRecOn with
  | nil => rfl
  | append_singleton xs x ih =>
    rw [List.filter_append, eraseDups_concat]
    cases hp : p x with
    | true =>
      rw [List.filter_cons_of_pos hp, List.filter_nil, eraseDups_concat, ih]
      by_cases hx : x ∈ xs <;> simp [hx, hp]
    | false =>
      have hp' : ¬ p x = true := Bool.eq_false_iff.1 hp
      rw [List.filter_cons_of_neg hp', List.filter_nil, List.append_nil, ih]
      split <;> simp [hp]

theorem eraseDups_append_eq (xs ys : List α) :
    (xs ++ ys).eraseDups = xs.eraseDups ++ ys.eraseDups.filter (· ∉ xs) := by
  rw [List.eraseDups_append, List.removeAll, eraseDups_filter]
  simp

/-- Lists with the same first occurrences can take each other's place. -/
theorem eraseDups_congr (xs ys : List α) (h : us.eraseDups = vs.eraseDups) :
    (xs ++ us ++ ys).eraseDups = (xs ++ vs ++ ys).eraseDups := by
  have hmem : ∀ x, x ∈ us ↔ x ∈ vs := fun x => by
    rw [← List.mem_eraseDups, h, List.mem_eraseDups]
  have hbefore : (xs ++ us).eraseDups = (xs ++ vs).eraseDups := by
    rw [eraseDups_append_eq, eraseDups_append_eq, h]
  rw [eraseDups_append_eq (xs ++ us), eraseDups_append_eq (xs ++ vs), hbefore]
  simp only [List.mem_append, hmem]

theorem eraseDups_append_filter :
    (xs ++ ys.filter (· ∉ xs)).eraseDups = (xs ++ ys).eraseDups := by
  rw [eraseDups_append_eq, eraseDups_append_eq, eraseDups_filter, List.filter_filter]
  simp

theorem eraseDups_append_self (xs : List α) : (xs ++ xs).eraseDups = xs.eraseDups := by
  have hnone : xs.eraseDups.filter (· ∉ xs) = [] := by
    simp [List.filter_eq_nil_iff]
  rw [eraseDups_append_eq, hnone, List.append_nil]

end FirstOccurrences

/-! ## The shape -/

namespace Nfa

variable {config : Config} {n l r : Nfa} {s t f g : Nat}

/-- Some move leads from one state to the other, on a symbol or without one. -/
def LeadsTo (n : Nfa) (s t : Nat) : Prop := (∃ c, t ∈ n.targets s c) ∨ t ∈ n.epsilonTargets s

/-- The shape of an automaton whose only accepting state is `final`. -/
structure Thompson (n : Nfa) (final : Nat) : Prop where
  accepting_eq : n.accepting = .single final
  start_ne : n.start ≠ final
  /-- No move of any kind enters the start state. -/
  not_leadsTo_start : ∀ s, ¬ n.LeadsTo s n.start
  /-- No move of any kind leaves the accepting state. -/
  not_leadsTo_of_final : ∀ t, ¬ n.LeadsTo final t

theorem WellFormed.leadsTo_iff (hn : n.WellFormed) :
    n.LeadsTo s t ↔ (∃ a, n.Moves s a t) ∨ t ∈ n.epsilonTargets s := by
  refine or_congr_left ⟨?_, ?_⟩
  · rintro ⟨c, ht⟩
    obtain ⟨a, ha⟩ := Alphabet.exists_idxOf?_eq_some (hn.lt_of_mem_targets ht).2
    exact ⟨a, c, ha, ht⟩
  · rintro ⟨a, c, -, ht⟩
    exact ⟨c, ht⟩

theorem WellFormed.lt_of_leadsTo (hn : n.WellFormed) (h : n.LeadsTo s t) :
    s < n.size ∧ t < n.size := by
  rcases h with ⟨c, ht⟩ | ht
  · exact ⟨(hn.lt_of_mem_targets ht).1, hn.targets_lt s c t ht⟩
  · exact ⟨hn.lt_of_mem_epsilonTargets ht, hn.epsilonTargets_lt s t ht⟩

/-! ### Automata side by side -/

theorem WellFormed.leadsTo_join_left (hl : l.WellFormed) (hr : r.WellFormed) (hs : s < l.size) :
    (l.join r).LeadsTo s t ↔ l.LeadsTo s t := by
  rw [(hl.join hr).leadsTo_iff, hl.leadsTo_iff, hl.epsilonTargets_join_left hs]
  simp only [hl.moves_join_left hs]

theorem WellFormed.leadsTo_join_right (hl : l.WellFormed) (hr : r.WellFormed) (hs : l.size ≤ s) :
    (l.join r).LeadsTo s t ↔ l.size ≤ t ∧ r.LeadsTo (s - l.size) (t - l.size) := by
  rw [(hl.join hr).leadsTo_iff, hr.leadsTo_iff, hl.epsilonTargets_join_right hs,
    StateSet.mem_shift]
  simp only [hl.moves_join_right hr hs, exists_and_left, and_or_left]

/-! ### Union -/

theorem WellFormed.leadsTo_union (config : Config) (hl : l.WellFormed) (hr : r.WellFormed) :
    (l.union config r).LeadsTo s t ↔ (l.join r).LeadsTo s t ∨
      s = l.size + r.size ∧ (t = l.start ∨ t = r.start + l.size) ∨
        (s ∈ l.accepting ∨ l.size ≤ s ∧ s - l.size ∈ r.accepting) ∧ t = l.size + r.size + 1 := by
  rw [(hl.union hr).leadsTo_iff, (hl.join hr).leadsTo_iff, mem_epsilonTargets_union config hl hr,
    or_assoc]
  simp only [hl.moves_union hr]

theorem WellFormed.thompson_union (config : Config) (hl : l.WellFormed) (hr : r.WellFormed) :
    (l.union config r).Thompson (l.size + r.size + 1) where
  accepting_eq := accepting_union
  start_ne := by
    rw [start_union]
    omega
  not_leadsTo_start s hs := by
    have hl' := hl.start_lt
    have hr' := hr.start_lt
    rw [start_union, hl.leadsTo_union config hr] at hs
    rcases hs with hs | ⟨-, hs⟩ | ⟨-, hs⟩
    · have hlt := ((hl.join hr).lt_of_leadsTo hs).2
      rw [size_join] at hlt
      omega
    · omega
    · omega
  not_leadsTo_of_final t ht := by
    rcases ht with ⟨c, ht⟩ | ht
    · exact hl.not_mem_targets_union_final hr config c t ht
    · exact hl.not_mem_epsilonTargets_union_final hr config t ht

/-! ### Concatenation -/

theorem WellFormed.leadsTo_concat (hl : l.WellFormed) (hr : r.WellFormed) :
    (l.concat r).LeadsTo s t ↔
      (l.join r).LeadsTo s t ∨ s ∈ l.accepting ∧ t = r.start + l.size := by
  rw [(hl.concat hr).leadsTo_iff, (hl.join hr).leadsTo_iff, mem_epsilonTargets_concat hl hr,
    or_assoc]
  simp only [moves_concat]

/-- A concatenation starts where its left operand starts, and accepts where its right operand
    accepts. -/
theorem Thompson.concat (hl : l.Thompson f) (hr : r.Thompson g) (hl' : l.WellFormed)
    (hr' : r.WellFormed) : (l.concat r).Thompson (g + l.size) where
  accepting_eq := by
    refine StateSet.ext fun s => ?_
    rw [mem_accepting_concat, hr.accepting_eq, StateSet.mem_single, StateSet.mem_single]
    omega
  start_ne := by
    have hlt := hl'.start_lt
    rw [start_concat]
    omega
  not_leadsTo_start s hs := by
    have hlt := hl'.start_lt
    rw [start_concat, hl'.leadsTo_concat hr'] at hs
    rcases hs with hs | ⟨-, hs⟩
    · rcases Nat.lt_or_ge s l.size with hleft | hright
      · exact hl.not_leadsTo_start s ((hl'.leadsTo_join_left hr' hleft).1 hs)
      · have hle := ((hl'.leadsTo_join_right hr' hright).1 hs).1
        omega
    · omega
  not_leadsTo_of_final t ht := by
    rw [hl'.leadsTo_concat hr'] at ht
    rcases ht with ht | ⟨ht, -⟩
    · have hleads := ((hl'.leadsTo_join_right hr' (Nat.le_add_left _ _)).1 ht).2
      rw [Nat.add_sub_cancel] at hleads
      exact hr.not_leadsTo_of_final _ hleads
    · have hlt := hl'.accepting_lt _ ht
      omega

/-! ### Star -/

theorem WellFormed.leadsTo_star (config : Config) (hn : n.WellFormed) :
    (n.star config).LeadsTo s t ↔ n.LeadsTo s t ∨
      (s = n.size ∨ s ∈ n.accepting) ∧ (t = n.start ∨ t = n.size + 1) := by
  rw [hn.star.leadsTo_iff, hn.leadsTo_iff, mem_epsilonTargets_star config hn, or_assoc]
  simp only [hn.moves_star]

theorem WellFormed.thompson_star (config : Config) (hn : n.WellFormed) :
    (n.star config).Thompson (n.size + 1) where
  accepting_eq := rfl
  start_ne := by
    rw [start_star]
    omega
  not_leadsTo_start s hs := by
    have hlt := hn.start_lt
    rw [start_star, hn.leadsTo_star config] at hs
    rcases hs with hs | ⟨-, hs⟩
    · have hlt' := (hn.lt_of_leadsTo hs).2
      omega
    · omega
  not_leadsTo_of_final t ht := by
    rw [hn.leadsTo_star config] at ht
    rcases ht with ht | ⟨hs | hs, -⟩
    · have hlt := (hn.lt_of_leadsTo ht).1
      omega
    · omega
    · have hlt := hn.accepting_lt _ hs
      omega

end Nfa

/-! ## Symbols from pass to pass -/

namespace Pattern

variable {α : Type} {before ps : List (Placed Piece)} {tokens : List (Placed Token)}
variable {stack : List (Placed Pending)} {instrs : List (Placed Instr)} {offset : Nat}

/-- The symbol of a token, if it is one. -/
def Token.text? : Token → Option String
  | symbol c => some (String.singleton c)
  | bar | star | plus | leftParen | rightParen => none

/-- The symbol of a piece, if it is one. -/
def Piece.text? : Piece → Option String
  | symbol c => some (String.singleton c)
  | star | operator _ | leftParen | rightParen => none

/-- The symbol of an element, if it is one. -/
def Instr.text? : Instr → Option String
  | symbol c => some (String.singleton c)
  | star | operator _ => none

/-- The symbols among some things, in order and with their repetitions. -/
def symbolsOf (text? : α → Option String) (things : List (Placed α)) : List String :=
  things.filterMap (text? ·.value)

theorem symbolsOf_append (text? : α → Option String) (front back : List (Placed α)) :
    symbolsOf text? (front ++ back) = symbolsOf text? front ++ symbolsOf text? back :=
  List.filterMap_append

theorem symbolsOf_cons (text? : α → Option String) (thing : Placed α) (rest : List (Placed α)) :
    symbolsOf text? (thing :: rest) = (text? thing.value).toList ++ symbolsOf text? rest := by
  rw [symbolsOf, List.filterMap_cons]
  cases text? thing.value <;> rfl

/-- The symbols of a text, in order and with their repetitions: the characters that are not
    operators, and any character after a backslash. -/
def symbolsIn : List Char → List String
  | [] => []
  | '\\' :: c :: rest => String.singleton c :: symbolsIn rest
  | c :: rest => (if c ∈ operatorChars then [] else [String.singleton c]) ++ symbolsIn rest

theorem text?_ofChar (c : Char) :
    (Token.ofChar c).text?.toList = if c ∈ operatorChars then [] else [String.singleton c] := by
  rw [Token.ofChar]
  split_ifs <;> simp_all [operatorChars, Token.text?]

/-- The symbols of the tokens are those of the text. -/
theorem symbolsOf_tokensFrom {cs : List Char} (h : tokensFrom offset cs = .ok tokens) :
    symbolsOf Token.text? tokens = symbolsIn cs := by
  fun_induction tokensFrom offset cs generalizing tokens with
  | case1 => cases h; rfl
  | case2 => cases h
  | case3 offset c rest ih =>
    obtain ⟨more, hmore, h⟩ := Except.bind_eq_ok_iff.1 h
    cases h
    rw [symbolsOf_cons, ih hmore, symbolsIn]
    rfl
  | case4 offset c rest hlast hescaped ih =>
    obtain ⟨more, hmore, h⟩ := Except.bind_eq_ok_iff.1 h
    cases h
    rw [symbolsOf_cons, ih hmore, text?_ofChar, symbolsIn]
    exact hescaped

/-- Only operators are released. -/
theorem symbolsOf_release {strength : Nat} {taken : List (Placed Instr)}
    {rest : List (Placed Pending)} (h : release strength stack = (taken, rest)) :
    symbolsOf Instr.text? taken = [] := by
  obtain ⟨ops, -, rfl⟩ := exists_released h
  exact List.filterMap_eq_nil_iff.2 (List.forall_mem_map.2 fun _ _ => rfl)

/-- Reordering moves operators past symbols, but no symbol past another. -/
theorem symbolsOf_postorderFrom (h : postorderFrom stack ps = .ok instrs) :
    symbolsOf Instr.text? instrs = symbolsOf Piece.text? ps := by
  induction ps generalizing stack instrs with
  | nil => exact symbolsOf_release (postorderFrom_nil_eq_ok h)
  | cons p ps ih =>
    obtain ⟨out, waiting, rest, hreorders, hrest, rfl⟩ := postorderFrom_cons_eq_ok h
    rw [symbolsOf_append, symbolsOf_cons, ih hrest]
    cases hreorders with
    | symbol | star | opening => rfl
    | operator _ _ hrelease | closing _ _ hrelease =>
      rw [symbolsOf_release hrelease]
      rfl

theorem symbolsOf_explicit (ready : Bool) (ps : List (Placed Piece)) :
    symbolsOf Piece.text? (explicit ready ps) = symbolsOf Piece.text? ps := by
  induction ps generalizing ready with
  | nil => rfl
  | cons p ps ih =>
    rw [explicit, symbolsOf_append, symbolsOf_cons, symbolsOf_cons, ih]
    split <;> rfl

theorem Token.text?_piece (t : Token) : t.piece.text? = t.text? := by
  cases t <;> rfl

/-- The copies that pluses make add no first occurrence. -/
theorem symbolsOf_expandFrom (h : expandFrom before tokens = .ok ps) :
    (symbolsOf Piece.text? ps).eraseDups =
      (symbolsOf Piece.text? before.reverse ++ symbolsOf Token.text? tokens).eraseDups := by
  induction tokens generalizing before with
  | nil =>
    cases h
    exact congrArg _ (List.append_nil _).symm
  | cons t rest ih =>
    obtain ⟨operand, hcopied, h⟩ := expandFrom_cons_eq_ok h
    have hcopy : (symbolsOf Piece.text? (operand ++ before).reverse).eraseDups =
        (symbolsOf Piece.text? before.reverse).eraseDups := by
      rcases hcopied with rfl | hoperand
      · rfl
      · obtain ⟨⟨earlier, rfl⟩, -⟩ := isOperand_operandBefore hoperand
        have htwice := eraseDups_congr (symbolsOf Piece.text? earlier.reverse) []
          (eraseDups_append_self (symbolsOf Piece.text? operand.reverse))
        simpa only [List.reverse_append, symbolsOf_append, List.append_assoc, List.append_nil]
          using htwice
    have hlast : symbolsOf Piece.text? [⟨t.value.piece, t.offset⟩] = t.value.text?.toList := by
      rw [symbolsOf_cons, Token.text?_piece]
      exact List.append_nil _
    have hrest := eraseDups_congr [] (t.value.text?.toList ++ symbolsOf Token.text? rest) hcopy
    rw [ih h, List.reverse_cons, symbolsOf_append, hlast, symbolsOf_cons, List.append_assoc]
    exact hrest

end Pattern

namespace Compiler

open Pattern

variable {config : Config} {n : Nfa}

/-! ## Evaluation -/

theorem thompson_atom (config : Config) (next : Nat) (c : Char) :
    (atom config next c).Thompson 1 where
  accepting_eq := StateSet.ext fun s => mem_accepting_atom.trans StateSet.mem_single.symm
  start_ne := Nat.zero_ne_one
  not_leadsTo_start s hs := by
    rw [wellFormed_atom.leadsTo_iff, epsilonTargets_atom] at hs
    rcases hs with ⟨a, hs⟩ | hs
    · exact Nat.zero_ne_one (moves_atom.1 hs).2.2
    · exact StateSet.not_mem_empty _ hs
  not_leadsTo_of_final t ht := by
    rw [wellFormed_atom.leadsTo_iff, epsilonTargets_atom] at ht
    rcases ht with ⟨a, ht⟩ | ht
    · exact Nat.zero_ne_one (moves_atom.1 ht).1.symm
    · exact StateSet.not_mem_empty _ ht

theorem thompson_combine {op : Operator} {left right : Nfa} {f g : Nat} (hl : left.Thompson f)
    (hr : right.Thompson g) (hl' : left.WellFormed) (hr' : right.WellFormed) :
    ∃ final, (combine config op left right).Thompson final := by
  cases op with
  | union => exact ⟨_, hl'.thompson_union config hr'⟩
  | concat => exact ⟨_, hl.concat hr hl' hr'⟩

/-- What is evaluated on an empty stack has the shape. -/
theorem thompson_of_evaluate {instrs : List (Placed Instr)} {next : Nat}
    (h : (evaluate config instrs [] next).1 = .ok n) : ∃ final, n.Thompson final := by
  have hboth : n.WellFormed ∧ ∃ final, n.Thompson final := by
    refine of_evaluate (P := fun m => m.WellFormed ∧ ∃ final, m.Thompson final)
      (fun next c => ⟨wellFormed_atom, 1, thompson_atom config next c⟩)
      (fun m hm => ⟨hm.1.star, _, hm.1.thompson_star config⟩) ?_ (List.forall_mem_nil _) h
    rintro op left right ⟨hl, f, hf⟩ ⟨hr, g, hg⟩
    exact ⟨wellFormed_combine hl hr, thompson_combine hf hg hl hr⟩
  exact hboth.2

/-- The symbols of the automata on a stack, from the bottom up. -/
def stackSymbols (stack : List Nfa) : List String := stack.reverse.flatMap (·.alphabet.symbols)

theorem stackSymbols_cons (m : Nfa) (stack : List Nfa) :
    stackSymbols (m :: stack) = stackSymbols stack ++ m.alphabet.symbols := by
  rw [stackSymbols, List.reverse_cons, List.flatMap_append, stackSymbols]
  simp

theorem symbols_combine (op : Operator) (left right : Nfa) :
    (combine config op left right).alphabet = left.alphabet.union right.alphabet := by
  cases op <;> rfl

/-- Whatever is combined, the first occurrences stay in order: those on the stack, and after them
    those still to come. -/
theorem symbols_of_evaluate {instrs : List (Placed Instr)} {stack : List Nfa} {next : Nat}
    (h : (evaluate config instrs stack next).1 = .ok n) :
    n.alphabet.symbols = (stackSymbols stack ++ symbolsOf Instr.text? instrs).eraseDups := by
  induction instrs generalizing stack next with
  | nil =>
    match stack, h with
    | [m], rfl =>
      rw [stackSymbols_cons]
      simp [stackSymbols, symbolsOf, eraseDups_of_nodup m.alphabet.nodup]
  | cons instr rest ih =>
    obtain ⟨instr, offset⟩ := instr
    cases instr with
    | symbol c =>
      rw [ih h, stackSymbols_cons, symbolsOf_cons, List.append_assoc]
      rfl
    | star =>
      match stack, h with
      | m :: stack, h =>
        rw [ih h, stackSymbols_cons, stackSymbols_cons, symbolsOf_cons]
        rfl
    | operator op =>
      match stack, h with
      | right :: left :: stack, h =>
        rw [ih h, stackSymbols_cons, symbols_combine, stackSymbols_cons, stackSymbols_cons,
          symbolsOf_cons, List.append_assoc _ left.alphabet.symbols]
        exact eraseDups_congr _ _ eraseDups_append_filter

/-- A compiled automaton has one accepting state, which no move leaves and which is not the start
    state, and no move enters the start state. Its columns are the symbols of the pattern, each
    once, in the order in which they occur first. -/
theorem compile_thompson {k : Compiler} {pattern : String}
    (h : (k.compile pattern).1 = .ok n) :
    (∃ final, n.Thompson final) ∧ n.alphabet.symbols = (symbolsIn pattern.toList).eraseDups := by
  obtain ⟨tokens, instrs, htokens, hinstrs, heval⟩ := exists_instructions_of_compile h
  refine ⟨thompson_of_evaluate heval, ?_⟩
  obtain ⟨ps, hps, hpostorder⟩ := Except.bind_eq_ok_iff.1 hinstrs
  rw [insertConcat_eq_explicit] at hpostorder
  calc n.alphabet.symbols
      = (symbolsOf Instr.text? instrs).eraseDups := symbols_of_evaluate heval
    _ = (symbolsOf Piece.text? ps).eraseDups := by
        rw [symbolsOf_postorderFrom hpostorder, symbolsOf_explicit]
    _ = (symbolsOf Token.text? tokens).eraseDups := symbolsOf_expandFrom hps
    _ = (symbolsIn pattern.toList).eraseDups := by rw [symbolsOf_tokensFrom htokens]

/-- A symbol that comes again, in a group that a plus copies, and an escaped operator. -/
theorem compile_thompson_plus :
    ∃ n, (({ next := 3 } : Compiler).compile "b(\\*|ab)+a*").1 = .ok n ∧
      (∃ final, n.Thompson final) ∧ n.alphabet.symbols = ["b", "*", "a"] := by
  obtain ⟨n, hn⟩ : ∃ n, (({ next := 3 } : Compiler).compile "b(\\*|ab)+a*").1 = .ok n :=
    ⟨_, rfl⟩
  obtain ⟨hshape, hsymbols⟩ := compile_thompson hn
  refine ⟨n, hn, hshape, hsymbols.trans ?_⟩
  decide

end Compiler

end Acceptors
