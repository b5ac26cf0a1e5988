import Mathlib.Data.List.Perm.Subperm
import Acceptors.Dfa.Basic
import Acceptors.Pattern.Compiler
import Acceptors.Proofs.Nfa.Shape

/-!
# Equality and languages

Equality takes the symbols of two automata as sets and their moves by column. So equal automata do
the same on every column, but a column may belong to another symbol in each of them: they accept the
same words up to an exchange of symbols, and the very same words exactly if that exchange does not
matter to the language.

Results:
* `Alphabet.translate`: the symbol in the same column of another alphabet.
* `Nfa.accepts_translate`, `Dfa.accepts_translate`: words translated by column are accepted alike.
* `sameByColumn_of_beq`: when equal automata accept the same words.
* `exists_beq_accepts_ne`: equal automata that do not.
-/

namespace Acceptors

/-! ## Columns of equal alphabets -/

namespace Alphabet

variable {a b : Alphabet}

/-- The symbol that has in `b` the column of the given one in `a`. A symbol that `a` lacks stays
    what it is. -/
def translate (a b : Alphabet) (symbol : String) : String :=
  ((a.idxOf? symbol).bind b.get?).getD symbol

/-- Equal alphabets have as many columns and the same symbols. -/
theorem beq_iff : (a == b) = true ↔ a.size = b.size ∧ ∀ x, x ∈ a ↔ x ∈ b := by
  have hdef : (a == b) = true ↔ a.size = b.size ∧ ∀ x ∈ b, x ∈ a := by
    change (a.size == b.size && a.isSupersetOf b) = true ↔ _
    rw [Bool.and_eq_true, beq_iff_eq, isSupersetOf_iff]
  rw [hdef]
  refine and_congr_right fun hsize => ⟨fun hsub x => ⟨?_, hsub x⟩, fun h x => (h x).2⟩
  -- Nothing repeats and none is left over: what `b` has is all that `a` has.
  have hperm := (List.subperm_of_subset b.nodup hsub).perm_of_length_le (Nat.le_of_eq hsize)
  exact hperm.mem_iff.2

/-- The translated symbol has the same column, or none like the symbol itself. -/
theorem idxOf?_translate (h : (a == b) = true) (symbol : String) :
    b.idxOf? (a.translate b symbol) = a.idxOf? symbol := by
  obtain ⟨hsize, hmem⟩ := beq_iff.1 h
  cases hc : a.idxOf? symbol with
  | none =>
    rw [translate, hc]
    rw [idxOf?_eq_none_iff, hmem] at hc
    exact idxOf?_eq_none_iff.2 hc
  | some c =>
    have hlt : c < b.size := hsize ▸ lt_size_of_idxOf? hc
    have hget : b.get? c = some b.symbols[c] := List.getElem?_eq_getElem hlt
    rw [translate, hc, Option.bind_some, hget]
    exact get?_eq_some_iff.1 hget

theorem translate_translate (h : (a == b) = true) (symbol : String) :
    a.translate b (b.translate a symbol) = symbol := by
  have hback : (b == a) = true :=
    beq_iff.2 ⟨(beq_iff.1 h).1.symm, fun x => ((beq_iff.1 h).2 x).symm⟩
  rw [translate, idxOf?_translate hback]
  cases hc : b.idxOf? symbol with
  | none =>
    rw [translate, hc]
    rfl
  | some c =>
    rw [Option.bind_some, get?_eq_some_iff.2 hc]
    rfl

theorem translate_self (a : Alphabet) (symbol : String) : a.translate a symbol = symbol := by
  rw [translate]
  cases hc : a.idxOf? symbol with
  | none => rfl
  | some c =>
    rw [Option.bind_some, get?_eq_some_iff.2 hc]
    rfl

/-- How the acceptance of one automaton compares with that of another whose alphabet is equal. -/
structure SameByColumn (a b : Alphabet) (f g : List String → Bool) : Prop where
  /-- Words translated by column are accepted alike. -/
  translated : ∀ word, g (word.map (a.translate b)) = f word
  /-- The same words are accepted exactly if translation does not matter to the language. -/
  same_iff : (∀ word, f word = g word) ↔ ∀ word, f (word.map (a.translate b)) = f word
  /-- Symbols in the same order are translated to themselves. -/
  same_of_eq : a = b → ∀ word, f word = g word

theorem SameByColumn.of_translated (h : (a == b) = true) {f g : List String → Bool}
    (hfg : ∀ word, g (word.map (a.translate b)) = f word) : a.SameByColumn b f g where
  translated := hfg
  same_iff := by
    refine ⟨fun heq word => (heq _).trans (hfg word), fun hinv word => ?_⟩
    have hword : (word.map (b.translate a)).map (a.translate b) = word := by
      rw [List.map_map]
      exact (List.map_congr_left fun x _ => translate_translate h x).trans (List.map_id word)
    calc f word = f ((word.map (b.translate a)).map (a.translate b)) := by rw [hword]
      _ = f (word.map (b.translate a)) := hinv _
      _ = g ((word.map (b.translate a)).map (a.translate b)) := (hfg _).symm
      _ = g word := by rw [hword]
  same_of_eq := by
    rintro rfl word
    have hword : word.map (a.translate a) = word :=
      (List.map_congr_left fun x _ => a.translate_self x).trans (List.map_id word)
    rw [← hfg word, hword]

end Alphabet

/-! ## Columns of equal automata -/

theorem StateNames.size_eq_of_beq {s t : StateNames} (h : (s == t) = true) : s.size = t.size := by
  change (s.size == t.size && t.toList.all s.contains) = true at h
  exact beq_iff_eq.1 (Bool.and_eq_true_iff.1 h).1

namespace Nfa

variable {a b : Nfa}

/-- What equality compares. -/
theorem beq_iff : (a == b) = true ↔ (a.alphabet == b.alphabet) = true ∧
    (a.names == b.names) = true ∧ a.moves = b.moves ∧ a.epsilon = b.epsilon ∧
    a.start = b.start ∧ a.accepting = b.accepting := by
  change (a.alphabet == b.alphabet && a.names == b.names && decide (a.moves = b.moves) &&
    decide (a.epsilon = b.epsilon) && a.start == b.start &&
    decide (a.accepting = b.accepting)) = true ↔ _
  simp only [Bool.and_eq_true, decide_eq_true_eq, beq_iff_eq, and_assoc]

theorem closure_eq_of_beq (h : (a == b) = true) (X : StateSet) : a.closure X = b.closure X := by
  obtain ⟨-, hnames, -, hepsilon, -, -⟩ := beq_iff.1 h
  have hsize : a.size = b.size := StateNames.size_eq_of_beq hnames
  simp only [closure, epsilonTargets, hsize, hepsilon]

theorem acceptsFrom_translate (h : (a == b) = true) (X : StateSet) (word : List String) :
    b.acceptsFrom X (word.map (a.alphabet.translate b.alphabet)) = a.acceptsFrom X word := by
  obtain ⟨halphabet, -, hmoves, -, -, haccepting⟩ := beq_iff.1 h
  induction word generalizing X with
  | nil => rw [List.map_nil, acceptsFrom, acceptsFrom, anyAccepting, anyAccepting, haccepting]
  | cons symbol word ih =>
    rw [List.map_cons, acceptsFrom, acceptsFrom, Alphabet.idxOf?_translate halphabet]
    cases a.alphabet.idxOf? symbol with
    | none => rfl
    | some c =>
      have hstep : a.step X c = b.step X c := by simp only [step, targets, hmoves]
      simp only [hstep, closure_eq_of_beq h, ih]

/-- Equal automata accept the same words, column by column. -/
theorem accepts_translate (h : (a == b) = true) (word : List String) :
    b.accepts (word.map (a.alphabet.translate b.alphabet)) = a.accepts word := by
  rw [accepts, accepts, ← closure_eq_of_beq h, (beq_iff.1 h).2.2.2.2.1, acceptsFrom_translate h]

end Nfa

namespace Dfa

variable {a b : Dfa}

/-- What equality compares. -/
theorem beq_iff : (a == b) = true ↔ (a.alphabet == b.alphabet) = true ∧
    (a.names == b.names) = true ∧ a.moves = b.moves ∧ a.start = b.start ∧
    a.accepting = b.accepting := by
  change (a.alphabet == b.alphabet && a.names == b.names && decide (a.moves = b.moves) &&
    a.start == b.start && decide (a.accepting = b.accepting)) = true ↔ _
  simp only [Bool.and_eq_true, decide_eq_true_eq, beq_iff_eq, and_assoc]

theorem run_translate (h : (a == b) = true) (state : Nat) (word : List String) :
    b.run state (word.map (a.alphabet.translate b.alphabet)) = a.run state word := by
  obtain ⟨halphabet, -, hmoves, -, -⟩ := beq_iff.1 h
  induction word generalizing state with
  | nil => rfl
  | cons symbol word ih =>
    have hmove : a.move state = b.move state := by
      funext c
      rw [move, move, hmoves]
    rw [List.map_cons, run, run, Alphabet.idxOf?_translate halphabet, hmove]
    cases (a.alphabet.idxOf? symbol).bind (b.move state) with
    | none => rfl
    | some target => exact ih target

/-- Equal automata accept the same words, column by column. -/
theorem accepts_translate (h : (a == b) = true) (word : List String) :
    b.accepts (word.map (a.alphabet.translate b.alphabet)) = a.accepts word := by
  obtain ⟨-, -, -, hstart, haccepting⟩ := beq_iff.1 h
  have haccepts : b.isAccepting = a.isAccepting := by
    funext state
    rw [isAccepting, isAccepting, haccepting]
  rw [accepts, accepts, acceptsFrom, acceptsFrom, ← hstart, run_translate h, haccepts]

end Dfa

/-! ## Languages of equal automata -/

/-- Equal automata accept the same words if symbols are taken by column. They accept the very same
    words exactly if the language does not change when each symbol is replaced by the one that the
    other automaton has in its column, and always if the columns are in the same order. -/
theorem sameByColumn_of_beq (a b : Nfa) (c d : Dfa) :
    ((a == b) = true → a.alphabet.SameByColumn b.alphabet a.accepts b.accepts) ∧
      ((c == d) = true → c.alphabet.SameByColumn d.alphabet c.accepts d.accepts) :=
  ⟨fun h => .of_translated (Nfa.beq_iff.1 h).1 (Nfa.accepts_translate h),
    fun h => .of_translated (Dfa.beq_iff.1 h).1 (Dfa.accepts_translate h)⟩

/-- A loop on the first of two symbols, for each order of them. -/
theorem sameByColumn_of_beq_loop :
    let ab : Alphabet := ⟨["a", "b"], by decide⟩
    let ba : Alphabet := ⟨["b", "a"], by decide⟩
    let nfa := fun alphabet => ((Nfa.new alphabet "S").addMove 0 0 0).setAccepting 0 true
    let dfa := fun alphabet => ((Dfa.new alphabet "S").setMove 0 0 (some 0)).setAccepting 0 true
    ((nfa ab == nfa ba) = true ∧ ab.SameByColumn ba (nfa ab).accepts (nfa ba).accepts) ∧
      (dfa ab == dfa ba) = true ∧ ab.SameByColumn ba (dfa ab).accepts (dfa ba).accepts := by
  intro ab ba nfa dfa
  have hnfa : (nfa ab == nfa ba) = true := by decide
  have hdfa : (dfa ab == dfa ba) = true := by decide
  obtain ⟨hsame, hsame'⟩ := sameByColumn_of_beq (nfa ab) (nfa ba) (dfa ab) (dfa ba)
  exact ⟨⟨hnfa, hsame hnfa⟩, hdfa, hsame' hdfa⟩

/-- The patterns `ab` and `ba` are compiled to equal automata, which accept other words. -/
theorem exists_beq_accepts_ne :
    ∃ a b : Nfa, (({} : Compiler).compile "ab").1 = .ok a ∧
      (({} : Compiler).compile "ba").1 = .ok b ∧ (a == b) = true ∧
      a.accepts ["a", "b"] = true ∧ b.accepts ["a", "b"] = false := by
  refine ⟨_, _, rfl, rfl, ?_⟩
  decide +kernel

end Acceptors
