import Acceptors.Grammar.Reader
import Acceptors.Proofs.Table.Spaced
import Acceptors.Proofs.Text.Scanned

/-!
# The first line at fault

Once the lines at the head of a table or of a grammar are read, the other lines are read one after
the other. For the rows of a table it matters which states have had their rows, and for the rules of
a grammar nothing but the declarations at its head. So an error in one of these lines is the first
in the text, and no later line can change it.

Results:
* `Table.readRows_eq_readLines`, `Grammar.readRules_eq_readLines`: both are read line by line.
* `Table.failsFirstAt_of_parse`, `Grammar.failsFirstAt_of_parse`: the first line at fault.
* `syntax_error_first`: tables and grammars.
-/

namespace Acceptors

open Text

variable {config : Config} {text : String} {n : Nat}

/-! ## Tables -/

namespace Table

variable {columns : Nat} {before : List String} {numbered : List (Nat × List Char)}
variable {fault : TableFault} {rows : List Row}

/-- Reads a row behind the rows of the given states. -/
def readRowAfter (columns : Nat) (before : List String) (line : List Char) :
    Except TableFault Row :=
  readRow line >>= checkRow columns before

/-- The rows of a table are read line by line. -/
theorem readRows_eq_readLines :
    readRows columns before numbered =
      (readLines (readRowAfter columns) (fun before row => row.name :: before) before
        numbered).mapError fun (number, fault) => .table number fault := by
  induction numbered generalizing before with
  | nil => rfl
  | cons entry numbered ih =>
    obtain ⟨number, line⟩ := entry
    rw [readRows, readLines]
    split
    · exact ih
    · rw [readRowAfter]
      cases readRow line >>= checkRow columns before with
      | error fault => rfl
      | ok row =>
        simp only [ih]
        cases readLines (readRowAfter columns) _ (row.name :: before) numbered <;> rfl

/-- Behind the first two lines, it is the rows in which an error is found. -/
theorem exists_rows_of_parse_eq_error (h : parse config text = .error (.table n fault))
    (hn : 3 ≤ n) :
    ∃ header initial numbered alphabet, numberedLines text = header :: initial :: numbered ∧
      headerAlphabet config.epsilon (fields header.2) = .ok alphabet ∧
      isName (String.ofList initial.2) = true ∧
      readRows (fields header.2).length [] numbered = .error (.table n fault) := by
  rw [parse] at h
  split at h
  · cases h
    omega
  · next first rest htext =>
    rcases Except.bind_eq_error_iff.1 h with h | ⟨alphabet, halphabet, h⟩
    · obtain ⟨_, -, h⟩ := Except.mapError_eq_error_iff.1 h
      cases h
      omega
    · rw [Except.mapError_eq_ok_iff] at halphabet
      split at h
      · cases h
        omega
      · next second numbered =>
        dsimp only at h
        split at h
        · cases h
          omega
        · next hinitial =>
          rcases Except.bind_eq_error_iff.1 h with hrows | ⟨_, -, h⟩
          · exact ⟨_, _, _, alphabet, htext, halphabet, by simpa using hinitial, hrows⟩
          · cases h

theorem failsFirstAt_of_parse (h : parse config text = .error (.table n fault)) (hn : 3 ≤ n) :
    FailsFirstAt (parse config) text n (.table n fault) := by
  obtain ⟨header, initial, numbered, alphabet, htext, halphabet, hinitial, hrows⟩ :=
    exists_rows_of_parse_eq_error h hn
  rw [readRows_eq_readLines, Except.mapError_eq_error_iff] at hrows
  obtain ⟨⟨_, _⟩, hrows, ⟨⟩⟩ := hrows
  obtain ⟨front, line, rest, rows, rfl, hline, hfront, hread⟩ := readLines_eq_error_iff.1 hrows
  refine failsFirstAt_of_numberedLines (header :: initial :: front) htext hline
    (fun other hother => ?_) fun other rest hother => ?_
  · rw [parse_eq hother halphabet hinitial, readRows_eq_readLines, hfront]
    exact ⟨_, rfl⟩
  · rw [List.cons_append, List.cons_append] at hother
    rw [parse_eq hother halphabet hinitial, readRows_eq_readLines,
      readLines_append_cons hline hfront hread]
    rfl

end Table

/-! ## Grammars -/

namespace Grammar

variable {marker : String} {terminals nonterminals : List String}
variable {numbered : List (Nat × List Char)} {fault : GrammarFault}

/-- The rules of a grammar are read line by line, and none depends on those before it. -/
theorem readRules_eq_readLines :
    readRules marker terminals nonterminals numbered =
      (readLines (fun _ line => readRule marker line >>= checkRule terminals nonterminals)
        (fun state _ => state) () numbered).mapError
          fun (number, fault) => .grammar number fault := by
  induction numbered with
  | nil => rfl
  | cons entry numbered ih =>
    obtain ⟨number, line⟩ := entry
    rw [readRules, readLines]
    split
    · exact ih
    · cases readRule marker line >>= checkRule terminals nonterminals with
      | error fault => rfl
      | ok rule =>
        simp only [ih]
        cases readLines _ _ () numbered <;> rfl

/-- What is read of a text with terminals, variables and a start variable. -/
theorem parse_eq {first second third : Nat × List Char}
    (htext : numberedLines text = first :: second :: third :: numbered)
    (hterminals : readTerminals config.epsilon first.2 = .ok terminals)
    (hnonterminals : readNames .nonterminal second.2 = .ok nonterminals)
    (hstart : String.ofList third.2 ∈ nonterminals) :
    parse config text = (readRules config.epsilon terminals nonterminals numbered).map
      (⟨terminals, nonterminals, String.ofList third.2, ·, config.epsilon⟩) := by
  obtain ⟨_, first⟩ := first
  obtain ⟨_, second⟩ := second
  obtain ⟨_, third⟩ := third
  rw [parse, htext]
  simp only [hterminals, hnonterminals]
  show (if _ then _ else _) = _
  rw [if_neg (not_not.2 hstart)]
  cases readRules config.epsilon terminals nonterminals numbered <;> rfl

/-- Behind the first three lines, it is the rules in which an error is found. -/
theorem exists_rules_of_parse_eq_error (h : parse config text = .error (.grammar n fault))
    (hn : 4 ≤ n) :
    ∃ first second third numbered terminals nonterminals,
      numberedLines text = first :: second :: third :: numbered ∧
      readTerminals config.epsilon first.2 = .ok terminals ∧
      readNames .nonterminal second.2 = .ok nonterminals ∧
      String.ofList third.2 ∈ nonterminals ∧
      readRules config.epsilon terminals nonterminals numbered = .error (.grammar n fault) := by
  rw [parse] at h
  split at h
  · cases h
    omega
  · next first rest htext =>
    rcases Except.bind_eq_error_iff.1 h with h | ⟨terminals, hterminals, h⟩
    · obtain ⟨_, -, h⟩ := Except.mapError_eq_error_iff.1 h
      cases h
      omega
    · rw [Except.mapError_eq_ok_iff] at hterminals
      split at h
      · cases h
        omega
      · next second rest =>
        rcases Except.bind_eq_error_iff.1 h with h | ⟨nonterminals, hnonterminals, h⟩
        · obtain ⟨_, -, h⟩ := Except.mapError_eq_error_iff.1 h
          cases h
          omega
        · rw [Except.mapError_eq_ok_iff] at hnonterminals
          split at h
          · cases h
            omega
          · next third numbered =>
            dsimp only at h
            split at h
            · cases h
              omega
            · next hstart =>
              rcases Except.bind_eq_error_iff.1 h with hrules | ⟨_, -, h⟩
              · exact ⟨_, _, _, _, terminals, nonterminals, htext, hterminals, hnonterminals,
                  not_not.1 hstart, hrules⟩
              · cases h

theorem failsFirstAt_of_parse (h : parse config text = .error (.grammar n fault)) (hn : 4 ≤ n) :
    FailsFirstAt (parse config) text n (.grammar n fault) := by
  obtain ⟨first, second, third, numbered, terminals, nonterminals, htext, hterminals,
    hnonterminals, hstart, hrules⟩ := exists_rules_of_parse_eq_error h hn
  rw [readRules_eq_readLines, Except.mapError_eq_error_iff] at hrules
  obtain ⟨⟨_, _⟩, hrules, ⟨⟩⟩ := hrules
  obtain ⟨front, line, rest, rules, rfl, hline, hfront, hread⟩ := readLines_eq_error_iff.1 hrules
  refine failsFirstAt_of_numberedLines (first :: second :: third :: front) htext hline
    (fun other hother => ?_) fun other rest hother => ?_
  · rw [parse_eq hother hterminals hnonterminals hstart, readRules_eq_readLines, hfront]
    exact ⟨_, rfl⟩
  · rw [List.cons_append, List.cons_append, List.cons_append] at hother
    rw [parse_eq hother hterminals hnonterminals hstart, readRules_eq_readLines,
      readLines_append_cons hline hfront hread]
    rfl

end Grammar

/-! ## Both formats -/

/-- What is made of the result of a reader fails where the reader fails. -/
theorem Text.FailsFirstAt.map {α β ε : Type} {read : String → Except ε α} {fault : ε}
    (h : FailsFirstAt read text n fault) (f : α → β) :
    FailsFirstAt (fun text => (read text).map f) text n fault where
  line := h.line
  before other hother := by
    obtain ⟨a, ha⟩ := h.before other hother
    exact ⟨f a, Except.map_eq_ok_iff.2 ⟨a, ha, rfl⟩⟩
  after other hother := Except.map_eq_error_iff.2 (h.after other hother)

/-- If a table is refused because of a line behind its first two, or a grammar because of a line
    behind its first three, then this is the first line at fault: the text in front of it is read,
    and every text that begins with the same lines is refused because of the same line and for the
    same reason. All lines count, whether they are blank or not. -/
theorem syntax_error_first (config : Config) (text : String) (n : Nat) :
    (∀ fault, 3 ≤ n → Table.load config text = .error (.table n fault) →
      FailsFirstAt (Table.load config) text n (.table n fault)) ∧
    ∀ fault, 4 ≤ n → Grammar.parse config text = .error (.grammar n fault) →
      FailsFirstAt (Grammar.parse config) text n (.grammar n fault) :=
  ⟨fun _ hn h => (Table.failsFirstAt_of_parse (Except.map_eq_error_iff.1 h) hn).map Table.toNfa,
    fun _ hn h => Grammar.failsFirstAt_of_parse h hn⟩

/-- A table in which a set is missing behind a blank line, and a grammar with an undeclared variable
    behind one. The lines that follow are at fault as well. -/
theorem syntax_error_first_blank :
    FailsFirstAt (Table.load {}) "a\nq\n \nq,r\nq\n" 4 (.table 4 (.noSet "r")) ∧
      FailsFirstAt (Grammar.parse {}) "a\nS\nS\nS -> a\n\nS -> (T)\nS" 6
        (.grammar 6 (.undeclared .nonterminal "T")) :=
  ⟨(syntax_error_first {} _ 4).1 _ (by decide) (by decide),
    (syntax_error_first {} _ 6).2 _ (by decide) (by decide)⟩

end Acceptors
