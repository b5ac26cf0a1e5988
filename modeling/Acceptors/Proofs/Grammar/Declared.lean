import Mathlib.Data.List.Forall2
import Acceptors.Grammar.Conversion
import Acceptors.Grammar.Reader
import Acceptors.Proofs.Automaton
import Acceptors.Proofs.Table.RoundTrip
import Acceptors.Proofs.Text.Trimmed

/-!
# Grammars in which every name is declared

A grammar declares its terminals and its variables, each once and by a name that can be written, and
its rules use no other names. This is what reading checks, and the grammar of an automaton is of
this kind as well.

Results:
* `Grammar.WellFormed`: the grammars with declared names only.
* `Grammar.readRules_eq_ok_iff`, `Grammar.parse_eq_ok_iff`: what the lines of a grammar say.
* `Grammar.wellFormed_of_parse`, `Grammar.wellFormed_of_ofAutomaton`: grammars that are read and
  grammars of automata.
-/

namespace Acceptors

namespace Grammar

open Text

/-! ## Declared names -/

/-- The names in the rule are declared. -/
def Rule.Declared (terminals nonterminals : List String) (rule : Rule) : Prop :=
  rule.head ∈ nonterminals ∧
    match rule.production with
    | .step terminal next => terminal ∈ terminals ∧ next ∈ nonterminals
    | .terminal terminal => terminal ∈ terminals
    | .empty => True
    | .unit next => next ∈ nonterminals

/-- The terminals and the variables are names and declared once, and nothing else is used. -/
structure WellFormed (g : Grammar) : Prop where
  terminals : ∀ x ∈ g.terminals, isGrammarName x = true ∧ x ≠ g.epsilon
  nonterminals : ∀ x ∈ g.nonterminals, isGrammarName x = true
  terminals_nodup : g.terminals.Nodup
  nonterminals_nodup : g.nonterminals.Nodup
  start_mem : g.start ∈ g.nonterminals
  rules : ∀ rule ∈ g.rules, rule.Declared g.terminals g.nonterminals

variable {config : Config} {g : Grammar} {kind : NameKind} {marker text : String}
variable {names before terminals nonterminals : List String} {line : List Char} {rule rule' : Rule}

/-! ## What reading checks -/

theorem checkNames_eq_ok_iff :
    checkNames kind before names = .ok () ↔
      (∀ x ∈ names, isGrammarName x = true ∧ x ∉ before) ∧ names.Nodup := by
  induction names generalizing before with
  | nil => simp [checkNames]
  | cons x names ih =>
    rw [checkNames, List.forall_mem_cons, List.nodup_cons]
    split
    · next hname =>
      refine iff_of_false (by simp) fun h => ?_
      rw [h.1.1.1] at hname
      cases hname
    · next hname =>
      have hname : isGrammarName x = true := by simpa using hname
      split
      · next hmem => exact iff_of_false (by simp) fun h => h.1.1.2 hmem
      · next hmem =>
        rw [ih]
        constructor
        · rintro ⟨hall, hnodup⟩
          exact ⟨⟨⟨hname, hmem⟩, fun y hy => ⟨(hall y hy).1, fun h => (hall y hy).2 (.tail _ h)⟩⟩,
            fun h => (hall x h).2 (.head _), hnodup⟩
        · rintro ⟨⟨-, hall⟩, hx, hnodup⟩
          refine ⟨fun y hy => ⟨(hall y hy).1, fun h => ?_⟩, hnodup⟩
          rcases List.mem_cons.1 h with rfl | h
          · exact hx hy
          · exact (hall y hy).2 h

/-- A line declares its fields, which have to be distinct names. -/
theorem readNames_eq_ok_iff :
    readNames kind line = .ok names ↔
      fields line = names ∧ (∀ x ∈ names, isGrammarName x = true) ∧ names.Nodup := by
  have hcheck : checkNames kind [] (fields line) = .ok () ↔
      (∀ x ∈ fields line, isGrammarName x = true) ∧ (fields line).Nodup :=
    checkNames_eq_ok_iff.trans (by simp)
  rw [readNames, Except.map_eq_ok_iff]
  constructor
  · rintro ⟨_, h, rfl⟩
    exact ⟨rfl, hcheck.1 h⟩
  · rintro ⟨rfl, h⟩
    exact ⟨(), hcheck.2 h, rfl⟩

theorem readTerminals_eq_ok_iff :
    readTerminals marker line = .ok names ↔
      fields line = names ∧ (∀ x ∈ names, isGrammarName x = true ∧ x ≠ marker) ∧ names.Nodup := by
  rw [readTerminals, Except.bind_eq_ok_iff]
  simp only [readNames_eq_ok_iff]
  constructor
  · rintro ⟨declared, ⟨hfields, hall, hnodup⟩, h⟩
    split at h
    · cases h
    · next hmem =>
      cases h
      exact ⟨hfields, fun x hx => ⟨hall x hx, fun e => hmem (e ▸ hx)⟩, hnodup⟩
  · rintro ⟨hfields, hall, hnodup⟩
    refine ⟨names, ⟨hfields, fun x hx => (hall x hx).1, hnodup⟩, ?_⟩
    rw [if_neg fun hmem => (hall marker hmem).2 rfl]
    rfl

theorem checkDeclared_eq_ok_iff {x : String} :
    checkDeclared kind names x = .ok () ↔ x ∈ names := by
  rw [checkDeclared]
  split
  · next h => exact iff_of_true rfl h
  · next h => exact iff_of_false nofun h

/-- A rule with declared names is accepted as it is. -/
theorem checkRule_eq_ok_iff :
    checkRule terminals nonterminals rule = .ok rule' ↔
      rule.Declared terminals nonterminals ∧ rule = rule' := by
  have hthen : ∀ {check : Except GrammarFault Unit} {next : Except GrammarFault Rule},
      (check >>= fun _ => next) = .ok rule' ↔ check = .ok () ∧ next = .ok rule' :=
    Except.bind_eq_ok_iff.trans ⟨fun ⟨_, h⟩ => h, fun h => ⟨(), h⟩⟩
  have hok : (pure rule : Except GrammarFault Rule) = .ok rule' ↔ rule = rule' :=
    Except.ok.injEq rule rule' ▸ Iff.rfl
  rw [checkRule, hthen, checkDeclared_eq_ok_iff, Rule.Declared, and_assoc]
  refine and_congr_right fun _ => ?_
  cases rule.production with
  | step terminal next => simp only [hthen, hok, checkDeclared_eq_ok_iff, and_assoc]
  | terminal terminal => simp only [hthen, hok, checkDeclared_eq_ok_iff]
  | empty => simp only [hok, true_and]
  | unit next => simp only [hthen, hok, checkDeclared_eq_ok_iff]

/-! ## What the lines say -/

/-- The line is read as a rule with declared names. -/
def ReadAs (marker : String) (terminals nonterminals : List String) (line : List Char)
    (rule : Rule) : Prop :=
  readRule marker line = .ok rule ∧ rule.Declared terminals nonterminals

theorem readRule_then_check_eq_ok_iff :
    (readRule marker line >>= checkRule terminals nonterminals) = .ok rule ↔
      ReadAs marker terminals nonterminals line rule := by
  simp only [Except.bind_eq_ok_iff, checkRule_eq_ok_iff]
  constructor
  · rintro ⟨_, hread, hdeclared, rfl⟩
    exact ⟨hread, hdeclared⟩
  · exact fun h => ⟨rule, h.1, h.2, rfl⟩

/-- The rules are those of the lines that are not blank, whatever the numbers of the lines. -/
theorem readRules_eq_ok_iff {numbered : List (Nat × List Char)} {rules : List Rule} :
    readRules marker terminals nonterminals numbered = .ok rules ↔
      List.Forall₂ (ReadAs marker terminals nonterminals)
        ((numbered.map Prod.snd).filter (!·.isEmpty)) rules := by
  induction numbered generalizing rules with
  | nil => simp [readRules, eq_comm]
  | cons entry numbered ih =>
    obtain ⟨number, line⟩ := entry
    rw [readRules, List.map_cons, List.filter_cons]
    by_cases hempty : line.isEmpty = true
    · simp only [hempty, if_true, Bool.not_true, Bool.false_eq_true, if_false]
      exact ih
    · simp only [hempty, Bool.not_false, if_true, List.forall₂_cons_left_iff]
      cases hread : readRule marker line >>= checkRule terminals nonterminals with
      | error fault =>
        rw [if_neg Bool.false_ne_true]
        refine iff_of_false nofun fun ⟨rule, _, hrule, _⟩ => ?_
        rw [readRule_then_check_eq_ok_iff.2 hrule] at hread
        cases hread
      | ok rule =>
        rw [if_neg Bool.false_ne_true, Except.bind_eq_ok_iff]
        simp only [ih]
        constructor
        · rintro ⟨rest, hrest, h⟩
          exact ⟨rule, rest, readRule_then_check_eq_ok_iff.1 hread, hrest, (Except.ok.inj h).symm⟩
        · rintro ⟨rule', rest, hrule, hrest, rfl⟩
          rw [readRule_then_check_eq_ok_iff.2 hrule] at hread
          cases hread
          exact ⟨rest, hrest, rfl⟩

/-- What a text says that is read as a grammar. -/
theorem parse_eq_ok_iff :
    parse config text = .ok g ↔
      ∃ first second third rest, lines text = first :: second :: third :: rest ∧
        readTerminals config.epsilon first = .ok g.terminals ∧
        readNames .nonterminal second = .ok g.nonterminals ∧
        String.ofList third = g.start ∧ g.start ∈ g.nonterminals ∧
        List.Forall₂ (ReadAs config.epsilon g.terminals g.nonterminals)
          (rest.filter (!·.isEmpty)) g.rules ∧
        g.epsilon = config.epsilon := by
  rw [← map_snd_numberedLines, parse]
  match numberedLines text with
  | [] => exact iff_of_false nofun fun ⟨_, _, _, _, h, _⟩ => nomatch h
  | [first] =>
    refine iff_of_false (fun h => ?_) fun ⟨_, _, _, _, h, _⟩ => nomatch h
    obtain ⟨_, -, h⟩ := Except.bind_eq_ok_iff.1 h
    cases h
  | [first, second] =>
    refine iff_of_false (fun h => ?_) fun ⟨_, _, _, _, h, _⟩ => nomatch h
    obtain ⟨_, -, h⟩ := Except.bind_eq_ok_iff.1 h
    obtain ⟨_, -, h⟩ := Except.bind_eq_ok_iff.1 h
    cases h
  | (_, first) :: (_, second) :: (_, third) :: rest =>
    simp only [Except.bind_eq_ok_iff, Except.mapError_eq_ok_iff]
    constructor
    · rintro ⟨terminals, hterminals, nonterminals, hnonterminals, h⟩
      split at h
      · cases h
      · next hstart =>
        obtain ⟨rules, hrules, h⟩ := Except.bind_eq_ok_iff.1 h
        cases h
        exact ⟨first, second, third, _, rfl, hterminals, hnonterminals, rfl, not_not.1 hstart,
          readRules_eq_ok_iff.1 hrules, rfl⟩
    · rintro ⟨_, _, _, _, hlines, hterminals, hnonterminals, hstart, hmem, hrules, hepsilon⟩
      obtain ⟨rfl, rfl, rfl, rfl⟩ : _ ∧ _ ∧ _ ∧ _ := by simpa using hlines
      refine ⟨_, hterminals, _, hnonterminals, ?_⟩
      rw [hstart, if_neg (not_not.2 hmem)]
      refine Except.bind_eq_ok_iff.2 ⟨_, readRules_eq_ok_iff.2 hrules, ?_⟩
      rw [← hepsilon]
      rfl

/-! ## Where grammars come from -/

/-- A grammar that is read has declared names only. -/
theorem wellFormed_of_parse (h : parse config text = .ok g) : g.WellFormed := by
  obtain ⟨_, _, _, _, -, hterminals, hnonterminals, -, hstart, hrules, hepsilon⟩ :=
    parse_eq_ok_iff.1 h
  obtain ⟨-, hterminals, hterminals_nodup⟩ := readTerminals_eq_ok_iff.1 hterminals
  obtain ⟨-, hnonterminals, hnonterminals_nodup⟩ := readNames_eq_ok_iff.1 hnonterminals
  refine ⟨hepsilon ▸ hterminals, hnonterminals, hterminals_nodup, hnonterminals_nodup, hstart, ?_⟩
  have hdeclared := hrules.flip.imp fun rule line h => And.intro h.2 h.1
  exact ((List.forall₂_and_left _ _).1 hdeclared).1

/-- The grammar whose rules are the moves of an automaton and its accepting states. -/
def ofNfa (marker : String) (n : Nfa) : Grammar where
  terminals := n.alphabet.symbols
  nonterminals := n.names.toList
  start := n.name n.start
  rules := (List.range n.size).flatMap (rulesOf n)
  epsilon := marker

variable {n : Nfa} {a : Automaton} {s : Nat}

theorem mem_rulesOf :
    rule ∈ rulesOf n s ↔ rule.head = n.name s ∧
      ((∃ x t, n.Moves s x t ∧ rule.production = .step x (n.name t)) ∨
        s ∈ n.accepting ∧ rule.production = .empty) := by
  obtain ⟨head, production⟩ := rule
  have hmoves : (∃ entry ∈ n.alphabet.symbols.zipIdx,
      ∃ t ∈ (n.targets s entry.2).members, Production.step entry.1 (n.name t) = production) ↔
        ∃ x t, n.Moves s x t ∧ production = .step x (n.name t) := by
    constructor
    · rintro ⟨⟨x, c⟩, hentry, t, ht, rfl⟩
      exact ⟨x, t, ⟨c, Alphabet.get?_eq_some_iff.1 (List.mem_zipIdx_iff_getElem?.1 hentry),
        StateSet.mem_members.1 ht⟩, rfl⟩
    · rintro ⟨x, t, ⟨c, hc, ht⟩, rfl⟩
      exact ⟨(x, c), List.mem_zipIdx_iff_getElem?.2 (Alphabet.get?_eq_some_iff.2 hc), t,
        StateSet.mem_members.2 ht, rfl⟩
  have hempty : production ∈ (if n.isAccepting s = true then [Production.empty] else []) ↔
      s ∈ n.accepting ∧ production = .empty := by
    show _ ↔ n.isAccepting s = true ∧ _
    split
    · next h => rw [List.mem_singleton, and_iff_right h]
    · next h => exact iff_of_false List.not_mem_nil fun h' => h h'.1
  rw [rulesOf, List.mem_map]
  simp only [List.mem_append, List.mem_flatMap, List.mem_map, Rule.mk.injEq]
  constructor
  · rintro ⟨_, h, rfl, rfl⟩
    exact ⟨rfl, h.imp hmoves.1 hempty.1⟩
  · rintro ⟨rfl, h⟩
    exact ⟨_, h.imp hmoves.2 hempty.2, rfl, rfl⟩

theorem mem_rules_ofNfa :
    rule ∈ (ofNfa marker n).rules ↔ ∃ s < n.size, rule ∈ rulesOf n s := by
  show rule ∈ (List.range n.size).flatMap (rulesOf n) ↔ _
  simp only [List.mem_flatMap, List.mem_range]

/-- The rules of the variable that a state is called. -/
theorem mem_rules_ofNfa_name_iff {production : Production} (hs : s < n.size) :
    ⟨n.name s, production⟩ ∈ (ofNfa marker n).rules ↔
      (∃ x t, n.Moves s x t ∧ production = .step x (n.name t)) ∨
        s ∈ n.accepting ∧ production = .empty := by
  rw [mem_rules_ofNfa]
  constructor
  · rintro ⟨s', hs', hrule⟩
    obtain ⟨hhead, hproduction⟩ := mem_rulesOf.1 hrule
    obtain rfl := (StateNames.name_inj hs hs').1 hhead
    exact hproduction
  · exact fun h => ⟨s, hs, mem_rulesOf.2 ⟨rfl, h⟩⟩

/-- An automaton has a grammar if its symbols and its states have names that can be written. -/
theorem ofAutomaton_eq_ok_iff :
    ofAutomaton config a = .ok g ↔
      ((∀ x ∈ a.toNfa.epsilonFree.alphabet.symbols, isGrammarName x = true ∧ x ≠ config.epsilon) ∧
        ∀ x ∈ a.toNfa.epsilonFree.names.toList, isGrammarName x = true) ∧
      ofNfa config.epsilon a.toNfa.epsilonFree = g := by
  rw [← checkWritable_eq_ok_iff, ofAutomaton, Except.map_eq_ok_iff]
  exact ⟨fun ⟨_, h⟩ => h, fun h => ⟨(), h⟩⟩

theorem wellFormed_ofNfa (hn : n.WellFormed)
    (hsymbols : ∀ x ∈ n.alphabet.symbols, isGrammarName x = true ∧ x ≠ marker)
    (hnames : ∀ x ∈ n.names.toList, isGrammarName x = true) : (ofNfa marker n).WellFormed where
  terminals := hsymbols
  nonterminals := hnames
  terminals_nodup := n.alphabet.nodup
  nonterminals_nodup := n.names.nodup_toList
  start_mem := Nfa.mem_names_iff.2 ⟨n.start, hn.start_lt, rfl⟩
  rules rule hrule := by
    obtain ⟨s, hs, hrule⟩ := mem_rules_ofNfa.1 hrule
    obtain ⟨hhead, hproduction⟩ := mem_rulesOf.1 hrule
    refine ⟨hhead ▸ Nfa.mem_names_iff.2 ⟨s, hs, rfl⟩, ?_⟩
    rcases hproduction with ⟨x, t, ht, h⟩ | ⟨-, h⟩
    · obtain ⟨c, hc, -⟩ := id ht
      rw [h]
      exact ⟨List.mem_of_getElem? (Alphabet.get?_eq_some_iff.2 hc),
        Nfa.mem_names_iff.2 ⟨t, hn.moves_lt ht, rfl⟩⟩
    · rw [h]
      trivial

/-- The grammar of an automaton has declared names only. -/
theorem wellFormed_of_ofAutomaton (ha : a.WellFormed) (h : ofAutomaton config a = .ok g) :
    g.WellFormed := by
  obtain ⟨⟨hsymbols, hnames⟩, rfl⟩ := ofAutomaton_eq_ok_iff.1 h
  exact wellFormed_ofNfa ha.toNfa.epsilonFree hsymbols hnames

end Grammar

end Acceptors
