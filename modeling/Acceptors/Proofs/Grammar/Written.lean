import Acceptors.Grammar.Writer
import Acceptors.Proofs.Grammar.Declared
import Acceptors.Proofs.Text.Spaced

/-!
# Grammars that are written are read back

A written rule has a blank on either side of its arrow, so the arrow is the first one in its line
whatever the names around it begin or end with. What stands behind the arrow is told apart by its
parentheses, which no name contains, and by the epsilon marker.

Results:
* `Grammar.WellFormed.lines_write`: the lines of a written grammar.
* `Grammar.readRule_ruleText`: what is read from a line that begins like a written rule.
* `Grammar.readProduction_writeProduction`, `Grammar.readRule_trim_ruleText`: productions and rules
  are read back.
* `Grammar.WellFormed.parse_write_eq_ok_iff`: what reading a written grammar gives, whatever the
  marker is.
* `Grammar.parse_write_eq_self`: a grammar that was read, or is that of an automaton, is read back
  if the marker is a name.
-/

namespace Acceptors

namespace Grammar

open Text

variable {config : Config} {g : Grammar} {marker x : String} {production : Production}
variable {rule : Rule} {body : List Char}

/-! ## Names in rules -/

/-- All names in the production can be written. -/
def Production.Named : Production → Prop
  | step x next => isGrammarName x = true ∧ isGrammarName next = true
  | terminal x => isGrammarName x = true
  | empty => True
  | unit next => isGrammarName next = true

/-- All names in the rule can be written. -/
def Rule.Named (rule : Rule) : Prop := isGrammarName rule.head = true ∧ rule.production.Named

theorem Rule.Declared.named {terminals nonterminals : List String}
    (h : rule.Declared terminals nonterminals)
    (hterminals : ∀ x ∈ terminals, isGrammarName x = true)
    (hnonterminals : ∀ x ∈ nonterminals, isGrammarName x = true) : rule.Named := by
  obtain ⟨hhead, hproduction⟩ := h
  refine ⟨hnonterminals _ hhead, ?_⟩
  cases hp : rule.production with
  | step terminal next =>
    rw [hp] at hproduction
    exact ⟨hterminals _ hproduction.1, hnonterminals _ hproduction.2⟩
  | terminal terminal =>
    rw [hp] at hproduction
    exact hterminals _ hproduction
  | empty => trivial
  | unit next =>
    rw [hp] at hproduction
    exact hnonterminals _ hproduction

theorem splitArrow_of_isGrammarName (h : isGrammarName x = true) : splitArrow x.toList = none :=
  Option.isNone_iff_eq_none.1 (Bool.and_eq_true_iff.1 h).2

/-! ## Productions -/

theorem toList_writeProduction_step (terminal next : String) :
    (writeProduction marker (.step terminal next)).toList =
      terminal.toList ++ '(' :: (next.toList ++ [')']) := by
  simp [writeProduction]

theorem toList_writeProduction_unit (next : String) :
    (writeProduction marker (.unit next)).toList = '(' :: (next.toList ++ [')']) := by
  simp [writeProduction]

/-- A production is written without blanks, unless the epsilon marker has some, and never as
    nothing. -/
theorem unspaced_writeProduction (h : production.Named)
    (hmarker : production = .empty → Unspaced marker.toList ∧ marker.toList ≠ []) :
    Unspaced (writeProduction marker production).toList ∧
      (writeProduction marker production).toList ≠ [] := by
  have hname : ∀ {x : String}, isGrammarName x = true → Unspaced x.toList ∧ x.toList ≠ [] :=
    fun hx => ⟨unspaced_of_isName (isName_of_isGrammarName hx),
      (isName_iff.1 (isName_of_isGrammarName hx)).1⟩
  have hclose : ∀ {cs : List Char}, Unspaced cs → Unspaced ('(' :: (cs ++ [')'])) := fun hcs =>
    unspaced_cons.2 ⟨rfl, unspaced_append.2 ⟨hcs, unspaced_cons.2 ⟨rfl, nofun⟩⟩⟩
  cases production with
  | step x next =>
    rw [toList_writeProduction_step]
    exact ⟨unspaced_append.2 ⟨(hname h.1).1, hclose (hname h.2).1⟩,
      List.append_ne_nil_of_left_ne_nil (hname h.1).2 _⟩
  | terminal x => exact hname h
  | empty => exact hmarker rfl
  | unit next =>
    rw [toList_writeProduction_unit]
    exact ⟨hclose (hname h).1, List.cons_ne_nil _ _⟩

/-- What stands in parentheses behind a text without parentheses is the next variable. -/
theorem readProduction_parentheses {front : List Char} {next : String} (hfront : Unspaced front)
    (hopen : '(' ∉ front) (hnext : isName next = true)
    (hmarker : String.ofList (front ++ '(' :: (next.toList ++ [')'])) ≠ marker) :
    readProduction marker (front ++ '(' :: (next.toList ++ [')'])) =
      .ok (if front.isEmpty then .unit next else .step (String.ofList front) next) := by
  have hspan : (front ++ '(' :: (next.toList ++ [')'])).span (fun c => decide (c ≠ '(')) =
      (front, '(' :: (next.toList ++ [')'])) := by
    have hkeep : ∀ c ∈ front, decide (c ≠ '(') = true :=
      fun c hc => decide_eq_true fun e => hopen (e ▸ hc)
    rw [List.span_eq_takeWhile_dropWhile, List.takeWhile_append_of_pos hkeep,
      List.dropWhile_append_of_pos hkeep]
    simp
  have hnot : ∀ c, isDelimiter c = true → next.toList.contains c = false := fun c hc =>
    Bool.eq_false_iff.2 fun h => not_mem_of_isName hnext hc (List.contains_iff_mem.1 h)
  have hne : next.toList.isEmpty = false := List.isEmpty_eq_false_iff.2 (isName_iff.1 hnext).1
  rw [readProduction, if_neg hmarker, hspan]
  simp only [List.getLast?_concat, ne_eq, not_true_eq_false, if_false, List.dropLast_concat,
    (unspaced_of_isName hnext).trim_eq, hfront.trim_eq, hne, hnot '(' rfl, hnot ')' rfl,
    Bool.or_self, Bool.false_eq_true, String.ofList_toList]
  split <;> rfl

/-- A production is read back unless it is written like the epsilon marker. -/
theorem readProduction_writeProduction (h : production.Named)
    (hmarker : writeProduction marker production = marker → production = .empty) :
    readProduction marker (writeProduction marker production).toList = .ok production := by
  have hwritten : production ≠ .empty →
      String.ofList (writeProduction marker production).toList ≠ marker := by
    intro hne hwritten
    rw [String.ofList_toList] at hwritten
    exact hne (hmarker hwritten)
  cases production with
  | step terminal next =>
    have hterminal := isName_of_isGrammarName h.1
    have hne : terminal.toList.isEmpty = false :=
      List.isEmpty_eq_false_iff.2 (isName_iff.1 hterminal).1
    rw [toList_writeProduction_step] at hwritten ⊢
    rw [readProduction_parentheses (unspaced_of_isName hterminal)
      (not_mem_of_isName hterminal rfl) (isName_of_isGrammarName h.2) (hwritten nofun), hne,
      String.ofList_toList]
    rfl
  | terminal terminal =>
    have hname := isName_of_isGrammarName h
    have hspan : terminal.toList.span (fun c => decide (c ≠ '(')) = (terminal.toList, []) := by
      have hkeep : ∀ c ∈ terminal.toList, decide (c ≠ '(') = true :=
        fun c hc => decide_eq_true fun e => not_mem_of_isName hname rfl (e ▸ hc)
      rw [List.span_eq_takeWhile_dropWhile, List.takeWhile_eq_self_iff.2 hkeep,
        List.dropWhile_eq_nil_iff.2 hkeep]
    rw [readProduction, if_neg (hwritten nofun)]
    simp only [writeProduction, hspan, if_neg (not_mem_of_isName hname (c := ')') rfl),
      String.ofList_toList]
  | empty => rw [readProduction, writeProduction, if_pos String.ofList_toList]
  | unit next =>
    rw [toList_writeProduction_unit] at hwritten ⊢
    exact @readProduction_parentheses marker [] next nofun List.not_mem_nil
      (isName_of_isGrammarName h) (hwritten nofun)

/-! ## Rules -/

/-- The characters of a rule in front of its line break. -/
def ruleText (marker : String) (rule : Rule) : List Char :=
  rule.head.toList ++ ' ' :: '-' :: '>' :: ' ' :: (writeProduction marker rule.production).toList

theorem toList_writeRule (marker : String) (rule : Rule) :
    (writeRule marker rule).toList = ruleText marker rule ++ ['\n'] := by
  simp [writeRule, ruleText]

/-- The rule in a line that begins with a variable and an arrow between blanks. -/
theorem readRule_ruleText (hx : isGrammarName x = true) :
    readRule marker (trim (x.toList ++ ' ' :: '-' :: '>' :: ' ' :: body)) =
      if (trim body).isEmpty then .error .noProduction
      else (readProduction marker (trim body)).map fun production => ⟨x, production⟩ := by
  have hname := isName_of_isGrammarName hx
  have hunspaced := unspaced_of_isName hname
  have hne := (isName_iff.1 hname).1
  -- Neither the head nor the arrow is touched when blanks are cut off.
  have hline : trim (x.toList ++ ' ' :: '-' :: '>' :: ' ' :: body) =
      x.toList ++ ' ' :: '-' :: '>' :: trimEnd (' ' :: body) := by
    rw [trim_append hunspaced hne]
    have harrow : trimEnd [' ', '-', '>'] = [' ', '-', '>'] := rfl
    exact congrArg (x.toList ++ ·) (trimEnd_append_of_eq harrow)
  have hhead : trim (x.toList ++ [' ']) = x.toList := by
    rw [trim_append hunspaced hne]
    exact List.append_nil _
  have hbody : trim (trimEnd (' ' :: body)) = trim body := by
    rw [trim_trimEnd, trim_cons_of_isBlank rfl]
  rw [readRule, hline, splitArrow_append (splitArrow_of_isGrammarName hx)]
  simp only [hhead, hbody, List.isEmpty_eq_false_iff.2 hne, Bool.false_eq_true, if_false,
    String.ofList_toList]

/-- The lines of a written rule that are not blank. The epsilon marker may break them. -/
def ruleLines (marker : String) (rule : Rule) : List (List Char) :=
  ((splitOn '\n' (ruleText marker rule)).map trim).filter (!·.isEmpty)

theorem trim_ruleText_ne_nil (hx : isGrammarName x = true) :
    trim (x.toList ++ ' ' :: '-' :: '>' :: ' ' :: body) ≠ [] := by
  have hname := isName_of_isGrammarName hx
  have hne := (isName_iff.1 hname).1
  rw [trim_append (unspaced_of_isName hname) hne]
  exact List.append_ne_nil_of_left_ne_nil hne _

/-- The marker breaks the line of a rule where it has line breaks itself. -/
theorem ruleLines_eq (hx : isGrammarName rule.head = true) {first : List Char}
    {rest : List (List Char)}
    (hwritten : splitOn '\n' (writeProduction marker rule.production).toList = first :: rest) :
    ruleLines marker rule =
      trim (rule.head.toList ++ ' ' :: '-' :: '>' :: ' ' :: first) ::
        (rest.map trim).filter (!·.isEmpty) := by
  have hhead : '\n' ∉ rule.head.toList ++ [' ', '-', '>', ' '] := by
    have hunspaced := unspaced_of_isName (isName_of_isGrammarName hx)
    rw [List.mem_append, not_or]
    exact ⟨hunspaced.not_mem rfl, by decide⟩
  have hsplit : splitOn '\n' (ruleText marker rule) =
      (rule.head.toList ++ ' ' :: '-' :: '>' :: ' ' :: first) :: rest := by
    simpa [ruleText] using splitOn_append_of_not_mem hhead hwritten
  rw [ruleLines, hsplit, List.map_cons, List.filter_cons_of_pos]
  simpa using @trim_ruleText_ne_nil _ first hx

/-- A rule is written as one line and read back from it, unless the epsilon marker has blanks or
    the rule is written like one with the empty production. -/
theorem readRule_trim_ruleText (hrule : rule.Named)
    (hmarker : rule.production = .empty → Unspaced marker.toList ∧ marker.toList ≠ [])
    (hwritten : writeProduction marker rule.production = marker → rule.production = .empty) :
    ruleLines marker rule = [trim (ruleText marker rule)] ∧
      readRule marker (trim (ruleText marker rule)) = .ok rule := by
  obtain ⟨hunspaced, hne⟩ := unspaced_writeProduction hrule.2 hmarker
  refine ⟨ruleLines_eq hrule.1 (splitOn_of_not_mem (hunspaced.not_mem rfl)), ?_⟩
  rw [ruleText, readRule_ruleText hrule.1, hunspaced.trim_eq, List.isEmpty_eq_false_iff.2 hne,
    readProduction_writeProduction hrule.2 hwritten]
  rfl

/-! ## Grammars -/

theorem toList_write (g : Grammar) :
    g.write.toList =
      ((String.intercalate "," g.terminals).toList ::
        (String.intercalate "," g.nonterminals).toList :: g.start.toList ::
          g.rules.map (ruleText g.epsilon)).flatMap (· ++ ['\n']) := by
  have hrules : (String.join (g.rules.map (writeRule g.epsilon))).toList =
      (g.rules.map (ruleText g.epsilon)).flatMap (· ++ ['\n']) := by
    rw [String.toList_join, List.flatMap_map, List.flatMap_map]
    simp only [toList_writeRule]
  simp only [write, String.toList_append, hrules, List.flatMap_cons, List.append_assoc]
  rfl

/-- The lines of a written grammar. -/
theorem WellFormed.lines_write (hg : g.WellFormed) :
    lines g.write =
      (String.intercalate "," g.terminals).toList ::
        (String.intercalate "," g.nonterminals).toList :: g.start.toList ::
          g.rules.flatMap fun rule => (splitOn '\n' (ruleText g.epsilon rule)).map trim := by
  have hterminals := unspaced_intercalate fun x hx => isName_of_isGrammarName (hg.terminals x hx).1
  have hnonterminals :=
    unspaced_intercalate fun x hx => isName_of_isGrammarName (hg.nonterminals x hx)
  have hstart := unspaced_of_isName (isName_of_isGrammarName (hg.nonterminals _ hg.start_mem))
  rw [lines_of_breaks (toList_write g)]
  simp only [List.flatMap_cons, List.map_append, hterminals.map_trim_splitOn_break,
    hnonterminals.map_trim_splitOn_break, hstart.map_trim_splitOn_break, List.flatMap_map,
    List.map_flatMap]
  rfl

/-- A written grammar is read as a grammar with the same declarations, and its rules are those that
    the lines of the written rules are read as. -/
theorem WellFormed.parse_write_eq_ok_iff (hg : g.WellFormed) (hepsilon : g.epsilon = config.epsilon)
    {h : Grammar} :
    parse config g.write = .ok h ↔
      ∃ rules, List.Forall₂ (ReadAs g.epsilon g.terminals g.nonterminals)
        (g.rules.flatMap (ruleLines g.epsilon)) rules ∧ h = { g with rules := rules } := by
  have hterminals : readTerminals g.epsilon (String.intercalate "," g.terminals).toList =
      .ok g.terminals := by
    refine readTerminals_eq_ok_iff.2 ⟨fields_intercalate fun x hx => ?_, hg.terminals,
      hg.terminals_nodup⟩
    exact isName_of_isGrammarName (hg.terminals x hx).1
  have hnonterminals : readNames .nonterminal (String.intercalate "," g.nonterminals).toList =
      .ok g.nonterminals := by
    refine readNames_eq_ok_iff.2 ⟨fields_intercalate fun x hx => ?_, hg.nonterminals,
      hg.nonterminals_nodup⟩
    exact isName_of_isGrammarName (hg.nonterminals x hx)
  have hfilter : (g.rules.flatMap fun rule =>
      (splitOn '\n' (ruleText g.epsilon rule)).map trim).filter (!·.isEmpty) =
        g.rules.flatMap (ruleLines g.epsilon) := List.filter_flatMap
  rw [parse_eq_ok_iff, hg.lines_write, ← hepsilon]
  constructor
  · rintro ⟨_, _, _, _, hlines, hfirst, hsecond, hthird, -, hrules, hmarker⟩
    obtain ⟨rfl, rfl, rfl, rfl⟩ : _ ∧ _ ∧ _ ∧ _ := by simpa only [List.cons.injEq] using hlines
    rw [hterminals, Except.ok.injEq] at hfirst
    rw [hnonterminals, Except.ok.injEq] at hsecond
    rw [String.ofList_toList] at hthird
    rw [hfilter, ← hfirst, ← hsecond] at hrules
    refine ⟨h.rules, hrules, ?_⟩
    rw [hfirst, hsecond, hthird, ← hmarker]
  · rintro ⟨rules, hrules, rfl⟩
    exact ⟨_, _, _, _, rfl, hterminals, hnonterminals, String.ofList_toList, hg.start_mem,
      hfilter ▸ hrules, rfl⟩

/-- If the marker is a name, a written rule is a single line and is read back. -/
theorem readAs_ruleLines {terminals nonterminals : List String} (hmarker : isName marker = true)
    (hterminals : ∀ x ∈ terminals, isGrammarName x = true ∧ x ≠ marker)
    (hnonterminals : ∀ x ∈ nonterminals, isGrammarName x = true)
    (hrule : rule.Declared terminals nonterminals) :
    ∃ line, ruleLines marker rule = [line] ∧ ReadAs marker terminals nonterminals line rule := by
  have hnamed := hrule.named (fun x hx => (hterminals x hx).1) hnonterminals
  have hopen : '(' ∉ marker.toList := not_mem_of_isName hmarker rfl
  have hwritten : writeProduction marker rule.production = marker → rule.production = .empty := by
    intro h
    cases hp : rule.production with
    | step x next =>
      rw [hp] at h
      rw [← h, toList_writeProduction_step] at hopen
      simp at hopen
    | terminal x =>
      have hx := hrule.2
      rw [hp] at h hx
      exact absurd h (hterminals x hx).2
    | empty => rfl
    | unit next =>
      rw [hp] at h
      rw [← h, toList_writeProduction_unit] at hopen
      simp at hopen
  obtain ⟨hlines, hread⟩ := readRule_trim_ruleText hnamed
    (fun _ => ⟨unspaced_of_isName hmarker, (isName_iff.1 hmarker).1⟩) hwritten
  exact ⟨_, hlines, hread, hrule⟩

/-! ## Reading what was written -/

/-- If the epsilon marker is a name, then a grammar that was read, or that is the grammar of an
    automaton, is read back from its text: the same terminals, the same variables, the same start
    and the same rules in the same order. -/
theorem parse_write_eq_self (hmarker : isName config.epsilon = true)
    (hg : (∃ text, parse config text = .ok g) ∨
      ∃ a : Automaton, a.WellFormed ∧ ofAutomaton config a = .ok g) :
    parse config g.write = .ok g := by
  obtain ⟨hwell, hepsilon⟩ : g.WellFormed ∧ g.epsilon = config.epsilon := by
    rcases hg with ⟨text, h⟩ | ⟨a, ha, h⟩
    · obtain ⟨_, _, _, _, -, -, -, -, -, -, hepsilon⟩ := parse_eq_ok_iff.1 h
      exact ⟨wellFormed_of_parse h, hepsilon⟩
    · obtain ⟨-, rfl⟩ := ofAutomaton_eq_ok_iff.1 h
      exact ⟨wellFormed_of_ofAutomaton ha h, rfl⟩
  refine (hwell.parse_write_eq_ok_iff hepsilon).2 ⟨g.rules, ?_, rfl⟩
  have hrules : ∀ rule ∈ g.rules, ∃ line, ruleLines g.epsilon rule = [line] ∧
      ReadAs g.epsilon g.terminals g.nonterminals line rule := fun rule hrule =>
    readAs_ruleLines (hepsilon ▸ hmarker) hwell.terminals hwell.nonterminals
      (hwell.rules rule hrule)
  generalize g.rules = rules at hrules
  induction rules with
  | nil => exact .nil
  | cons rule rules ih =>
    obtain ⟨⟨line, hline, hread⟩, hrules⟩ := List.forall_mem_cons.1 hrules
    rw [List.flatMap_cons, hline]
    exact .cons hread (ih hrules)

/-- All four kinds of productions, with names that begin or end like an arrow. -/
theorem parse_write_eq_self_arrows :
    let text := "a-,>b\nS-,>T\nS-\nS- -> a-(>T)\nS- ->>b\n\n>T -> ( S- )\n>T->e"
    ∃ g, parse {} text = .ok g ∧ g.rules.map (·.production) =
      [.step "a-" ">T", .terminal ">b", .unit "S-", .empty] ∧ parse {} g.write = .ok g := by
  intro text
  have hmarker : isName ({} : Config).epsilon = true := by decide
  have h : parse {} text = .ok ⟨["a-", ">b"], ["S-", ">T"], "S-",
      [⟨"S-", .step "a-" ">T"⟩, ⟨"S-", .terminal ">b"⟩, ⟨">T", .unit "S-"⟩, ⟨">T", .empty⟩],
      "e"⟩ := by
    decide +kernel
  exact ⟨_, h, rfl, parse_write_eq_self hmarker (.inl ⟨text, h⟩)⟩

end Grammar

end Acceptors
