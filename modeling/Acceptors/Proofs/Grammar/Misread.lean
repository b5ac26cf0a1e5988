import Acceptors.Proofs.Grammar.Generated
import Acceptors.Proofs.Grammar.Written

/-!
# Grammars under an arbitrary epsilon marker

The epsilon marker stands for the empty production behind the arrow of a rule. It may be any text,
so it may be written like another production of the grammar, and with blanks around it, or line
breaks in it, it may be read as one. Otherwise the rules of the grammar of an automaton are read
back, or the text is refused.

Results:
* `Grammar.LooksLikeStep`, `Grammar.TakenForRules`: the markers under which rules are misread.
* `Grammar.eq_of_parse_write`: under other markers, the grammar of an automaton is read back or
  refused.
* `Grammar.LooksLikeStep.exists_generates_ne`, `Grammar.TakenForRules.exists_generates_ne`: under
  such a marker, the grammar of some automaton is read as one with other words.
-/

namespace Acceptors

namespace Grammar

open Text

variable {config : Config} {g h : Grammar} {marker x : String} {production : Production}
variable {rule : Rule} {body line : List Char} {terminals nonterminals : List String}
variable {read rules : List Rule} {n : Nfa} {A : String} {w : List String}

/-! ## Markers that are misread -/

/-- The marker is written like a terminal with a variable in parentheses. -/
def LooksLikeStep (marker : String) : Prop :=
  ∃ x next, isGrammarName x = true ∧ isGrammarName next = true ∧ marker = x ++ "(" ++ next ++ ")"

/-- The first line of the marker is read as a production that is not empty, and its other lines
    that are not blank are read as rules. -/
def TakenForRules (marker : String) : Prop :=
  ∃ first rest production rules, splitOn '\n' marker.toList = first :: rest ∧
    readProduction marker (trim first) = .ok production ∧ production ≠ .empty ∧ production.Named ∧
    List.Forall₂ (fun line rule => readRule marker line = .ok rule ∧ rule.Named)
      ((rest.map trim).filter (!·.isEmpty)) rules

/-- Only the marker is read as the empty production. -/
theorem readProduction_eq_empty_iff :
    readProduction marker body = .ok .empty ↔ String.ofList body = marker := by
  rw [readProduction]
  split
  · next h => exact iff_of_true rfl h
  · next h =>
    refine iff_of_false (fun hread => ?_) h
    split at hread
    · split at hread <;> cases hread
    · split at hread
      · cases hread
      · dsimp only at hread
        split at hread
        · cases hread
        · split at hread <;> cases hread

theorem exists_readProduction_of_readRule (hread : readRule marker line = .ok rule) :
    ∃ body, (∀ c ∈ body, c ∈ line) ∧ readProduction marker body = .ok rule.production := by
  rw [readRule] at hread
  split at hread
  · cases hread
  · next before after harrow =>
    dsimp only at hread
    split at hread
    · cases hread
    · split at hread
      · cases hread
      · obtain ⟨production, hproduction, rfl⟩ := Except.map_eq_ok_iff.1 hread
        exact ⟨_, fun c hc => mem_of_splitArrow harrow (mem_of_mem_trim hc), hproduction⟩

/-- A marker with line breaks is not read as the empty production from any line. -/
theorem production_ne_empty_of_readRule (hbreak : '\n' ∈ marker.toList) (hline : '\n' ∉ line)
    (hread : readRule marker line = .ok rule) : rule.production ≠ .empty := by
  obtain ⟨body, hbody, hproduction⟩ := exists_readProduction_of_readRule hread
  intro hempty
  rw [hempty, readProduction_eq_empty_iff] at hproduction
  rw [← hproduction, String.toList_ofList] at hbreak
  exact hline (hbody _ hbreak)

/-- If the first line of the marker is the marker, there are no others. -/
theorem rest_eq_nil_of_trim_eq {first : List Char} {rest : List (List Char)}
    (hsplit : splitOn '\n' marker.toList = first :: rest)
    (hfirst : String.ofList (trim first) = marker) : rest = [] := by
  have hbreak : '\n' ∉ marker.toList := by
    rw [← hfirst, String.toList_ofList]
    exact fun hmem => not_mem_of_mem_splitOn (hsplit ▸ List.mem_cons_self) (mem_of_mem_trim hmem)
  rw [splitOn_of_not_mem hbreak] at hsplit
  exact (List.cons.inj hsplit).2.symm

/-! ## Rules that are read back -/

/-- If what the lines of each rule are read as is known, so is what all lines are read as. -/
theorem eq_flatMap_of_forall₂ {R : List Char → Rule → Prop} {lines : Rule → List (List Char)}
    (readAs : Rule → List Rule)
    (hall : ∀ rule ∈ rules, ∀ read, List.Forall₂ R (lines rule) read → read = readAs rule)
    (hread : List.Forall₂ R (rules.flatMap lines) read) : read = rules.flatMap readAs := by
  induction rules generalizing read with
  | nil => exact List.forall₂_nil_left_iff.1 hread
  | cons rule rules ih =>
    obtain ⟨hrule, hrules⟩ := List.forall_mem_cons.1 hall
    rw [List.flatMap_cons] at hread
    have hfirst := (List.forall₂_take_append _ _ _ hread.flip).flip
    have hrest := (List.forall₂_drop_append _ _ _ hread.flip).flip
    rw [List.flatMap_cons, ← hrule _ hfirst, ← ih hrules hrest, List.take_append_drop]

section NotMisread

variable (hterminals : ∀ x ∈ terminals, isGrammarName x = true)
  (hnonterminals : ∀ x ∈ nonterminals, isGrammarName x = true)

include hterminals hnonterminals

/-- The empty production is not read as anything else. -/
theorem eq_singleton_of_forall₂_empty (hrules : ¬ TakenForRules marker)
    (hA : A ∈ nonterminals) (hread : List.Forall₂ (ReadAs marker terminals nonterminals)
      (ruleLines marker ⟨A, .empty⟩) read) : read = [⟨A, .empty⟩] := by
  obtain ⟨first, rest, hsplit⟩ :=
    List.exists_cons_of_ne_nil (splitOn_ne_nil '\n' marker.toList)
  rw [@ruleLines_eq marker ⟨A, .empty⟩ (hnonterminals A hA) first rest hsplit,
    List.forall₂_cons_left_iff] at hread
  obtain ⟨rule, others, ⟨hrule, hdeclared⟩, hothers, rfl⟩ := hread
  rw [readRule_ruleText (hnonterminals A hA)] at hrule
  split at hrule
  · cases hrule
  · obtain ⟨production, hproduction, rfl⟩ := Except.map_eq_ok_iff.1 hrule
    obtain rfl : production = .empty := by
      by_contra hne
      exact hrules ⟨first, rest, production, others, hsplit, hproduction, hne,
        (hdeclared.named hterminals hnonterminals).2, hothers.imp fun line rule hline =>
          ⟨hline.1, hline.2.named hterminals hnonterminals⟩⟩
    obtain rfl := rest_eq_nil_of_trim_eq hsplit (readProduction_eq_empty_iff.1 hproduction)
    rw [List.forall₂_nil_left_iff.1 hothers]

/-- A step is not read as anything else. -/
theorem eq_singleton_of_forall₂_step (hsteps : ¬ LooksLikeStep marker) {next : String}
    (hrule : Rule.Declared terminals nonterminals ⟨A, .step x next⟩)
    (hread : List.Forall₂ (ReadAs marker terminals nonterminals)
      (ruleLines marker ⟨A, .step x next⟩) read) : read = [⟨A, .step x next⟩] := by
  have hnamed := hrule.named hterminals hnonterminals
  obtain ⟨hlines, hrule⟩ := @readRule_trim_ruleText marker _ hnamed nofun fun hwritten =>
    absurd ⟨x, next, hnamed.2.1, hnamed.2.2, hwritten.symm⟩ hsteps
  rw [hlines, List.forall₂_cons_left_iff] at hread
  obtain ⟨rule, others, ⟨hread, -⟩, hothers, rfl⟩ := hread
  rw [hrule] at hread
  cases hread
  rw [List.forall₂_nil_left_iff.1 hothers]

end NotMisread

/-- Under other markers, the grammar of an automaton is read back or refused. -/
theorem eq_of_parse_write (hsteps : ¬ LooksLikeStep config.epsilon)
    (hrules : ¬ TakenForRules config.epsilon) {a : Automaton} (ha : a.WellFormed)
    (hg : ofAutomaton config a = .ok g) (hh : parse config g.write = .ok h) : h = g := by
  have hwell := wellFormed_of_ofAutomaton ha hg
  obtain ⟨-, rfl⟩ := ofAutomaton_eq_ok_iff.1 hg
  obtain ⟨read, hread, rfl⟩ := (hwell.parse_write_eq_ok_iff rfl).1 hh
  suffices hsame : read = (ofNfa config.epsilon a.toNfa.epsilonFree).rules by rw [hsame]
  refine (eq_flatMap_of_forall₂ (fun rule => [rule]) ?_ hread).trans
    (List.flatMap_singleton' _)
  rintro ⟨A, production⟩ hrule read hread
  have hdeclared := hwell.rules _ hrule
  have hterminals := fun x hx => (hwell.terminals x hx).1
  obtain ⟨s, -, hrule⟩ := mem_rules_ofNfa.1 hrule
  rcases (mem_rulesOf.1 hrule).2 with ⟨x, t, -, rfl⟩ | ⟨-, rfl⟩
  · exact eq_singleton_of_forall₂_step hterminals hwell.nonterminals hsteps hdeclared hread
  · exact eq_singleton_of_forall₂_empty hterminals hwell.nonterminals hrules hdeclared.1 hread

/-! ## Rules that are misread -/

/-- A grammar is read with other rules if each of its rules is. -/
theorem WellFormed.exists_parse_write_eq_ok (hg : g.WellFormed)
    (hepsilon : g.epsilon = config.epsilon) (readAs : Rule → List Rule)
    (hread : ∀ rule ∈ g.rules, List.Forall₂ (ReadAs g.epsilon g.terminals g.nonterminals)
      (ruleLines g.epsilon rule) (readAs rule)) :
    ∃ h, parse config g.write = .ok h ∧ h.rules = g.rules.flatMap readAs := by
  refine ⟨_, (hg.parse_write_eq_ok_iff hepsilon).2 ⟨g.rules.flatMap readAs, ?_, rfl⟩, rfl⟩
  generalize g.rules = rules at hread
  induction rules with
  | nil => exact .nil
  | cons rule rules ih =>
    obtain ⟨hrule, hrules⟩ := List.forall_mem_cons.1 hread
    exact List.rel_append hrule (ih hrules)

theorem eq_nil_of_derives (hempty : ∀ rule ∈ g.rules, rule.production = .empty)
    (hw : g.Derives A w) : w = [] := by
  cases hw with
  | step hrule _ => cases hempty _ hrule
  | terminal hrule => cases hempty _ hrule
  | empty _ => rfl
  | unit hrule _ => cases hempty _ hrule

theorem ne_nil_of_derives (hempty : ∀ rule ∈ g.rules, rule.production ≠ .empty)
    (hw : g.Derives A w) : w ≠ [] := by
  induction hw with
  | step _ _ _ => exact List.cons_ne_nil _ _
  | terminal _ => exact List.cons_ne_nil _ _
  | empty hrule => exact absurd rfl (hempty _ hrule)
  | unit _ _ ih => exact ih

/-- What an automaton that is listed without epsilon moves is written as. -/
theorem ofAutomaton_listing {l : Listing} (hedges : ∀ e ∈ l.edges, e.column ≠ none)
    (hsymbols : ∀ x ∈ l.alphabet.symbols, isGrammarName x = true ∧ x ≠ config.epsilon)
    (hnames : ∀ x ∈ l.start :: l.mentions, isGrammarName x = true) :
    ofAutomaton config (.nfa l.toNfa) = .ok (ofNfa config.epsilon l.toNfa) := by
  have hn := l.wellFormed_toNfa
  have hfree : l.toNfa.epsilonFree = l.toNfa := by
    rw [Nfa.epsilonFree, if_neg]
    rw [Bool.not_eq_true, Nfa.hasEpsilonMoves_eq_false_iff]
    intro s t ht
    have hslt := hn.lt_of_mem_epsilonTargets ht
    rw [Listing.mem_epsilonTargets_toNfa hslt (hn.epsilonTargets_lt s t ht)] at ht
    exact hedges _ ht rfl
  have hwritten : ofNfa config.epsilon (Automaton.nfa l.toNfa).toNfa.epsilonFree =
      ofNfa config.epsilon l.toNfa := congrArg _ hfree
  refine ofAutomaton_eq_ok_iff.2 ⟨?_, hwritten⟩
  rw [show (Automaton.nfa l.toNfa).toNfa.epsilonFree = l.toNfa from hfree]
  exact ⟨hsymbols, fun x hx => hnames x (StateNames.mem_ofMentions.1 hx)⟩

/-- A state that accepts, with a move to itself. -/
def stepLoop (x state : String) : Listing where
  alphabet := .single x
  start := state
  mentions := []
  edges := [⟨state, some 0, state⟩]
  accepting := [state]

theorem mem_rules_stepLoop {state : String}
    (hrule : rule ∈ (ofNfa marker (stepLoop x state).toNfa).rules) :
    rule = ⟨state, .step x state⟩ ∨ rule = ⟨state, .empty⟩ := by
  have hn := (stepLoop x state).wellFormed_toNfa
  have hname : ∀ s < (stepLoop x state).toNfa.size, (stepLoop x state).toNfa.name s = state := by
    intro s hs
    exact List.mem_singleton.1 (StateNames.mem_ofMentions.1 (Nfa.mem_names_iff.2 ⟨s, hs, rfl⟩))
  obtain ⟨s, hs, hrule⟩ := mem_rules_ofNfa.1 hrule
  obtain ⟨hhead, ⟨y, t, hmove, hproduction⟩ | ⟨-, hproduction⟩⟩ := mem_rulesOf.1 hrule
  · have ht := hn.moves_lt hmove
    obtain ⟨c, hc, -⟩ := hmove
    obtain ⟨rfl, -⟩ := Alphabet.idxOf?_single_eq_some_iff.1 hc
    rw [hname s hs] at hhead
    rw [hname t ht] at hproduction
    exact .inl (congrArg₂ Rule.mk hhead hproduction)
  · rw [hname s hs] at hhead
    exact .inr (congrArg₂ Rule.mk hhead hproduction)

/-- A rule that is written with the marker is read as one with the empty production. -/
theorem forall₂_ruleLines_of_writeProduction
    (hwritten : writeProduction marker rule.production = marker)
    (hmarker : Unspaced marker.toList ∧ marker.toList ≠ []) (hhead : rule.head ∈ nonterminals)
    (hname : isGrammarName rule.head = true) :
    List.Forall₂ (ReadAs marker terminals nonterminals) (ruleLines marker rule)
      [⟨rule.head, .empty⟩] := by
  have hsame : ruleLines marker rule = ruleLines marker ⟨rule.head, .empty⟩ := by
    rw [ruleLines, ruleLines, ruleText, ruleText, hwritten]
    rfl
  obtain ⟨hlines, hread⟩ := @readRule_trim_ruleText marker ⟨rule.head, .empty⟩
    ⟨hname, trivial⟩ (fun _ => hmarker) fun _ => rfl
  rw [hsame, hlines]
  exact .cons ⟨hread, hhead, trivial⟩ .nil

/-- If the marker looks like a step, then that step is read as the empty production. -/
theorem LooksLikeStep.exists_generates_ne (hmarker : LooksLikeStep config.epsilon) :
    ∃ (a : Automaton) (g h : Grammar) (w : List String), a.WellFormed ∧
      ofAutomaton config a = .ok g ∧ parse config g.write = .ok h ∧
      ¬ h.Generates w ∧ a.accepts w = true := by
  obtain ⟨x, next, hx, hnext, hmarker⟩ := hmarker
  have hne : x ≠ config.epsilon := by
    intro h
    have hmem : '(' ∈ x.toList := by
      rw [h, hmarker]
      simp
    exact not_mem_of_isName (isName_of_isGrammarName hx) rfl hmem
  have hunspaced : Unspaced config.epsilon.toList ∧ config.epsilon.toList ≠ [] := by
    rw [hmarker]
    exact @unspaced_writeProduction "" (.step x next) ⟨hx, hnext⟩ nofun
  have hg : ofAutomaton config (.nfa (stepLoop x next).toNfa) =
      .ok (ofNfa config.epsilon (stepLoop x next).toNfa) := by
    refine ofAutomaton_listing ?_ ?_ ?_
    · simp [stepLoop]
    · simp [stepLoop, Alphabet.single, hx, hne]
    · simp [stepLoop, hnext]
  have ha : (Automaton.nfa (stepLoop x next).toNfa).WellFormed := Listing.wellFormed_toNfa _
  have hwell := wellFormed_of_ofAutomaton ha hg
  have hread : ∀ rule ∈ (ofNfa config.epsilon (stepLoop x next).toNfa).rules,
      List.Forall₂ (ReadAs config.epsilon
        (ofNfa config.epsilon (stepLoop x next).toNfa).terminals
        (ofNfa config.epsilon (stepLoop x next).toNfa).nonterminals)
      (ruleLines config.epsilon rule) [⟨rule.head, .empty⟩] := by
    intro rule hrule
    have hhead := (hwell.rules rule hrule).1
    refine forall₂_ruleLines_of_writeProduction ?_ hunspaced hhead (hwell.nonterminals _ hhead)
    rcases mem_rules_stepLoop hrule with rfl | rfl
    · exact hmarker.symm
    · rfl
  obtain ⟨h, hh, hrules⟩ :=
    hwell.exists_parse_write_eq_ok rfl (fun rule => [⟨rule.head, .empty⟩]) hread
  refine ⟨_, _, h, [x], ha, hg, hh, fun hw => ?_, ?_⟩
  · refine List.cons_ne_nil x [] (eq_nil_of_derives (fun rule hrule => ?_) hw)
    rw [hrules, List.mem_flatMap] at hrule
    obtain ⟨rule', -, hrule⟩ := hrule
    rw [List.mem_singleton.1 hrule]
  · refine Listing.accepts_of_loop (c := 0) ?_ ?_ ?_
    · exact Alphabet.idxOf?_single_eq_some_iff.2 ⟨rfl, rfl⟩
    · exact List.mem_singleton_self _
    · exact List.mem_singleton_self _

/-- The terminals in a rule. -/
def Rule.terminalNames (rule : Rule) : List String :=
  match rule.production with
  | .step x _ | .terminal x => [x]
  | .empty | .unit _ => []

/-- The variables in a rule. -/
def Rule.variableNames (rule : Rule) : List String :=
  rule.head ::
    match rule.production with
    | .step _ next | .unit next => [next]
    | .terminal _ | .empty => []

theorem Rule.Named.names (hrule : rule.Named) :
    (∀ x ∈ rule.terminalNames, isGrammarName x = true) ∧
      ∀ x ∈ rule.variableNames, isGrammarName x = true := by
  obtain ⟨hhead, hproduction⟩ := hrule
  rw [Rule.terminalNames, Rule.variableNames, List.forall_mem_cons, and_left_comm,
    and_iff_right hhead]
  cases hp : rule.production with
  | step x next => simpa [hp, Production.Named] using hproduction
  | terminal x => simpa [hp, Production.Named] using hproduction
  | empty => simp
  | unit next => simpa [hp, Production.Named] using hproduction

theorem Rule.declared_of_subset (hterminals : rule.terminalNames ⊆ terminals)
    (hvariables : rule.variableNames ⊆ nonterminals) : rule.Declared terminals nonterminals := by
  rw [Rule.variableNames, List.cons_subset] at hvariables
  refine ⟨hvariables.1, ?_⟩
  rw [Rule.terminalNames] at hterminals
  cases hp : rule.production with
  | step x next =>
    rw [hp] at hterminals hvariables
    exact ⟨hterminals (List.mem_singleton_self _), hvariables.2 (List.mem_singleton_self _)⟩
  | terminal x =>
    rw [hp] at hterminals
    exact hterminals (List.mem_singleton_self _)
  | empty => trivial
  | unit next =>
    rw [hp] at hvariables
    exact hvariables.2 (List.mem_singleton_self _)

/-- A state that accepts and has no moves, among the states and the symbols of the rules. -/
def declaring (rules : List Rule) : Listing where
  alphabet := ⟨(rules.flatMap Rule.terminalNames).dedup, List.nodup_dedup _⟩
  start := "q"
  mentions := rules.flatMap Rule.variableNames
  edges := []
  accepting := ["q"]

theorem declared_declaring (hrule : rule ∈ rules) :
    rule.Declared (declaring rules).alphabet.symbols (declaring rules).names.toList := by
  refine Rule.declared_of_subset (fun x hx => ?_) fun x hx => ?_
  · exact List.mem_dedup.2 (List.mem_flatMap.2 ⟨rule, hrule, hx⟩)
  · exact StateNames.mem_ofMentions.2 (.tail _ (List.mem_flatMap.2 ⟨rule, hrule, hx⟩))

theorem mem_rules_declaring (hrule : rule ∈ (ofNfa marker (declaring rules).toNfa).rules) :
    rule = ⟨"q", .empty⟩ := by
  have hn := (declaring rules).wellFormed_toNfa
  obtain ⟨s, hs, hrule⟩ := mem_rules_ofNfa.1 hrule
  obtain ⟨hhead, ⟨y, t, ⟨c, -, ht⟩, -⟩ | ⟨haccepting, hproduction⟩⟩ := mem_rulesOf.1 hrule
  · rw [Listing.mem_targets_toNfa hs (hn.targets_lt s c t ht)] at ht
    cases ht.2
  · rw [Listing.mem_accepting_toNfa hs] at haccepting
    exact congrArg₂ Rule.mk (hhead.trans (List.mem_singleton.1 haccepting)) hproduction

theorem TakenForRules.not_isName (hmarker : TakenForRules marker) : ¬ isName marker = true := by
  obtain ⟨first, rest, production, others, hsplit, hproduction, hne, -⟩ := hmarker
  intro hname
  have hunspaced := unspaced_of_isName hname
  rw [splitOn_of_not_mem (hunspaced.not_mem rfl)] at hsplit
  cases hsplit
  rw [hunspaced.trim_eq, readProduction_eq_empty_iff.2 String.ofList_toList] at hproduction
  exact hne (Except.ok.inj hproduction).symm

/-- What the lines of an empty production are read as, if the marker is taken for rules. -/
theorem TakenForRules.exists_rules (hmarker : TakenForRules marker) :
    ∃ rules, (∀ rule ∈ rules, rule.Named ∧ rule.production ≠ .empty) ∧
      List.Forall₂ (fun line rule => readRule marker line = .ok rule)
        (ruleLines marker ⟨"q", .empty⟩) rules := by
  obtain ⟨first, rest, production, others, hsplit, hproduction, hne, hnamed, hothers⟩ := hmarker
  have hstart : isGrammarName "q" = true := by decide
  have hfirst : (trim first).isEmpty = false := by
    rw [List.isEmpty_eq_false_iff]
    intro hnil
    rw [hnil, readProduction] at hproduction
    split at hproduction
    · exact hne (Except.ok.inj hproduction).symm
    · obtain rfl : Production.terminal "" = production := Except.ok.inj hproduction
      cases hnamed
  have hbreaks : ∀ rule ∈ others, rule.Named ∧ rule.production ≠ .empty := by
    by_cases hbreak : '\n' ∈ marker.toList
    · have hlines : ∀ line ∈ (rest.map trim).filter (!·.isEmpty), '\n' ∉ line := by
        intro line hline hmem
        obtain ⟨part, hpart, rfl⟩ := List.mem_map.1 (List.mem_filter.1 hline).1
        exact not_mem_of_mem_splitOn (hsplit ▸ List.mem_cons_of_mem _ hpart) (mem_of_mem_trim hmem)
      have hall := ((List.forall₂_and_left _ _).2 ⟨hlines, hothers⟩).flip.imp
        fun rule line h => And.intro
          (And.intro h.2.2 (production_ne_empty_of_readRule hbreak h.1 h.2.1)) h.2.1
      exact ((List.forall₂_and_left _ _).1 hall).1
    · rw [splitOn_of_not_mem hbreak] at hsplit
      cases hsplit
      cases hothers
      exact List.forall_mem_nil _
  refine ⟨⟨"q", production⟩ :: others,
    List.forall_mem_cons.2 ⟨⟨⟨hstart, hnamed⟩, hne⟩, hbreaks⟩, ?_⟩
  rw [@ruleLines_eq marker ⟨"q", .empty⟩ hstart first rest hsplit]
  refine .cons ?_ (hothers.imp fun line rule h => h.1)
  rw [readRule_ruleText hstart, hfirst, if_neg Bool.false_ne_true, hproduction]
  rfl

/-- If the marker is taken for rules, then an empty production is read as these rules. -/
theorem TakenForRules.exists_generates_ne (hmarker : TakenForRules config.epsilon) :
    ∃ (a : Automaton) (g h : Grammar) (w : List String), a.WellFormed ∧
      ofAutomaton config a = .ok g ∧ parse config g.write = .ok h ∧
      ¬ h.Generates w ∧ a.accepts w = true := by
  obtain ⟨rules, hrules, hread⟩ := hmarker.exists_rules
  have hstart : isGrammarName "q" = true := by decide
  have hg : ofAutomaton config (.nfa (declaring rules).toNfa) =
      .ok (ofNfa config.epsilon (declaring rules).toNfa) := by
    refine ofAutomaton_listing nofun (fun x hx => ?_) (List.forall_mem_cons.2 ⟨hstart, ?_⟩)
    · obtain ⟨rule, hrule, hx⟩ := List.mem_flatMap.1 (List.mem_dedup.1 hx)
      have hx := (hrules rule hrule).1.names.1 x hx
      refine ⟨hx, ?_⟩
      rintro rfl
      exact hmarker.not_isName (isName_of_isGrammarName hx)
    · intro x hx
      obtain ⟨rule, hrule, hx⟩ := List.mem_flatMap.1 hx
      exact (hrules rule hrule).1.names.2 x hx
  have ha : (Automaton.nfa (declaring rules).toNfa).WellFormed := Listing.wellFormed_toNfa _
  have hwell := wellFormed_of_ofAutomaton ha hg
  have hread : ∀ rule ∈ (ofNfa config.epsilon (declaring rules).toNfa).rules,
      List.Forall₂ (ReadAs config.epsilon
        (ofNfa config.epsilon (declaring rules).toNfa).terminals
        (ofNfa config.epsilon (declaring rules).toNfa).nonterminals)
      (ruleLines config.epsilon rule) rules := by
    intro rule hrule
    rw [mem_rules_declaring hrule]
    refine List.Forall₂.flip (((List.forall₂_and_left _ _).2
      ⟨fun rule => declared_declaring, hread.flip⟩).imp fun rule line h => ⟨h.2, h.1⟩)
  obtain ⟨h, hh, hsame⟩ := hwell.exists_parse_write_eq_ok rfl (fun _ => rules) hread
  refine ⟨_, _, h, [], ha, hg, hh, fun hw => ?_, ?_⟩
  · refine ne_nil_of_derives (fun rule hrule => ?_) hw rfl
    rw [hsame, List.mem_flatMap] at hrule
    obtain ⟨rule', -, hrule⟩ := hrule
    exact (hrules rule hrule).2
  · show (declaring rules).toNfa.accepts [] = true
    have hn := (declaring rules).wellFormed_toNfa
    rw [hn.accepts_iff]
    refine Nfa.RecognizesFrom.nil ((Listing.mem_accepting_toNfa hn.start_lt).2 ?_)
    exact List.mem_singleton.2 Listing.name_start_toNfa

end Grammar

end Acceptors
