import Acceptors.Grammar.Derivation
import Acceptors.Proofs.Grammar.Declared
import Acceptors.Proofs.Listing
import Acceptors.Proofs.Renamed

/-!
# The words of a grammar and of its automaton

The automaton of a grammar has the variables as states and one state more, under a name that is no
variable, in which a final terminal ends. So a path from a variable to acceptance is a derivation
from it, and a path from the additional state is empty.

Results:
* `Grammar.WellFormed.toNfa_eq`: the automaton, listed by names.
* `Grammar.WellFormed.moves_listing_iff`: its moves are the rules.
* `Grammar.WellFormed.exists_toNfa_eq`: its words are the words that are generated.
* `Grammar.generates_iff_accepts_of_ofAutomaton`: the grammar of an automaton generates the words of
  the automaton.
* `Grammar.toNfa_accepts_iff_generates`: the same of grammars that are read and of automata.
-/

namespace Acceptors

namespace Grammar

variable {config : Config} {g : Grammar} {rule : Rule} {alphabet : Alphabet} {final A B x : String}
variable {c : Nat} {w : List String}

/-! ## Moves of rules -/

/-- The move of a rule whose names are declared, where `final` is the state that a final terminal
    leads to. -/
def Rule.move (alphabet : Alphabet) (final : String) (rule : Rule) : Option Edge :=
  match rule.production with
  | .step x next => some ⟨rule.head, alphabet.idxOf? x, next⟩
  | .terminal x => some ⟨rule.head, alphabet.idxOf? x, final⟩
  | .empty => none
  | .unit next => some ⟨rule.head, none, next⟩

/-- No rule with declared names is refused. -/
theorem Rule.Declared.edge_eq {nonterminals : List String}
    (h : rule.Declared alphabet.symbols nonterminals) :
    rule.edge alphabet nonterminals final = .ok (rule.move alphabet final) := by
  obtain ⟨hhead, hproduction⟩ := h
  have hcolumn : ∀ x ∈ alphabet.symbols, ∃ c, alphabet.idxOf? x = some c :=
    fun _ hx => Alphabet.exists_idxOf?_of_mem hx
  simp only [Rule.edge, Rule.move, if_pos hhead]
  cases hp : rule.production with
  | step x next =>
    rw [hp] at hproduction
    obtain ⟨c, hc⟩ := hcolumn x hproduction.1
    simp only [hc, if_pos hproduction.2]
    rfl
  | terminal x =>
    rw [hp] at hproduction
    obtain ⟨c, hc⟩ := hcolumn x hproduction
    simp only [hc]
    rfl
  | empty => rfl
  | unit next =>
    rw [hp] at hproduction
    simp only [if_pos hproduction]
    rfl

/-! ## The automaton by names -/

/-- The automaton of a grammar whose names are declared, where `final` is the state that a final
    terminal leads to. -/
def listing (g : Grammar) (alphabet : Alphabet) (final : String) : Listing :=
  let finals := if g.rules.any (·.production.isTerminal) then [final] else []
  { alphabet := alphabet
    start := g.start
    mentions := g.nonterminals ++ finals
    edges := g.rules.filterMap (Rule.move alphabet final)
    accepting := (g.rules.filter (·.production = .empty)).map (·.head) ++ finals }

/-- The conversion succeeds, with an additional state whose name is the given one, renamed until it
    is no variable. -/
theorem WellFormed.toNfa_eq (hg : g.WellFormed) (config : Config) :
    ∃ alphabet final, alphabet.symbols = g.terminals ∧ final ∉ g.nonterminals ∧
      StateNames.Renamed config.finalName final ∧
      g.toNfa config = .ok (g.listing alphabet final).toNfa := by
  have hnames : ∀ x, x ∈ (StateNames.ofMentions (g.start :: g.nonterminals)).toList ↔
      x ∈ g.nonterminals := by
    intro x
    rw [StateNames.mem_ofMentions, List.mem_cons, or_iff_right_iff_imp]
    rintro rfl
    exact hg.start_mem
  let alphabet : Alphabet := ⟨g.terminals, hg.terminals_nodup⟩
  have halphabet : Alphabet.ofList g.terminals = .ok alphabet :=
    Alphabet.ofList_eq_ok_iff.2 ⟨hg.terminals_nodup, rfl⟩
  have hedges : ∀ final, g.rules.mapM (Rule.edge alphabet
      (StateNames.ofMentions (g.start :: g.nonterminals)).toList final) =
        .ok (g.rules.map (Rule.move alphabet final)) := by
    refine fun final => mapM_eq_pure_map fun rule hrule => Rule.Declared.edge_eq ?_
    have hdeclared := hg.rules rule hrule
    simpa only [Rule.Declared, hnames] using hdeclared
  refine ⟨alphabet, _, rfl,
    fun h => StateNames.fresh_not_mem _ config.finalName ((hnames _).2 h),
    StateNames.renamed_fresh _ config.finalName, ?_⟩
  have hconverted : (Alphabet.ofList g.terminals).mapError SourceError.automaton = .ok alphabet :=
    Except.mapError_eq_ok_iff.2 halphabet
  simp only [toNfa, hconverted, bind, Except.bind, hedges]
  rw [listing, List.filterMap_map]
  rfl

/-- Moves on symbols are the rules that begin with a terminal. -/
theorem mem_edges_some_iff :
    ⟨A, some c, B⟩ ∈ (g.listing alphabet final).edges ↔
      ∃ x, alphabet.idxOf? x = some c ∧
        (⟨A, .step x B⟩ ∈ g.rules ∨ ⟨A, .terminal x⟩ ∈ g.rules ∧ B = final) := by
  simp only [listing, List.mem_filterMap]
  constructor
  · rintro ⟨⟨head, production⟩, hrule, h⟩
    cases production with
    | step x next =>
      obtain ⟨rfl, hx, rfl⟩ : _ ∧ _ ∧ _ := by simpa [Rule.move] using h
      exact ⟨x, hx, .inl hrule⟩
    | terminal x =>
      obtain ⟨rfl, hx, rfl⟩ : _ ∧ _ ∧ _ := by simpa [Rule.move] using h
      exact ⟨x, hx, .inr ⟨hrule, rfl⟩⟩
    | empty => cases h
    | unit next => cases h
  · rintro ⟨x, hx, hrule | ⟨hrule, rfl⟩⟩
    · exact ⟨_, hrule, by simp only [Rule.move, hx]⟩
    · exact ⟨_, hrule, by simp only [Rule.move, hx]⟩

/-- Epsilon moves are the rules that are a variable alone. -/
theorem WellFormed.mem_edges_none_iff (hg : g.WellFormed)
    (hsymbols : alphabet.symbols = g.terminals) :
    ⟨A, none, B⟩ ∈ (g.listing alphabet final).edges ↔ ⟨A, .unit B⟩ ∈ g.rules := by
  have hcolumn : ∀ x ∈ g.terminals, alphabet.idxOf? x ≠ none := fun x hx hnone =>
    Alphabet.idxOf?_eq_none_iff.1 hnone (hsymbols ▸ hx : x ∈ alphabet.symbols)
  simp only [listing, List.mem_filterMap]
  constructor
  · rintro ⟨⟨head, production⟩, hrule, h⟩
    obtain ⟨-, hproduction⟩ := hg.rules _ hrule
    cases production with
    | step x next =>
      obtain ⟨-, hx, -⟩ : _ ∧ _ ∧ _ := by simpa [Rule.move] using h
      exact absurd hx (hcolumn x hproduction.1)
    | terminal x =>
      obtain ⟨-, hx, -⟩ : _ ∧ _ ∧ _ := by simpa [Rule.move] using h
      exact absurd hx (hcolumn x hproduction)
    | empty => cases h
    | unit next =>
      cases h
      exact hrule
  · exact fun hrule => ⟨_, hrule, rfl⟩

theorem mem_finals_iff :
    A ∈ (if g.rules.any (·.production.isTerminal) then [final] else []) ↔
      A = final ∧ ∃ B x, ⟨B, .terminal x⟩ ∈ g.rules := by
  have hany : g.rules.any (·.production.isTerminal) = true ↔
      ∃ B x, ⟨B, .terminal x⟩ ∈ g.rules := by
    rw [List.any_eq_true]
    constructor
    · rintro ⟨⟨B, production⟩, hrule, h⟩
      cases production with
      | terminal x => exact ⟨B, x, hrule⟩
      | step x next => cases h
      | empty => cases h
      | unit next => cases h
    · exact fun ⟨B, x, hrule⟩ => ⟨_, hrule, rfl⟩
  rw [← hany]
  split
  · next h => rw [List.mem_singleton, and_iff_left h]
  · next h => exact iff_of_false List.not_mem_nil fun h' => h h'.2

/-- The variables with the empty production accept, and so does the additional state. -/
theorem mem_accepting_listing_iff :
    A ∈ (g.listing alphabet final).accepting ↔
      ⟨A, .empty⟩ ∈ g.rules ∨ A = final ∧ ∃ B x, ⟨B, .terminal x⟩ ∈ g.rules := by
  rw [← mem_finals_iff, listing, List.mem_append]
  refine or_congr_left ?_
  simp only [List.mem_map, List.mem_filter, decide_eq_true_eq]
  constructor
  · rintro ⟨⟨head, production⟩, ⟨hrule, rfl⟩, rfl⟩
    exact hrule
  · exact fun hrule => ⟨_, ⟨hrule, rfl⟩, rfl⟩

theorem mem_names_listing_iff :
    A ∈ (g.listing alphabet final).names.toList ↔
      A = g.start ∨ A ∈ g.nonterminals ∨ A = final ∧ ∃ B x, ⟨B, .terminal x⟩ ∈ g.rules := by
  rw [← mem_finals_iff, ← List.mem_append]
  exact StateNames.mem_ofMentions.trans List.mem_cons

/-! ## Derivations and paths -/

theorem WellFormed.mem_nonterminals_of_derives (hg : g.WellFormed) (h : g.Derives A w) :
    A ∈ g.nonterminals := by
  cases h with
  | step hrule _ => exact (hg.rules _ hrule).1
  | terminal hrule => exact (hg.rules _ hrule).1
  | empty hrule => exact (hg.rules _ hrule).1
  | unit hrule _ => exact (hg.rules _ hrule).1

section Words

variable (hg : g.WellFormed) (hsymbols : alphabet.symbols = g.terminals)
  (hfinal : final ∉ g.nonterminals)

include hg hsymbols hfinal

omit hfinal in
/-- A move on a symbol is a rule with this symbol. -/
theorem WellFormed.moves_listing_iff {s t : Nat} (hs : s < (g.listing alphabet final).names.size)
    (ht : t < (g.listing alphabet final).names.size) :
    (g.listing alphabet final).toNfa.Moves s x t ↔
      ⟨(g.listing alphabet final).names.name s,
        .step x ((g.listing alphabet final).names.name t)⟩ ∈ g.rules ∨
      ⟨(g.listing alphabet final).names.name s, .terminal x⟩ ∈ g.rules ∧
        (g.listing alphabet final).names.name t = final := by
  constructor
  · rintro ⟨c, hc, hmem⟩
    rw [Listing.mem_targets_toNfa hs ht] at hmem
    obtain ⟨y, hy, hrule⟩ := mem_edges_some_iff.1 hmem.2
    obtain rfl : x = y := Alphabet.eq_of_idxOf? hc hy
    exact hrule
  · intro hrule
    have hx : x ∈ alphabet.symbols := by
      rw [hsymbols]
      rcases hrule with hrule | ⟨hrule, -⟩
      · exact (hg.rules _ hrule).2.1
      · exact (hg.rules _ hrule).2
    obtain ⟨c, hc⟩ := Alphabet.exists_idxOf?_of_mem hx
    refine ⟨c, hc, (Listing.mem_targets_toNfa hs ht).2 ⟨Alphabet.lt_size_of_idxOf? hc, ?_⟩⟩
    exact mem_edges_some_iff.2 ⟨x, hc, hrule⟩

/-- A path to acceptance is a derivation, but for the empty one from the additional state. -/
theorem WellFormed.derives_of_recognizesFrom {s : Nat}
    (h : (g.listing alphabet final).toNfa.RecognizesFrom s w) :
    (g.listing alphabet final).names.name s = final ∧ w = [] ∨
      g.Derives ((g.listing alphabet final).names.name s) w := by
  set l := g.listing alphabet final
  have hn := l.wellFormed_toNfa
  have hvariable : ∀ {t w}, l.names.name t ∈ g.nonterminals →
      (l.names.name t = final ∧ w = [] ∨ g.Derives (l.names.name t) w) →
        g.Derives (l.names.name t) w :=
    fun ht h => h.resolve_left fun h => hfinal (h.1 ▸ ht)
  refine h.induct (P := fun s w => l.names.name s = final ∧ w = [] ∨ g.Derives (l.names.name s) w)
    (fun s hs => ?_) (fun s t w ht ih => ?_) fun s x t w ht ih => ?_
  · rw [Listing.mem_accepting_toNfa (hn.accepting_lt s hs)] at hs
    rcases mem_accepting_listing_iff.1 hs with hrule | ⟨hs, -⟩
    · exact .inr (.empty hrule)
    · exact .inl ⟨hs, rfl⟩
  · have hslt := hn.lt_of_mem_epsilonTargets ht
    rw [Listing.mem_epsilonTargets_toNfa hslt (hn.epsilonTargets_lt s t ht),
      hg.mem_edges_none_iff hsymbols] at ht
    exact .inr (.unit ht (hvariable (hg.rules _ ht).2 ih))
  · rcases (hg.moves_listing_iff hsymbols (hn.lt_of_moves ht) (hn.moves_lt ht)).1 ht with
      hrule | ⟨hrule, htarget⟩
    · exact .inr (.step hrule (hvariable (hg.rules _ hrule).2.2 ih))
    · rcases ih with ⟨-, rfl⟩ | ih
      · exact .inr (.terminal hrule)
      · exact absurd (htarget ▸ hg.mem_nonterminals_of_derives ih) hfinal

omit hfinal

/-- A derivation is a path to acceptance. -/
theorem WellFormed.recognizesFrom_of_derives (h : g.Derives A w) :
    ∀ s < (g.listing alphabet final).names.size, (g.listing alphabet final).names.name s = A →
      (g.listing alphabet final).toNfa.RecognizesFrom s w := by
  set l := g.listing alphabet final
  have hstate : ∀ {B}, B ∈ l.names.toList → ∃ t < l.names.size, l.names.name t = B :=
    (Nfa.mem_names_iff (n := l.toNfa)).1
  induction h with
  | @step A x B w hrule _ ih =>
    rintro s hs rfl
    obtain ⟨-, -, hB⟩ := hg.rules _ hrule
    obtain ⟨t, ht, rfl⟩ := hstate (mem_names_listing_iff.2 (.inr (.inl hB)))
    exact (ih t ht rfl).cons ((hg.moves_listing_iff hsymbols hs ht).2 (.inl hrule))
  | @terminal A x hrule =>
    rintro s hs rfl
    have hfinals : final = final ∧ ∃ B x, ⟨B, .terminal x⟩ ∈ g.rules := ⟨rfl, _, _, hrule⟩
    obtain ⟨t, ht, htarget⟩ := hstate (mem_names_listing_iff.2 (.inr (.inr hfinals)))
    have hmove := (hg.moves_listing_iff hsymbols hs ht).2 (.inr ⟨hrule, htarget⟩)
    refine Nfa.RecognizesFrom.cons hmove (.nil ?_)
    rw [Listing.mem_accepting_toNfa ht, htarget]
    exact mem_accepting_listing_iff.2 (.inr hfinals)
  | empty hrule =>
    rintro s hs rfl
    refine .nil ?_
    rw [Listing.mem_accepting_toNfa hs]
    exact mem_accepting_listing_iff.2 (.inl hrule)
  | @unit A B w hrule _ ih =>
    rintro s hs rfl
    obtain ⟨-, hB⟩ := hg.rules _ hrule
    obtain ⟨t, ht, rfl⟩ := hstate (mem_names_listing_iff.2 (.inr (.inl hB)))
    refine (ih t ht rfl).epsilon ((Listing.mem_epsilonTargets_toNfa hs ht).2 ?_)
    exact (hg.mem_edges_none_iff hsymbols).2 hrule

end Words

/-- The conversion succeeds, and the automaton recognizes the words that are generated. -/
theorem WellFormed.exists_toNfa_eq (hg : g.WellFormed) (config : Config) :
    ∃ n, g.toNfa config = .ok n ∧ n.WellFormed ∧ ∀ w, w ∈ n.language ↔ g.Generates w := by
  obtain ⟨alphabet, final, hsymbols, hfinal, -, hconverted⟩ := hg.toNfa_eq config
  refine ⟨_, hconverted, Listing.wellFormed_toNfa _, fun w => ?_⟩
  have hstart : (g.listing alphabet final).names.name (g.listing alphabet final).toNfa.start =
      g.start := Listing.name_start_toNfa
  constructor
  · intro h
    rcases hg.derives_of_recognizesFrom hsymbols hfinal h with ⟨h, -⟩ | h
    · exact absurd hg.start_mem ((h.symm.trans hstart) ▸ hfinal)
    · rwa [hstart] at h
  · exact fun h => hg.recognizesFrom_of_derives hsymbols h _
      (Listing.wellFormed_toNfa (g.listing alphabet final)).start_lt hstart

/-! ## The grammar of an automaton -/

section Automata

variable {n : Nfa} {a : Automaton} {marker : String} (hn : n.WellFormed)

include hn

theorem recognizesFrom_of_derives_ofNfa (h : (ofNfa marker n).Derives A w) :
    ∀ s < n.size, n.name s = A → n.RecognizesFrom s w := by
  induction h with
  | @step A x B w hmem _ ih =>
    rintro s hs rfl
    rcases (mem_rules_ofNfa_name_iff hs).1 hmem with ⟨y, t, ht, h⟩ | ⟨-, h⟩
    · cases h
      exact (ih t (hn.moves_lt ht) rfl).cons ht
    · cases h
  | terminal hmem =>
    rintro s hs rfl
    rcases (mem_rules_ofNfa_name_iff hs).1 hmem with ⟨y, t, ht, h⟩ | ⟨-, h⟩ <;> cases h
  | empty hmem =>
    rintro s hs rfl
    rcases (mem_rules_ofNfa_name_iff hs).1 hmem with ⟨y, t, ht, h⟩ | ⟨haccepting, -⟩
    · cases h
    · exact .nil haccepting
  | unit hmem _ _ =>
    rintro s hs rfl
    rcases (mem_rules_ofNfa_name_iff hs).1 hmem with ⟨y, t, ht, h⟩ | ⟨-, h⟩ <;> cases h

/-- The grammar of an automaton without epsilon moves generates the words of the automaton. -/
theorem generates_ofNfa_iff (hfree : ∀ s t, t ∉ n.epsilonTargets s) :
    (ofNfa marker n).Generates w ↔ w ∈ n.language := by
  constructor
  · exact fun h => recognizesFrom_of_derives_ofNfa hn h n.start hn.start_lt rfl
  · refine fun h => h.induct (P := fun s w => (ofNfa marker n).Derives (n.name s) w)
      (fun s hs => .empty ?_) (fun s t w ht _ => absurd ht (hfree s t))
      fun s x t w ht ih => .step ?_ ih
    · exact (mem_rules_ofNfa_name_iff (hn.accepting_lt s hs)).2 (.inr ⟨hs, rfl⟩)
    · exact (mem_rules_ofNfa_name_iff (hn.lt_of_moves ht)).2 (.inl ⟨x, t, ht, rfl⟩)

omit hn

theorem generates_iff_accepts_of_ofAutomaton (ha : a.WellFormed)
    (h : ofAutomaton config a = .ok g) : g.Generates w ↔ a.accepts w = true := by
  obtain ⟨-, rfl⟩ := ofAutomaton_eq_ok_iff.1 h
  rw [generates_ofNfa_iff ha.toNfa.epsilonFree fun _ _ => Nfa.not_mem_epsilonTargets_epsilonFree,
    ha.toNfa.language_epsilonFree, ← ha.toNfa.accepts_iff, ha.accepts_toNfa]

/-- The automaton of the grammar of an automaton accepts the same words again. -/
theorem exists_toNfa_accepts_eq (ha : a.WellFormed) (h : ofAutomaton config a = .ok g)
    (config' : Config) : ∃ n, g.toNfa config' = .ok n ∧ ∀ w, n.accepts w = a.accepts w := by
  obtain ⟨n, hconverted, hn, hwords⟩ := (wellFormed_of_ofAutomaton ha h).exists_toNfa_eq config'
  refine ⟨n, hconverted, fun w => ?_⟩
  rw [Bool.eq_iff_iff, hn.accepts_iff, hwords, generates_iff_accepts_of_ofAutomaton ha h]

end Automata

/-! ## Grammars that are read and grammars of automata -/

/-- A grammar that was read, or that is the grammar of an automaton, has an automaton, which accepts
    exactly the words that the grammar generates. -/
theorem toNfa_accepts_iff_generates
    (hg : (∃ text, parse config text = .ok g) ∨
      ∃ a : Automaton, a.WellFormed ∧ ofAutomaton config a = .ok g) (config' : Config) :
    ∃ n, g.toNfa config' = .ok n ∧ ∀ w, n.accepts w = true ↔ g.Generates w := by
  have hwell : g.WellFormed := by
    rcases hg with ⟨text, h⟩ | ⟨a, ha, h⟩
    · exact wellFormed_of_parse h
    · exact wellFormed_of_ofAutomaton ha h
  obtain ⟨n, hconverted, hn, hwords⟩ := hwell.exists_toNfa_eq config'
  exact ⟨n, hconverted, fun w => hn.accepts_iff.trans (hwords w)⟩

/-- Two variables that continue in each other have the name for the additional state and that name
    renamed. -/
theorem toNfa_accepts_iff_generates_clash :
    let text := "a\nF,F'\nF\nF -> (F')\nF' -> (F)\nF' -> a(F)\nF -> a"
    ∃ g, parse {} text = .ok g ∧ g.nonterminals = [({} : Config).finalName, "F'"] ∧
      ∃ n, g.toNfa {} = .ok n ∧ ∀ w, n.accepts w = true ↔ g.Generates w := by
  intro text
  have h : parse {} text = .ok ⟨["a"], ["F", "F'"], "F",
      [⟨"F", .unit "F'"⟩, ⟨"F'", .unit "F"⟩, ⟨"F'", .step "a" "F"⟩, ⟨"F", .terminal "a"⟩],
      "e"⟩ := by
    decide +kernel
  exact ⟨_, h, rfl, toNfa_accepts_iff_generates (.inl ⟨text, h⟩) {}⟩

end Grammar

end Acceptors
