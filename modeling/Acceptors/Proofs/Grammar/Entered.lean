import Acceptors.Proofs.Grammar.Generated
import Acceptors.Proofs.Grown

/-!
# Grammars are entered rule by rule

The automaton of a grammar can be made while the rules are read. The variables are states from the
start. A rule looks up its variables and its terminal and adds a move, or has a state accept. The
state in which a final terminal ends is added by the first rule that needs it, and noted for the
others.

After each rule there is the automaton of the rules read so far. The first name that is not declared
ends the loop with the same error as in the automaton that is listed at once, unless it is the name
of the additional state, which is looked up like a variable once it is there. Grammars that are read
and grammars of automata declare all names, and have no such rule.

Results:
* `Grammar.entered`: the automaton that is made rule by rule.
* `Grammar.Reading.enters`: what a rule adds, or how it is refused.
* `Grammar.entered_eq_toNfa`, `Grammar.WellFormed.entered_eq`: the automaton that is made is the
  automaton of the grammar.
-/

namespace Acceptors

namespace Grammar

/-! ## The loops -/

/-- The state of a variable (`state`). -/
def stateOf (n : Nfa) (x : String) : Except SourceError Nat :=
  match n.idOf? x with
  | some s => .ok s
  | none => .error (.invalidStateName x)

/-- The column of a terminal (`symbol`). -/
def columnOf (n : Nfa) (x : String) : Except SourceError Nat :=
  match n.alphabet.idxOf? x with
  | some c => .ok c
  | none => .error (.automaton (.unknownSymbol x))

/-- The state in which a final terminal ends (the look-up of `stop` in `to_nfa`). It is added when
    it is needed for the first time. -/
def stopOf (config : Config) (n : Nfa) (stop : Option Nat) : Nfa × Nat :=
  match stop with
  | some t => (n, t)
  | none => ((n.addState config.finalName).setAccepting n.size true, n.size)

/-- Enters a rule: the body of the loop over the rules in `to_nfa`. Beside the automaton stands the
    state in which a final terminal ends, once there is one. -/
def enterRule (config : Config) (made : Nfa × Option Nat) (rule : Rule) :
    Except SourceError (Nfa × Option Nat) := do
  let source ← stateOf made.1 rule.head
  match rule.production with
  | .step x next =>
    let c ← columnOf made.1 x
    let target ← stateOf made.1 next
    return (made.1.addMove source c target, made.2)
  | .terminal x =>
    let c ← columnOf made.1 x
    let stopped := stopOf config made.1 made.2
    return (stopped.1.addMove source c stopped.2, some stopped.2)
  | .empty => return (made.1.setAccepting source true, made.2)
  | .unit next =>
    let target ← stateOf made.1 next
    return (made.1.addEpsilon source target, made.2)

/-- The automaton that is made rule by rule (`to_nfa`). -/
def entered (config : Config) (g : Grammar) : Except SourceError Nfa := do
  let alphabet ← (Alphabet.ofList g.terminals).mapError .automaton
  let blank := g.nonterminals.foldl (fun n x => (n.stateNamed x).1) (.new alphabet g.start)
  let (n, _) ← g.rules.foldlM (enterRule config) (blank, none)
  return n

/-! ## Names -/

/-- The variables as states, that of the start first. -/
def states (g : Grammar) : StateNames := .ofMentions (g.start :: g.nonterminals)

/-- The name of the state in which a final terminal ends: no variable has it. -/
def stopName (config : Config) (g : Grammar) : String := g.states.fresh config.finalName

/-- The variables that a rule speaks of. -/
def Rule.mentioned (rule : Rule) : List String :=
  match rule.production with
  | .step _ next | .unit next => [rule.head, next]
  | .terminal _ | .empty => [rule.head]

open Listing

variable {config : Config} {g : Grammar} {alphabet : Alphabet} {final x : String} {rule : Rule}
variable {rules : List Rule} {edges : List (Option Edge)} {e : Edge} {l : Listing}
variable {stop : Option Nat}

/-! ## The rules that have been read -/

/-- Whether one of the rules ends in a terminal. -/
def endsInTerminal (rules : List Rule) : Bool := rules.any (·.production.isTerminal)

/-- The listing is that of the variables and of the rules read so far, of which `edges` are the
    moves. The state `final` is mentioned, accepts and is noted once a rule ends in a terminal. -/
structure Reading (g : Grammar) (alphabet : Alphabet) (final : String) (rules : List Rule)
    (edges : List (Option Edge)) (l : Listing) (stop : Option Nat) : Prop where
  closed : l.Closed
  alphabet_eq : l.alphabet = alphabet
  start_eq : l.start = g.start
  mentions_eq : l.mentions = g.nonterminals ++ if endsInTerminal rules then [final] else []
  edges_eq : l.edges = edges.filterMap id
  mem_accepting : ∀ x, x ∈ l.accepting ↔
    (∃ rule ∈ rules, rule.production = .empty ∧ rule.head = x) ∨
      endsInTerminal rules = true ∧ x = final
  stop_eq : stop = if endsInTerminal rules then l.names.idOf? final else none

theorem endsInTerminal_concat :
    endsInTerminal (rules ++ [rule]) = (endsInTerminal rules || rule.production.isTerminal) := by
  simp [endsInTerminal]

/-- All other states are variables. -/
theorem Reading.mem_names_iff (h : Reading g alphabet final rules edges l stop) (hx : x ≠ final) :
    x ∈ l.names.toList ↔ x ∈ g.states.toList := by
  have hnot : x ∉ if endsInTerminal rules then [final] else [] := by
    split
    · simpa using hx
    · simp
  rw [names, states, StateNames.mem_ofMentions, StateNames.mem_ofMentions, h.start_eq,
    h.mentions_eq, List.mem_cons, List.mem_cons, List.mem_append, or_iff_left hnot]

/-- A variable is found if it is declared. -/
theorem Reading.stateOf_eq (h : Reading g alphabet final rules edges l stop) (hx : x ≠ final) :
    (x ∈ g.states.toList ∧ ∃ s, l.names.idOf? x = some s ∧ stateOf l.toNfa x = .ok s) ∨
      (x ∉ g.states.toList ∧ stateOf l.toNfa x = .error (.invalidStateName x)) := by
  have hstate : stateOf l.toNfa x = match l.names.idOf? x with
    | some s => .ok s
    | none => .error (.invalidStateName x) := rfl
  rw [← h.mem_names_iff hx, StateNames.mem_toList_iff, hstate]
  cases l.names.idOf? x with
  | some s => exact .inl ⟨⟨s, rfl⟩, s, rfl, rfl⟩
  | none => exact .inr ⟨by simp, rfl⟩

/-- A terminal is found if it is a symbol. -/
theorem Reading.columnOf_eq (h : Reading g alphabet final rules edges l stop) (x : String) :
    (∃ c, alphabet.idxOf? x = some c ∧ l.toNfa.HasColumn (some c) ∧ columnOf l.toNfa x = .ok c) ∨
      (alphabet.idxOf? x = none ∧ columnOf l.toNfa x = .error (.automaton (.unknownSymbol x))) := by
  have hcolumn : columnOf l.toNfa x = match l.alphabet.idxOf? x with
    | some c => .ok c
    | none => .error (.automaton (.unknownSymbol x)) := rfl
  rw [hcolumn, ← h.alphabet_eq]
  cases hc : l.alphabet.idxOf? x with
  | some c => exact .inl ⟨c, rfl, Nfa.hasColumn_some hc, rfl⟩
  | none => exact .inr ⟨rfl, rfl⟩

/-- Once a rule ends in a terminal, the state in which it ends is noted. -/
theorem Reading.exists_stop (h : Reading g alphabet final rules edges l stop)
    (hends : endsInTerminal rules = true) : ∃ t, l.names.idOf? final = some t ∧ stop = some t := by
  have hmem : final ∈ l.names.toList := by
    rw [names, StateNames.mem_ofMentions, h.mentions_eq, if_pos hends]
    simp
  obtain ⟨t, ht⟩ := StateNames.mem_toList_iff.1 hmem
  refine ⟨t, ht, ?_⟩
  rw [h.stop_eq, if_pos hends]
  exact ht

/-- Before a rule ends in a terminal, there are the variables alone. -/
theorem Reading.names_eq (h : Reading g alphabet final rules edges l stop)
    (hends : endsInTerminal rules = false) : l.names = g.states := by
  rw [names, states, h.start_eq, h.mentions_eq, hends]
  simp

/-- The state in which a final terminal ends is added when it is needed for the first time. -/
theorem Reading.stopOf_eq
    (h : Reading g alphabet (g.stopName config) rules edges l stop)
    (hends : endsInTerminal rules = false) :
    stopOf config l.toNfa stop = ((l.append [g.stopName config] []
      [g.stopName config]).toNfa, l.names.size) := by
  have hnames := h.names_eq hends
  have hfinal : g.stopName config ∉ l.names.toList := by
    rw [hnames]
    exact g.states.fresh_not_mem _
  have hadd : l.toNfa.addState config.finalName =
      (l.append [g.stopName config] [] []).toNfa := by
    rw [← h.closed.addState_toNfa hfinal, stopName, ← hnames]
    exact (l.toNfa.addState_fresh config.finalName).symm
  have hset : (l.append [g.stopName config] [] []).toNfa.setAccepting l.names.size
      true = _ := setAccepting_toNfa (idOf?_append_of_not_mem hfinal) nofun
  rw [append_append] at hset
  have hstop : stop = none := by
    rw [h.stop_eq, hends]
    rfl
  rw [hstop]
  show ((l.toNfa.addState config.finalName).setAccepting l.names.size true, l.names.size) = _
  rw [hadd, hset]
  rfl

/-- A rule that is a move between states. -/
theorem Reading.addMove (h : Reading g alphabet final rules edges l stop)
    (hproduction : rule.production ≠ .empty)
    (hterminal : rule.production.isTerminal = true → endsInTerminal rules = true)
    (hsource : e.source ∈ l.names.toList) (htarget : e.target ∈ l.names.toList) :
    Reading g alphabet final (rules ++ [rule]) (edges ++ [some e]) (l.append [] [e] []) stop := by
  have hsame : endsInTerminal (rules ++ [rule]) = endsInTerminal rules := by
    rw [endsInTerminal_concat]
    cases hrule : rule.production.isTerminal with
    | true => rw [hterminal hrule, Bool.or_true]
    | false => rw [Bool.or_false]
  refine ⟨h.closed.append (List.forall_mem_singleton.2 (.inl hsource))
    (List.forall_mem_singleton.2 (.inl htarget)) (List.forall_mem_nil _), h.alphabet_eq,
    h.start_eq, ?_, ?_, fun x => ?_, ?_⟩
  · rw [hsame, ← h.mentions_eq]
    exact List.append_nil _
  · rw [List.filterMap_append, ← h.edges_eq]
    rfl
  · rw [hsame]
    simp only [append, List.append_nil, h.mem_accepting, List.mem_append, List.mem_singleton,
      or_and_right, exists_or, exists_eq_left, hproduction, false_and, or_false]
  · rw [hsame, names_append_nil]
    exact h.stop_eq

/-- The empty production. -/
theorem Reading.addEmpty (h : Reading g alphabet final rules edges l stop)
    (hproduction : rule.production = .empty) (hhead : rule.head ∈ l.names.toList) :
    Reading g alphabet final (rules ++ [rule]) (edges ++ [none]) (l.append [] [] [rule.head])
      stop := by
  have hsame : endsInTerminal (rules ++ [rule]) = endsInTerminal rules := by
    rw [endsInTerminal_concat, hproduction]
    exact Bool.or_false _
  refine ⟨h.closed.append (List.forall_mem_nil _) (List.forall_mem_nil _)
    (List.forall_mem_singleton.2 (.inl hhead)), h.alphabet_eq, h.start_eq, ?_, ?_, fun x => ?_, ?_⟩
  · rw [hsame, ← h.mentions_eq]
    exact List.append_nil _
  · rw [List.filterMap_append, ← h.edges_eq]
    rfl
  · rw [hsame]
    simp only [append, h.mem_accepting, List.mem_append, List.mem_singleton, or_and_right,
      exists_or, exists_eq_left, hproduction, true_and, eq_comm (a := x)]
    exact or_right_comm
  · rw [hsame, names_append_nil]
    exact h.stop_eq

/-- The state in which a final terminal ends, if it is not there yet. -/
theorem Reading.addStop (h : Reading g alphabet final rules edges l stop)
    (hnone : endsInTerminal rules = false) (hfinal : final ∉ l.names.toList)
    (hterminal : rule.production.isTerminal = true) (hsource : e.source ∈ l.names.toList)
    (htarget : e.target = final) :
    Reading g alphabet final (rules ++ [rule]) (edges ++ [some e])
      (l.append [final] [e] [final]) (some l.toNfa.size) := by
  have hsome : endsInTerminal (rules ++ [rule]) = true := by
    rw [endsInTerminal_concat, hterminal, Bool.or_true]
  have hproduction : rule.production ≠ .empty := by
    intro hempty
    rw [hempty] at hterminal
    cases hterminal
  have hin : final ∈ [final] := List.mem_singleton_self final
  refine ⟨h.closed.append (List.forall_mem_singleton.2 (.inl hsource))
    (List.forall_mem_singleton.2 (.inr (htarget ▸ hin))) (List.forall_mem_singleton.2 (.inr hin)),
    h.alphabet_eq, h.start_eq, ?_, ?_, fun x => ?_, ?_⟩
  · rw [hsome, append, h.mentions_eq, hnone]
    simp
  · rw [List.filterMap_append, ← h.edges_eq]
    rfl
  · rw [hsome]
    simp only [append, h.mem_accepting, hnone, List.mem_append, List.mem_singleton, or_and_right,
      exists_or, exists_eq_left, hproduction, false_and, or_false, true_and, Bool.false_eq_true]
  · rw [hsome, if_pos rfl]
    exact (idOf?_append_of_not_mem hfinal).symm

/-! ## Rule by rule -/

/-- The rule is entered if it has an edge, and otherwise refused with the same error. -/
def Enters (config : Config) (g : Grammar) (alphabet : Alphabet) (rules : List Rule)
    (edges : List (Option Edge)) (l : Listing) (stop : Option Nat) (rule : Rule) : Prop :=
  match rule.edge alphabet g.states.toList (g.stopName config) with
  | .ok o => ∃ l' stop', enterRule config (l.toNfa, stop) rule = .ok (l'.toNfa, stop') ∧
      Reading g alphabet (g.stopName config) (rules ++ [rule]) (edges ++ [o]) l' stop'
  | .error x => enterRule config (l.toNfa, stop) rule = .error x

theorem enters_of_ok {o : Option Edge} {l' : Listing} {stop' : Option Nat}
    (hedge : rule.edge alphabet g.states.toList (g.stopName config) = .ok o)
    (henter : enterRule config (l.toNfa, stop) rule = .ok (l'.toNfa, stop'))
    (h : Reading g alphabet (g.stopName config) (rules ++ [rule]) (edges ++ [o]) l'
      stop') :
    Enters config g alphabet rules edges l stop rule := by
  rw [Enters, hedge]
  exact ⟨l', stop', henter, h⟩

theorem enters_of_error {x : SourceError}
    (hedge : rule.edge alphabet g.states.toList (g.stopName config) = .error x)
    (henter : enterRule config (l.toNfa, stop) rule = .error x) :
    Enters config g alphabet rules edges l stop rule := by
  rw [Enters, hedge]
  exact henter

section Productions

variable {source : Nat}
variable (h : Reading g alphabet (g.stopName config) rules edges l stop)
variable (hdeclared : rule.head ∈ g.states.toList) (hsource : l.names.idOf? rule.head = some source)
variable (hlookup : stateOf l.toNfa rule.head = .ok source)

section

include h hsource

/-- A move that is found in the edge of the rule is one more edge. -/
theorem Reading.enters_move (column : Option Nat) {y : String} {t : Nat}
    (hproduction : rule.production ≠ .empty)
    (hterminal : rule.production.isTerminal = true → endsInTerminal rules = true)
    (ht : l.names.idOf? y = some t) (hcolumn : l.toNfa.HasColumn column)
    (hedge : rule.edge alphabet g.states.toList (g.stopName config) =
      .ok (some ⟨rule.head, column, y⟩))
    (henter : enterRule config (l.toNfa, stop) rule =
      .ok (l.toNfa.addEdge source column t, stop)) :
    Enters config g alphabet rules edges l stop rule := by
  rw [addEdge_toNfa hsource ht hcolumn] at henter
  exact enters_of_ok hedge henter (h.addMove hproduction hterminal
    (StateNames.mem_toList_iff.2 ⟨_, hsource⟩) (StateNames.mem_toList_iff.2 ⟨_, ht⟩))

end

include h hdeclared hsource hlookup

theorem Reading.enters_step {next : String} (hproduction : rule.production = .step x next)
    (hnext : next ≠ g.stopName config) :
    Enters config g alphabet rules edges l stop rule := by
  rcases h.columnOf_eq x with ⟨c, hc, hhas, hcolumn⟩ | ⟨hc, hcolumn⟩
  · rcases h.stateOf_eq hnext with ⟨hmem, t, ht, htarget⟩ | ⟨hmem, htarget⟩
    · refine h.enters_move hsource (some c) (hproduction ▸ nofun) (hproduction ▸ nofun) ht hhas
        ?_ ?_
      · simp only [Rule.edge, hproduction, if_pos hdeclared, if_pos hmem, hc]
        rfl
      · simp only [Grammar.enterRule, hproduction, hlookup, htarget, hcolumn]
        rfl
    · refine enters_of_error (x := .invalidStateName next) ?_ ?_
      · simp only [Rule.edge, hproduction, if_pos hdeclared, if_neg hmem, hc]
        rfl
      · simp only [Grammar.enterRule, hproduction, hlookup, htarget, hcolumn]
        rfl
  · refine enters_of_error (x := .automaton (.unknownSymbol x)) ?_ ?_
    · simp only [Rule.edge, hproduction, if_pos hdeclared, hc]
      rfl
    · simp only [Grammar.enterRule, hproduction, hlookup, hcolumn]
      rfl

theorem Reading.enters_unit {next : String} (hproduction : rule.production = .unit next)
    (hnext : next ≠ g.stopName config) :
    Enters config g alphabet rules edges l stop rule := by
  rcases h.stateOf_eq hnext with ⟨hmem, t, ht, htarget⟩ | ⟨hmem, htarget⟩
  · refine h.enters_move hsource none (hproduction ▸ nofun) (hproduction ▸ nofun) ht nofun ?_ ?_
    · simp only [Rule.edge, hproduction, if_pos hdeclared, if_pos hmem]
      rfl
    · simp only [Grammar.enterRule, hproduction, hlookup, htarget]
      rfl
  · refine enters_of_error (x := .invalidStateName next) ?_ ?_
    · simp only [Rule.edge, hproduction, if_pos hdeclared, if_neg hmem]
      rfl
    · simp only [Grammar.enterRule, hproduction, hlookup, htarget]
      rfl

theorem Reading.enters_empty (hproduction : rule.production = .empty) :
    Enters config g alphabet rules edges l stop rule := by
  have hset : l.toNfa.setAccepting source true = (l.append [] [] [rule.head]).toNfa :=
    setAccepting_toNfa hsource nofun
  refine enters_of_ok (o := none) ?_ ?_
    (h.addEmpty hproduction (StateNames.mem_toList_iff.2 ⟨_, hsource⟩))
  · simp only [Rule.edge, hproduction, if_pos hdeclared]
    rfl
  · rw [← hset]
    simp only [Grammar.enterRule, hproduction, hlookup]
    rfl

theorem Reading.enters_terminal (hproduction : rule.production = .terminal x) :
    Enters config g alphabet rules edges l stop rule := by
  rcases h.columnOf_eq x with ⟨c, hc, hhas, hcolumn⟩ | ⟨hc, hcolumn⟩
  · have hedge : rule.edge alphabet g.states.toList (g.stopName config) =
        .ok (some ⟨rule.head, some c, g.stopName config⟩) := by
      simp only [Rule.edge, hproduction, if_pos hdeclared, hc]
      rfl
    cases hends : endsInTerminal rules with
    | true =>
      obtain ⟨t, ht, rfl⟩ := h.exists_stop hends
      have hne : rule.production ≠ .empty := by simp [hproduction]
      refine h.enters_move hsource (some c) hne (fun _ => hends) ht hhas hedge ?_
      simp only [Grammar.enterRule, hproduction, hlookup, hcolumn]
      rfl
    | false =>
      have hfinal : g.stopName config ∉ l.names.toList := by
        rw [h.names_eq hends]
        exact g.states.fresh_not_mem _
      have hhas : (l.append [g.stopName config] []
          [g.stopName config]).toNfa.HasColumn (some c) := hhas
      have hmove := addEdge_toNfa (idOf?_append hsource) (idOf?_append_of_not_mem hfinal) hhas
      rw [append_append] at hmove
      refine enters_of_ok hedge ?_ (h.addStop hends hfinal (hproduction ▸ rfl)
        (StateNames.mem_toList_iff.2 ⟨_, hsource⟩) rfl)
      simp only [Grammar.enterRule, hproduction, hlookup, hcolumn]
      show Except.ok ((stopOf config l.toNfa stop).1.addMove source c
        (stopOf config l.toNfa stop).2, some (stopOf config l.toNfa stop).2) = _
      rw [h.stopOf_eq hends]
      exact congrArg (fun n => Except.ok (n, some l.names.size)) hmove
  · refine enters_of_error (x := .automaton (.unknownSymbol x)) ?_ ?_
    · simp only [Rule.edge, hproduction, if_pos hdeclared, hc]
      rfl
    · simp only [Grammar.enterRule, hproduction, hlookup, hcolumn]
      rfl

end Productions

/-- What the next rule says is done. -/
theorem Reading.enters (h : Reading g alphabet (g.stopName config) rules edges l stop)
    (hfree : g.stopName config ∉ rule.mentioned) :
    Enters config g alphabet rules edges l stop rule := by
  have hhead : rule.head ≠ g.stopName config := by
    intro heq
    refine hfree ?_
    unfold Rule.mentioned
    split <;> simp [heq]
  rcases h.stateOf_eq hhead with ⟨hdeclared, source, hsource, hlookup⟩ | ⟨hundeclared, hlookup⟩
  · cases hproduction : rule.production with
    | step x next =>
      refine h.enters_step hdeclared hsource hlookup hproduction ?_
      rintro rfl
      exact hfree (by simp [Rule.mentioned, hproduction])
    | terminal x => exact h.enters_terminal hdeclared hsource hlookup hproduction
    | empty => exact h.enters_empty hdeclared hsource hlookup hproduction
    | unit next =>
      refine h.enters_unit hdeclared hsource hlookup hproduction ?_
      rintro rfl
      exact hfree (by simp [Rule.mentioned, hproduction])
  · refine enters_of_error (x := .invalidStateName rule.head) ?_ ?_
    · simp only [Rule.edge, if_neg hundeclared]
      rfl
    · simp only [Grammar.enterRule, hlookup]
      rfl

/-- The rules are entered until one is refused. -/
theorem Reading.foldlM_enterRule {more : List Rule}
    (h : Reading g alphabet (g.stopName config) rules edges l stop)
    (hfree : ∀ rule ∈ more, g.stopName config ∉ rule.mentioned) :
    match more.mapM (Rule.edge alphabet g.states.toList (g.stopName config)) with
    | .ok edges' => ∃ l' stop', more.foldlM (enterRule config) (l.toNfa, stop) =
        .ok (l'.toNfa, stop') ∧ Reading g alphabet (g.stopName config)
          (rules ++ more) (edges ++ edges') l' stop'
    | .error x => more.foldlM (enterRule config) (l.toNfa, stop) = .error x := by
  induction more generalizing rules edges l stop with
  | nil =>
    refine ⟨l, stop, rfl, ?_⟩
    show Reading _ _ _ (rules ++ []) (edges ++ []) l stop
    rwa [List.append_nil, List.append_nil]
  | cons rule more ih =>
    obtain ⟨hrule, hfree⟩ := List.forall_mem_cons.1 hfree
    have henter := h.enters hrule
    rw [List.mapM_cons, List.foldlM_cons]
    cases hedge : rule.edge alphabet g.states.toList (g.stopName config) with
    | error x =>
      rw [Enters, hedge] at henter
      rw [henter]
      rfl
    | ok o =>
      rw [Enters, hedge] at henter
      obtain ⟨l', stop', henter, h'⟩ := henter
      rw [henter]
      have hmore := ih h' hfree
      cases hedges : more.mapM
        (Rule.edge alphabet g.states.toList (g.stopName config)) with
      | error x =>
        rw [hedges] at hmore
        exact hmore
      | ok edges' =>
        rw [hedges] at hmore
        obtain ⟨l'', stop'', hmore, h''⟩ := hmore
        rw [List.append_assoc, List.append_assoc] at h''
        exact ⟨l'', stop'', hmore, h''⟩

/-! ## The automaton of a grammar -/

/-- Before the first rule there are the variables alone. -/
theorem reading_nil (g : Grammar) (alphabet : Alphabet) (final : String) :
    Reading g alphabet final [] [] ⟨alphabet, g.start, g.nonterminals, [], []⟩ none where
  closed := ⟨List.forall_mem_nil _, List.forall_mem_nil _, List.forall_mem_nil _⟩
  alphabet_eq := rfl
  start_eq := rfl
  mentions_eq := (List.append_nil _).symm
  edges_eq := rfl
  mem_accepting x := by simp [endsInTerminal]
  stop_eq := rfl

/-- Rule by rule the automaton of the grammar is made, and where there is none, the same is at
    fault, if no rule takes the name of the additional state for that of a variable. -/
theorem entered_eq_toNfa (config : Config) (g : Grammar)
    (hfree : ∀ rule ∈ g.rules, g.stopName config ∉ rule.mentioned) :
    g.entered config = g.toNfa config := by
  unfold entered toNfa
  cases halphabet : (Alphabet.ofList g.terminals).mapError SourceError.automaton with
  | error x => rfl
  | ok alphabet =>
    have hclosed : (Listing.mk alphabet g.start [] [] []).Closed :=
      ⟨List.forall_mem_nil _, List.forall_mem_nil _, List.forall_mem_nil _⟩
    have hblank := hclosed.foldl_stateNamed_toNfa g.nonterminals
    rw [← new_eq_toNfa] at hblank
    have hrules := (reading_nil g alphabet _).foldlM_enterRule hfree
    show (g.rules.foldlM (enterRule config) (g.nonterminals.foldl (fun n x => (n.stateNamed x).1)
      (.new alphabet g.start), none) >>= fun made => Except.ok made.1) = (g.rules.mapM
        (Rule.edge alphabet g.states.toList (g.stopName config)) >>= fun edges => _)
    rw [hblank]
    cases hedges : g.rules.mapM
      (Rule.edge alphabet g.states.toList (g.stopName config)) with
    | error x =>
      rw [hedges] at hrules
      exact congrArg (· >>= fun made : Nfa × Option Nat => Except.ok made.1) hrules
    | ok edges =>
      rw [hedges] at hrules
      obtain ⟨l, stop, hentered, h⟩ := hrules
      refine (congrArg (· >>= fun made : Nfa × Option Nat => Except.ok made.1) hentered).trans ?_
      refine congrArg Except.ok (toNfa_eq_of_mem_accepting (fun x => ?_) ?_)
      · rw [h.mem_accepting]
        simp only [List.nil_append, List.mem_append, List.mem_map, List.mem_filter,
          decide_eq_true_eq, and_assoc]
        refine or_congr_right ?_
        have hends : g.rules.any (·.production.isTerminal) = endsInTerminal g.rules := rfl
        rw [hends]
        cases endsInTerminal g.rules <;> simp [stopName, states]
      · cases l
        obtain ⟨-, rfl, rfl, rfl, rfl, -, -⟩ := h
        rfl

/-- A rule with declared names speaks of declared variables. -/
theorem Rule.Declared.mem_of_mem_mentioned {terminals nonterminals : List String}
    (h : rule.Declared terminals nonterminals) (hx : x ∈ rule.mentioned) : x ∈ nonterminals := by
  obtain ⟨hhead, hproduction⟩ := h
  unfold Rule.mentioned at hx
  split at hx
  · next y next heq =>
    rw [heq] at hproduction
    rcases List.mem_cons.1 hx with rfl | hx
    · exact hhead
    · exact List.mem_singleton.1 hx ▸ hproduction.2
  · next next heq =>
    rw [heq] at hproduction
    rcases List.mem_cons.1 hx with rfl | hx
    · exact hhead
    · exact List.mem_singleton.1 hx ▸ hproduction
  · exact List.mem_singleton.1 hx ▸ hhead
  · exact List.mem_singleton.1 hx ▸ hhead

/-- A grammar with declared names is entered as it is listed: none of its rules takes the name of
    the additional state for that of a variable. -/
theorem WellFormed.entered_eq (hg : g.WellFormed) (config : Config) :
    g.entered config = g.toNfa config := by
  refine entered_eq_toNfa config g fun rule hrule hmem => ?_
  have hdeclared := (hg.rules rule hrule).mem_of_mem_mentioned hmem
  refine g.states.fresh_not_mem config.finalName ?_
  rw [states, StateNames.mem_ofMentions]
  exact List.mem_cons_of_mem _ hdeclared

end Grammar

end Acceptors
