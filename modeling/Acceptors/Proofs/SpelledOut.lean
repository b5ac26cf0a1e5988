import Acceptors.Builder
import Acceptors.Proofs.Grown

/-!
# Definitions are built as they are spelled out

The automaton of a definition has a state for each name, numbered by first mention, and a move for
each transition: an epsilon move if its symbol is the epsilon marker. The marker does not count
among the symbols, however often it is listed. Two things can go wrong, and the first of them is
looked for first: a symbol that is listed twice, and a transition on a symbol that is not listed.

The automaton can be made while the transitions are read. The two states of a transition are found
or added, then its symbol is looked up; the accepting states come last.

Results:
* `Definition.entered`, `Definition.entered_eq_toNfa`: the automaton that is made transition by
  transition.
* `Alphabet.exists_ofList_eq_error`, `Definition.toNfa_eq_error`: the definitions that are refused.
* `Definition.Spells`, `Definition.spells_toNfa`: what a definition says about its automaton.
* `Definition.build_spelled_out`: what is built from a definition.
-/

namespace Acceptors

/-! ## The first of some members -/

/-- The member that is found repeats a member before it or one seen earlier, and no member before it
    does. -/
theorem exists_of_firstRepeat?_eq_some {seen xs : List String} {x : String}
    (h : firstRepeat? seen xs = some x) :
    ∃ front back, xs = front ++ x :: back ∧ front.Nodup ∧ (∀ y ∈ front, y ∉ seen) ∧
      (x ∈ front ∨ x ∈ seen) := by
  induction xs generalizing seen with
  | nil => cases h
  | cons y xs ih =>
    rw [firstRepeat?] at h
    split at h
    · next hy =>
      obtain rfl := Option.some.inj h
      exact ⟨[], xs, rfl, List.nodup_nil, List.forall_mem_nil _, .inr hy⟩
    · next hy =>
      obtain ⟨front, back, rfl, hnodup, hfront, hx⟩ := ih h
      have hnot : y ∉ front := fun hmem => hfront y hmem List.mem_cons_self
      refine ⟨y :: front, back, rfl, List.nodup_cons.2 ⟨hnot, hnodup⟩, ?_, ?_⟩
      · exact List.forall_mem_cons.2
          ⟨hy, fun z hz hseen => hfront z hz (List.mem_cons_of_mem _ hseen)⟩
      · rcases hx with hx | hx
        · exact .inl (List.mem_cons_of_mem _ hx)
        · rcases List.mem_cons.1 hx with rfl | hx
          · exact .inl List.mem_cons_self
          · exact .inr hx

/-- A list of symbols that is refused has a first repetition, and this is named. -/
theorem Alphabet.exists_ofList_eq_error {symbols : List String} (h : ¬ symbols.Nodup) :
    ∃ front x back, symbols = front ++ x :: back ∧ front.Nodup ∧ x ∈ front ∧
      ofList symbols = .error (.duplicateSymbol x) := by
  cases hrepeat : firstRepeat? [] symbols with
  | none => exact absurd ((firstRepeat?_eq_none_iff [] symbols).1 hrepeat).1 h
  | some x =>
    obtain ⟨front, back, hsymbols, hnodup, -, hx⟩ := exists_of_firstRepeat?_eq_some hrepeat
    refine ⟨front, x, back, hsymbols, hnodup, hx.resolve_right List.not_mem_nil, ?_⟩
    unfold ofList
    split
    · next y hy => rw [Option.some.inj (hy.symm.trans hrepeat)]
    · next hnone => cases hnone.symm.trans hrepeat

/-- Steps fail with the first that fails. -/
theorem Except.mapM_append_cons_eq_error {α β ε : Type} {f : α → Except ε β} {front back : List α}
    {a : α} {e : ε} (hfront : ∀ b ∈ front, ∃ c, f b = .ok c) (ha : f a = .error e) :
    (front ++ a :: back).mapM f = .error e := by
  induction front with
  | nil =>
    rw [List.nil_append, List.mapM_cons, ha]
    rfl
  | cons b front ih =>
    obtain ⟨⟨c, hc⟩, hfront⟩ := List.forall_mem_cons.1 hfront
    rw [List.cons_append, List.mapM_cons, hc, ih hfront]
    rfl

/-- If some member fails a test, there is a first one. -/
theorem exists_first_not {α : Type} {P : α → Prop} {l : List α} (h : ∃ a ∈ l, ¬ P a) :
    ∃ front a back, l = front ++ a :: back ∧ (∀ b ∈ front, P b) ∧ ¬ P a := by
  classical
  obtain ⟨a, ha, hnot⟩ := h
  have hfind : (l.find? fun a => decide (¬ P a)).isSome = true :=
    List.find?_isSome.2 ⟨a, ha, decide_eq_true hnot⟩
  obtain ⟨b, hb⟩ := Option.isSome_iff_exists.1 hfind
  obtain ⟨hnot, front, back, rfl, hfront⟩ := List.find?_eq_some_iff_append.1 hb
  refine ⟨front, b, back, rfl, fun c hc => ?_, of_decide_eq_true hnot⟩
  simpa using hfront c hc

namespace Definition

open Listing

variable {config : Config} {d : Definition} {marker : String} {alphabet : Alphabet}
variable {t : Transition} {ts front back : List Transition} {l : Listing}

/-! ## Single transitions -/

/-- The transition is an epsilon move, or its symbol is listed. -/
def Known (marker : String) (symbols : List String) (t : Transition) : Prop :=
  t.symbol = marker ∨ t.symbol ∈ symbols

/-- The edge of a transition. The epsilon marker has no column. -/
def edgeOf (alphabet : Alphabet) (t : Transition) : Edge :=
  ⟨t.source, alphabet.idxOf? t.symbol, t.target⟩

theorem edge_eq_ok (hmarker : marker ∉ alphabet) (h : Known marker alphabet.symbols t) :
    edge marker alphabet t = .ok (edgeOf alphabet t) := by
  rw [edge, edgeOf]
  split
  · next hsymbol => rw [hsymbol, Alphabet.idxOf?_eq_none_iff.2 hmarker]
  · next hsymbol =>
    obtain ⟨column, hcolumn⟩ := Alphabet.exists_idxOf?_of_mem (h.resolve_left hsymbol)
    rw [hcolumn]

theorem edge_eq_error (h : ¬ Known marker alphabet.symbols t) :
    edge marker alphabet t = .error (.unknownSymbol t.symbol) := by
  obtain ⟨hmarker, hsymbol⟩ := not_or.1 h
  rw [edge, if_neg hmarker, Alphabet.idxOf?_eq_none_iff.2 hsymbol]

/-! ## Transition by transition -/

/-- Enters a transition (the transition loop of `into_nfa`). Its states are found or added before
    its symbol is looked up. -/
def enterTransition (marker : String) (n : Nfa) (t : Transition) : Except Error Nfa :=
  let (n, source) := n.stateNamed t.source
  let (n, target) := n.stateNamed t.target
  if t.symbol = marker then .ok (n.addEpsilon source target)
  else
    match n.alphabet.idxOf? t.symbol with
    | some column => .ok (n.addMove source column target)
    | none => .error (.unknownSymbol t.symbol)

/-- Enters an accepting state (the last loop of `into_nfa`). -/
def enterFinal (n : Nfa) (x : String) : Nfa :=
  let (n, s) := n.stateNamed x
  n.setAccepting s true

/-- The automaton that is made transition by transition (`into_nfa`). -/
def entered (config : Config) (d : Definition) : Except Error Nfa := do
  let alphabet ← Alphabet.ofList (d.alphabet.filter (· ≠ config.epsilon))
  let n ← d.transitions.foldlM (enterTransition config.epsilon) (.new alphabet d.initial)
  return d.finals.foldl enterFinal n

/-- A transition adds its two states and its edge. -/
theorem enterTransition_toNfa (hl : l.Closed) :
    enterTransition marker l.toNfa t =
      (edge marker l.alphabet t).map fun e => (l.append [t.source, t.target] [e] []).toNfa := by
  obtain ⟨source, hstate, hsource⟩ := hl.stateNamed_toNfa t.source
  have hclosed : (l.append [t.source] [] []).Closed :=
    hl.append (List.forall_mem_nil _) (List.forall_mem_nil _) (List.forall_mem_nil _)
  obtain ⟨target, hstate', htarget⟩ := hclosed.stateNamed_toNfa t.target
  have hedge : ∀ column, l.toNfa.HasColumn column →
      ((l.append [t.source] [] []).append [t.target] [] []).toNfa.addEdge source column target =
        (l.append [t.source, t.target] [⟨t.source, column, t.target⟩] []).toNfa := by
    intro column hcolumn
    rw [addEdge_toNfa (idOf?_append hsource) htarget hcolumn, append_append, append_append]
    rfl
  rw [enterTransition, hstate]
  dsimp only
  rw [hstate', edge]
  dsimp only
  split
  · exact congrArg Except.ok (hedge none nofun)
  · show (match l.alphabet.idxOf? t.symbol with | some _ => _ | none => _) = _
    cases hcolumn : l.alphabet.idxOf? t.symbol with
    | none => rfl
    | some column =>
      have hhas : l.toNfa.HasColumn (some column) := Nfa.hasColumn_some hcolumn
      exact congrArg Except.ok (hedge (some column) hhas)

/-- What some transitions say about the automaton of a listing. -/
def withTransitions (l : Listing) (ts : List Transition) : Listing :=
  l.append (ts.flatMap fun t => [t.source, t.target]) (ts.map (edgeOf l.alphabet)) []

theorem closed_withTransitions (hl : l.Closed) : (withTransitions l ts).Closed := by
  have hstates : ∀ e ∈ ts.map (edgeOf l.alphabet),
      e.source ∈ ts.flatMap (fun t => [t.source, t.target]) ∧
        e.target ∈ ts.flatMap (fun t => [t.source, t.target]) := by
    intro e he
    obtain ⟨t, ht, rfl⟩ := List.mem_map.1 he
    exact ⟨List.mem_flatMap.2 ⟨t, ht, List.mem_cons_self⟩,
      List.mem_flatMap.2 ⟨t, ht, List.mem_cons_of_mem _ List.mem_cons_self⟩⟩
  exact hl.append (fun e he => .inr (hstates e he).1) (fun e he => .inr (hstates e he).2)
    (List.forall_mem_nil _)

/-- Transitions that are not refused add their states and their edges. -/
theorem foldlM_enterTransition_eq_ok (hl : l.Closed) (hmarker : marker ∉ l.alphabet)
    (h : ∀ t ∈ ts, Known marker l.alphabet.symbols t) :
    ts.foldlM (enterTransition marker) l.toNfa = .ok (withTransitions l ts).toNfa := by
  induction ts generalizing l with
  | nil =>
    have hnil : withTransitions l [] = l := append_nil
    rw [hnil]
    rfl
  | cons t ts ih =>
    obtain ⟨ht, h⟩ := List.forall_mem_cons.1 h
    have hclosed : (withTransitions l [t]).Closed := closed_withTransitions hl
    have hrest := ih hclosed hmarker h
    have happend : withTransitions (withTransitions l [t]) ts = withTransitions l (t :: ts) :=
      append_append
    rw [List.foldlM_cons, enterTransition_toNfa hl, edge_eq_ok hmarker ht, ← happend]
    exact hrest

/-- The first transition that is refused ends the loop. -/
theorem foldlM_enterTransition_eq_error (hl : l.Closed) (hmarker : marker ∉ l.alphabet)
    (hfront : ∀ u ∈ front, Known marker l.alphabet.symbols u)
    (ht : ¬ Known marker l.alphabet.symbols t) :
    (front ++ t :: back).foldlM (enterTransition marker) l.toNfa =
      .error (.unknownSymbol t.symbol) := by
  have hrefused : enterTransition marker (withTransitions l front).toNfa t =
      .error (.unknownSymbol t.symbol) := by
    rw [enterTransition_toNfa (closed_withTransitions hl)]
    exact congrArg (Except.map _) (edge_eq_error ht)
  rw [List.foldlM_append, foldlM_enterTransition_eq_ok hl hmarker hfront]
  show (t :: back).foldlM (enterTransition marker) (withTransitions l front).toNfa = _
  rw [List.foldlM_cons, hrefused]
  rfl

/-- The accepting states are mentioned last. -/
theorem foldl_enterFinal_toNfa {finals : List String} (hl : l.Closed) :
    finals.foldl enterFinal l.toNfa = (l.append finals [] finals).toNfa := by
  induction finals generalizing l with
  | nil => rw [append_nil, List.foldl_nil]
  | cons x finals ih =>
    obtain ⟨s, hstate, hs⟩ := hl.stateNamed_toNfa x
    have haccepting : enterFinal l.toNfa x = (l.append [x] [] [x]).toNfa := by
      have hset : (l.append [x] [] []).toNfa.setAccepting s true =
          ((l.append [x] [] []).append [] [] [x]).toNfa := setAccepting_toNfa hs nofun
      rw [append_append] at hset
      rw [enterFinal, hstate]
      exact hset
    have hclosed : (l.append [x] [] [x]).Closed :=
      hl.append (List.forall_mem_nil _) (List.forall_mem_nil _) fun y hy => .inr hy
    rw [List.foldl_cons, haccepting, ih hclosed, append_append]
    rfl

/-! ## What is built -/

/-- The listing of a definition over its alphabet. -/
def listing (d : Definition) (alphabet : Alphabet) : Listing where
  alphabet := alphabet
  start := d.initial
  mentions := d.transitions.flatMap (fun t => [t.source, t.target]) ++ d.finals
  edges := d.transitions.map (edgeOf alphabet)
  accepting := d.finals

theorem closed_blank {start : String} : (Listing.mk alphabet start [] [] []).Closed :=
  ⟨List.forall_mem_nil _, List.forall_mem_nil _, List.forall_mem_nil _⟩

theorem marker_not_mem (halphabet : alphabet.symbols = d.alphabet.filter (· ≠ config.epsilon)) :
    config.epsilon ∉ alphabet := by
  rw [Alphabet.mem_def, halphabet]
  simp

section

variable (halphabet : Alphabet.ofList (d.alphabet.filter (· ≠ config.epsilon)) = .ok alphabet)
include halphabet

theorem toNfa_eq_ok (h : ∀ t ∈ d.transitions, Known config.epsilon alphabet.symbols t) :
    d.toNfa config = .ok (d.listing alphabet).toNfa := by
  have hmarker := marker_not_mem (Alphabet.ofList_eq_ok_iff.1 halphabet).2
  rw [toNfa, halphabet]
  show d.transitions.mapM (edge config.epsilon alphabet) >>= _ = _
  rw [mapM_eq_pure_map fun t ht => edge_eq_ok hmarker (h t ht)]
  rfl

theorem entered_eq_ok (h : ∀ t ∈ d.transitions, Known config.epsilon alphabet.symbols t) :
    d.entered config = .ok (d.listing alphabet).toNfa := by
  have hmarker := marker_not_mem (Alphabet.ofList_eq_ok_iff.1 halphabet).2
  rw [entered, halphabet]
  show d.transitions.foldlM (enterTransition config.epsilon) (.new alphabet d.initial) >>= _ = _
  rw [new_eq_toNfa, foldlM_enterTransition_eq_ok closed_blank hmarker h]
  refine congrArg Except.ok ?_
  rw [foldl_enterFinal_toNfa (closed_withTransitions closed_blank), withTransitions, append_append,
    List.append_nil]
  rfl

theorem toNfa_eq_error (hd : d.transitions = front ++ t :: back)
    (hfront : ∀ u ∈ front, Known config.epsilon alphabet.symbols u)
    (ht : ¬ Known config.epsilon alphabet.symbols t) :
    d.toNfa config = .error (.unknownSymbol t.symbol) := by
  have hmarker := marker_not_mem (Alphabet.ofList_eq_ok_iff.1 halphabet).2
  rw [toNfa, halphabet, hd]
  show (front ++ t :: back).mapM (edge config.epsilon alphabet) >>= _ = _
  rw [Except.mapM_append_cons_eq_error (fun u hu => ⟨_, edge_eq_ok hmarker (hfront u hu)⟩)
    (edge_eq_error ht)]
  rfl

theorem entered_eq_error (hd : d.transitions = front ++ t :: back)
    (hfront : ∀ u ∈ front, Known config.epsilon alphabet.symbols u)
    (ht : ¬ Known config.epsilon alphabet.symbols t) :
    d.entered config = .error (.unknownSymbol t.symbol) := by
  have hmarker := marker_not_mem (Alphabet.ofList_eq_ok_iff.1 halphabet).2
  rw [entered, halphabet, hd]
  show (front ++ t :: back).foldlM (enterTransition config.epsilon) (.new alphabet d.initial) >>=
    _ = _
  rw [new_eq_toNfa, foldlM_enterTransition_eq_error closed_blank hmarker hfront ht]
  rfl

end

/-- The automaton that is made transition by transition is that of the definition, and where there
    is none, the same is at fault. -/
theorem entered_eq_toNfa (config : Config) (d : Definition) :
    d.entered config = d.toNfa config := by
  cases halphabet : Alphabet.ofList (d.alphabet.filter (· ≠ config.epsilon)) with
  | error e => rw [entered, toNfa, halphabet]; rfl
  | ok alphabet =>
    by_cases h : ∀ t ∈ d.transitions, Known config.epsilon alphabet.symbols t
    · rw [entered_eq_ok halphabet h, toNfa_eq_ok halphabet h]
    · push Not at h
      obtain ⟨front, t, back, hd, hfront, ht⟩ := exists_first_not h
      rw [entered_eq_error halphabet hd hfront ht, toNfa_eq_error halphabet hd hfront ht]

/-- The definition describes the automaton. -/
structure Spells (config : Config) (d : Definition) (n : Nfa) : Prop where
  /-- The symbols are those that are listed, in their order, without the epsilon marker. -/
  symbols_eq : n.alphabet.symbols = d.alphabet.filter (· ≠ config.epsilon)
  /-- The states are the names that are mentioned, numbered by first mention: the initial state,
      then the two states of each transition, then the accepting states. -/
  names_eq : n.names.toList =
    (d.initial :: d.transitions.flatMap (fun t => [t.source, t.target]) ++ d.finals).eraseDups
  /-- The start state is the state that has the name of the initial state. -/
  start_eq : n.names.idOf? d.initial = some n.start
  /-- A state accepts if its name is among the accepting states. -/
  accepting_iff : ∀ p, p ∈ n.accepting ↔ p < n.size ∧ n.name p ∈ d.finals
  /-- A state has a move on a symbol if the transition is listed. -/
  targets_iff : ∀ p c q, q ∈ n.targets p c ↔ p < n.size ∧ q < n.size ∧
    ∃ symbol, n.alphabet.get? c = some symbol ∧ ⟨n.name p, symbol, n.name q⟩ ∈ d.transitions
  /-- A state has an epsilon move if the transition on the marker is listed. -/
  epsilon_iff : ∀ p q, q ∈ n.epsilonTargets p ↔ p < n.size ∧ q < n.size ∧
    ⟨n.name p, config.epsilon, n.name q⟩ ∈ d.transitions

/-- The edges of a definition are its transitions. -/
theorem mem_edges_iff {p q : String} {column : Option Nat} :
    ⟨p, column, q⟩ ∈ (d.listing alphabet).edges ↔
      ∃ symbol, alphabet.idxOf? symbol = column ∧ ⟨p, symbol, q⟩ ∈ d.transitions := by
  rw [listing, List.mem_map]
  constructor
  · rintro ⟨⟨_, symbol, _⟩, ht, ⟨⟩⟩
    exact ⟨symbol, rfl, ht⟩
  · rintro ⟨symbol, rfl, ht⟩
    exact ⟨_, ht, rfl⟩

theorem spells_toNfa (halphabet : alphabet.symbols = d.alphabet.filter (· ≠ config.epsilon))
    (h : ∀ t ∈ d.transitions, Known config.epsilon alphabet.symbols t) :
    d.Spells config (d.listing alphabet).toNfa := by
  refine ⟨halphabet, StateNames.toList_ofMentions _, StateNames.idOf?_ofMentions_cons _ _,
    fun p => mem_accepting_iff, fun p c q => ?_, fun p q => ?_⟩
  · refine mem_targets_iff.trans (and_congr_right fun _ => and_congr_right fun _ => ?_)
    rw [mem_edges_iff]
    constructor
    · rintro ⟨-, symbol, hsymbol, ht⟩
      exact ⟨symbol, Alphabet.get?_eq_some_iff.2 hsymbol, ht⟩
    · rintro ⟨symbol, hsymbol, ht⟩
      have hidx := Alphabet.get?_eq_some_iff.1 hsymbol
      exact ⟨Alphabet.lt_size_of_idxOf? hidx, symbol, hidx, ht⟩
  · refine mem_epsilonTargets_iff.trans (and_congr_right fun _ => and_congr_right fun _ => ?_)
    rw [mem_edges_iff]
    constructor
    · rintro ⟨symbol, hsymbol, ht⟩
      -- a transition without a column is not refused, so its symbol is the marker
      obtain rfl := (h _ ht).resolve_right (Alphabet.idxOf?_eq_none_iff.1 hsymbol)
      exact ht
    · intro ht
      exact ⟨_, Alphabet.idxOf?_eq_none_iff.2 (marker_not_mem halphabet), ht⟩

/-- A definition is built under given settings. Of the symbols that are listed, the epsilon marker
    is left out. If a symbol is listed twice, the first repetition is named. If not, and some
    transition is on a symbol that is neither the marker nor listed, the first such transition is
    refused. Otherwise there is an automaton, and it is the one that the definition describes. It
    makes no difference if the automaton is made transition by transition. -/
theorem build_spelled_out (config : Config) (d : Definition) :
    let symbols := d.alphabet.filter (· ≠ config.epsilon)
    let built := (Builder.ofCalls [.configure config, .source (.definition d)]).build
    (¬ symbols.Nodup → ∃ front x back, symbols = front ++ x :: back ∧ front.Nodup ∧ x ∈ front ∧
      built = .error (.automaton (.duplicateSymbol x))) ∧
    (symbols.Nodup → (∃ t ∈ d.transitions, ¬ Known config.epsilon symbols t) →
      ∃ front t back, d.transitions = front ++ t :: back ∧
        (∀ u ∈ front, Known config.epsilon symbols u) ∧ ¬ Known config.epsilon symbols t ∧
        built = .error (.automaton (.unknownSymbol t.symbol))) ∧
    (symbols.Nodup → (∀ t ∈ d.transitions, Known config.epsilon symbols t) →
      ∃ n, built = .ok n ∧ d.Spells config n) ∧
    built = (d.entered config).mapError .automaton := by
  intro symbols built
  have hbuilt : built = (d.toNfa config).mapError .automaton := rfl
  rw [hbuilt]
  have halphabet : ∀ hnodup : symbols.Nodup, Alphabet.ofList symbols = .ok ⟨symbols, hnodup⟩ :=
    fun hnodup => Alphabet.ofList_eq_ok_iff.2 ⟨hnodup, rfl⟩
  refine ⟨fun hrepeat => ?_, fun hnodup hunknown => ?_, fun hnodup hknown => ?_, ?_⟩
  · obtain ⟨front, x, back, hsymbols, hnodup, hx, herror⟩ := Alphabet.exists_ofList_eq_error hrepeat
    refine ⟨front, x, back, hsymbols, hnodup, hx, ?_⟩
    rw [toNfa, herror]
    rfl
  · obtain ⟨front, t, back, hd, hfront, ht⟩ := exists_first_not hunknown
    refine ⟨front, t, back, hd, hfront, ht, ?_⟩
    rw [toNfa_eq_error (halphabet hnodup) hd hfront ht]
    rfl
  · have hspells : d.Spells config (d.listing ⟨symbols, hnodup⟩).toNfa := spells_toNfa rfl hknown
    refine ⟨_, ?_, hspells⟩
    rw [toNfa_eq_ok (halphabet hnodup) hknown]
    rfl
  · rw [entered_eq_toNfa]

/-- A definition in which the marker is listed twice and a state is mentioned by a transition before
    it accepts; the same with a transition on a symbol that is not listed; and one with two symbols
    that are listed twice. -/
theorem build_spelled_out_marker :
    let d : Definition := ⟨["e", "a", "e"], "p", ["r", "p"], [⟨"q", "a", "p"⟩, ⟨"p", "e", "q"⟩]⟩
    let built := fun d => (Builder.ofCalls [.configure {}, .source (.definition d)]).build
    (∃ n, built d = .ok n ∧ d.Spells {} n) ∧
      (∃ x, built { d with transitions := ⟨"p", "c", "s"⟩ :: d.transitions } =
        .error (.automaton (.unknownSymbol x))) ∧
      ∃ x, built { d with alphabet := ["a", "b", "e", "b", "a"] } =
        .error (.automaton (.duplicateSymbol x)) := by
  intro d built
  obtain ⟨-, -, hbuilt, -⟩ := build_spelled_out {} d
  obtain ⟨-, hunknown, -, -⟩ :=
    build_spelled_out {} { d with transitions := ⟨"p", "c", "s"⟩ :: d.transitions }
  obtain ⟨hrepeated, -⟩ := build_spelled_out {} { d with alphabet := ["a", "b", "e", "b", "a"] }
  have hknown : ∀ t ∈ d.transitions, Known "e" ["a"] t :=
    List.forall_mem_cons.2 ⟨.inr (by decide), List.forall_mem_singleton.2 (.inl rfl)⟩
  have hnot : ¬ Known "e" ["a"] ⟨"p", "c", "s"⟩ := not_or.2 ⟨by decide, by decide⟩
  obtain ⟨-, t, -, -, -, -, ht⟩ := hunknown (by decide) ⟨_, List.mem_cons_self, hnot⟩
  obtain ⟨-, x, -, -, -, -, hx⟩ := hrepeated (by decide)
  exact ⟨hbuilt (by decide) hknown, ⟨_, ht⟩, ⟨x, hx⟩⟩

end Definition

end Acceptors
