import Mathlib.Logic.Equiv.Defs
import Acceptors.Listing
import Acceptors.Proofs.Nfa.Shape

/-!
# Automata that are listed by name

The automaton of a listing has the names that are mentioned as states and moves where the listing
has edges between them. A listing that describes an automaton name by name gives it back, though its
states may be numbered in another order.

Results:
* `Listing.mem_targets_toNfa`, `Listing.mem_epsilonTargets_toNfa`, `Listing.mem_accepting_toNfa`:
  the tables of the automaton.
* `Listing.mem_targets_iff`, `Listing.mem_epsilonTargets_iff`, `Listing.mem_accepting_iff`: the same
  for all numbers, whether they are states or not.
* `Listing.wellFormed_toNfa`: the automaton is well-formed, whatever is listed.
* `Nfa.MatchedByName`: automata that are the same up to the order of their states.
* `Nfa.MatchedByName.accepts_eq`: they accept the same words.
* `Listing.Describes.exists_matchedByName`: a listing that describes an automaton gives it back.
-/

namespace Acceptors

namespace Listing

variable {l : Listing} {s t c : Nat} {x : String}

/-! ## The automaton of a listing -/

/-- The moves on a column, or the epsilon moves, are the edges between two names. -/
theorem mem_ofList_edges {names : StateNames} {edges : List Edge} {column : Option Nat}
    (hs : s < names.size) (ht : t < names.size) :
    t ∈ StateSet.ofList ((edges.filterMap fun e =>
        match names.idOf? e.source, names.idOf? e.target with
        | some s, some t => some (s, e.column, t)
        | _, _ => none).filterMap fun (source, on, target) =>
          if source = s ∧ on = column then some target else none) ↔
      ⟨names.name s, column, names.name t⟩ ∈ edges := by
  simp only [StateSet.mem_ofList, List.mem_filterMap]
  constructor
  · rintro ⟨⟨source, on, target⟩, ⟨e, he, hnumbers⟩, hmove⟩
    obtain ⟨⟨rfl, rfl⟩, ⟨⟩⟩ := Option.ite_none_right_eq_some.1 hmove
    split at hnumbers
    · next hsource htarget =>
      cases hnumbers
      rw [StateNames.name_of_idOf? hsource, StateNames.name_of_idOf? htarget]
      exact he
    · cases hnumbers
  · intro he
    refine ⟨(s, column, t), ⟨_, he, ?_⟩, ?_⟩
    · simp only [StateNames.idOf?_name hs, StateNames.idOf?_name ht]
    · exact if_pos ⟨rfl, rfl⟩

theorem mem_targets_toNfa (hs : s < l.names.size) (ht : t < l.names.size) :
    t ∈ l.toNfa.targets s c ↔
      c < l.alphabet.size ∧ ⟨l.names.name s, some c, l.names.name t⟩ ∈ l.edges := by
  rw [toNfa, Nfa.targets_ofFn]
  by_cases hc : c < l.alphabet.size
  · rw [if_pos ⟨hs, hc⟩, and_iff_right hc]
    exact mem_ofList_edges hs ht
  · rw [if_neg fun h => hc h.2]
    exact iff_of_false (StateSet.not_mem_empty t) fun h => hc h.1

theorem mem_epsilonTargets_toNfa (hs : s < l.names.size) (ht : t < l.names.size) :
    t ∈ l.toNfa.epsilonTargets s ↔ ⟨l.names.name s, none, l.names.name t⟩ ∈ l.edges := by
  rw [toNfa, Nfa.epsilonTargets_ofFn, if_pos hs]
  exact mem_ofList_edges hs ht

theorem mem_accepting_toNfa (hs : s < l.names.size) :
    s ∈ l.toNfa.accepting ↔ l.names.name s ∈ l.accepting := by
  show s ∈ StateSet.ofList (l.accepting.filterMap l.names.idOf?) ↔ _
  rw [StateSet.mem_ofList, List.mem_filterMap]
  constructor
  · rintro ⟨x, hx, hs⟩
    rwa [StateNames.name_of_idOf? hs]
  · exact fun h => ⟨_, h, StateNames.idOf?_name hs⟩

theorem name_start_toNfa : l.names.name 0 = l.start :=
  StateNames.name_of_idOf? (StateNames.idOf?_ofMentions_cons l.start l.mentions)

/-- Only states that are mentioned are entered or accept. -/
theorem wellFormed_toNfa (l : Listing) : l.toNfa.WellFormed := by
  have htargets : ∀ (s : Nat) (on : Option Nat), ∀ t ∈ StateSet.ofList ((l.edges.filterMap fun e =>
      match l.names.idOf? e.source, l.names.idOf? e.target with
      | some s, some t => some (s, e.column, t)
      | _, _ => none).filterMap fun (source, column, target) =>
        if source = s ∧ column = on then some target else none), t < l.names.size := by
    intro s on t ht
    simp only [StateSet.mem_ofList, List.mem_filterMap] at ht
    obtain ⟨⟨source, column, target⟩, ⟨e, -, hnumbers⟩, hmove⟩ := ht
    obtain ⟨-, ⟨⟩⟩ := Option.ite_none_right_eq_some.1 hmove
    split at hnumbers
    · next htarget =>
      cases hnumbers
      exact StateNames.lt_size_of_idOf? htarget
    · cases hnumbers
  refine Nfa.wellFormed_ofFn ?_ (fun s hs => ?_) (fun s c => htargets s (some c))
    fun s => htargets s none
  · exact StateNames.lt_size_of_idOf? (StateNames.idOf?_ofMentions_cons l.start l.mentions)
  · obtain ⟨x, -, hx⟩ := List.mem_filterMap.1 (StateSet.mem_ofList.1 hs)
    exact StateNames.lt_size_of_idOf? hx

/-- A state is entered on a symbol if both states exist and there is an edge between their names. -/
theorem mem_targets_iff :
    t ∈ l.toNfa.targets s c ↔ s < l.toNfa.size ∧ t < l.toNfa.size ∧ c < l.alphabet.size ∧
      ⟨l.toNfa.name s, some c, l.toNfa.name t⟩ ∈ l.edges := by
  have hn := wellFormed_toNfa l
  constructor
  · intro ht
    have hs := (hn.lt_of_mem_targets ht).1
    have hlt := hn.targets_lt s c t ht
    exact ⟨hs, hlt, (mem_targets_toNfa hs hlt).1 ht⟩
  · rintro ⟨hs, ht, hmem⟩
    exact (mem_targets_toNfa hs ht).2 hmem

theorem mem_epsilonTargets_iff :
    t ∈ l.toNfa.epsilonTargets s ↔ s < l.toNfa.size ∧ t < l.toNfa.size ∧
      ⟨l.toNfa.name s, none, l.toNfa.name t⟩ ∈ l.edges := by
  have hn := wellFormed_toNfa l
  constructor
  · intro ht
    have hs := hn.lt_of_mem_epsilonTargets ht
    have hlt := hn.epsilonTargets_lt s t ht
    exact ⟨hs, hlt, (mem_epsilonTargets_toNfa hs hlt).1 ht⟩
  · rintro ⟨hs, ht, hmem⟩
    exact (mem_epsilonTargets_toNfa hs ht).2 hmem

theorem mem_accepting_iff :
    s ∈ l.toNfa.accepting ↔ s < l.toNfa.size ∧ l.toNfa.name s ∈ l.accepting := by
  have hn := wellFormed_toNfa l
  constructor
  · intro h
    have hs := hn.accepting_lt s h
    exact ⟨hs, (mem_accepting_toNfa hs).1 h⟩
  · rintro ⟨hs, hmem⟩
    exact (mem_accepting_toNfa hs).2 hmem

/-- A loop of an accepting start state. -/
theorem accepts_of_loop (hc : l.alphabet.idxOf? x = some c)
    (hloop : ⟨l.start, some c, l.start⟩ ∈ l.edges) (haccepting : l.start ∈ l.accepting) :
    l.toNfa.accepts [x] = true := by
  have hn := wellFormed_toNfa l
  have hlt : 0 < l.names.size := hn.start_lt
  have htarget : 0 ∈ l.toNfa.targets 0 c := by
    rw [mem_targets_toNfa hlt hlt, name_start_toNfa]
    exact ⟨Alphabet.lt_size_of_idxOf? hc, hloop⟩
  rw [hn.accepts_iff]
  refine Nfa.RecognizesFrom.cons ⟨c, hc, htarget⟩ (.nil ?_)
  rwa [mem_accepting_toNfa hlt, name_start_toNfa]

end Listing

/-! ## States that are matched by name -/

/-- Two tables with the same names number them in one order or another. -/
theorem StateNames.exists_equiv {a b : StateNames} (h : ∀ x, x ∈ a.toList ↔ x ∈ b.toList) :
    ∃ f : Fin a.size ≃ Fin b.size, ∀ s, b.name (f s) = a.name s := by
  have hfind : ∀ {a b : StateNames}, (∀ x ∈ a.toList, x ∈ b.toList) → ∀ s : Fin a.size,
      ∃ t : Fin b.size, b.idOf? (a.name s) = some t := by
    intro a b hsub s
    obtain ⟨t, ht⟩ := mem_toList_iff.1
      (hsub _ (mem_toList_iff.2 ⟨s.val, idOf?_name s.isLt⟩))
    exact ⟨⟨t, lt_size_of_idOf? ht⟩, ht⟩
  choose f hf using hfind fun x => (h x).1
  choose g hg using hfind fun x => (h x).2
  have hback : ∀ s, g (f s) = s := fun s => by
    have hgf := hg (f s)
    rw [name_of_idOf? (hf s), idOf?_name s.isLt] at hgf
    exact (Fin.ext (Option.some.inj hgf)).symm
  have hforth : ∀ t, f (g t) = t := fun t => by
    have hfg := hf (g t)
    rw [name_of_idOf? (hg t), idOf?_name t.isLt] at hfg
    exact (Fin.ext (Option.some.inj hfg)).symm
  exact ⟨⟨f, g, hback, hforth⟩, fun s => name_of_idOf? (hf s)⟩

/-- The automata have the same symbols in the same columns, and `f` takes each state of `a` to the
    state of `b` that has its name and is otherwise like it. -/
structure Nfa.MatchedByName (a b : Nfa) (f : Fin a.size ≃ Fin b.size) : Prop where
  alphabet_eq : a.alphabet = b.alphabet
  name_eq : ∀ s : Fin a.size, b.name (f s) = a.name s
  start_iff : ∀ s : Fin a.size, s.val = a.start ↔ (f s).val = b.start
  accepting_iff : ∀ s : Fin a.size, s.val ∈ a.accepting ↔ (f s).val ∈ b.accepting
  targets_iff : ∀ (s t : Fin a.size) (c : Nat),
    t.val ∈ a.targets s c ↔ (f t).val ∈ b.targets (f s) c
  epsilonTargets_iff : ∀ s t : Fin a.size,
    t.val ∈ a.epsilonTargets s ↔ (f t).val ∈ b.epsilonTargets (f s)

namespace Nfa.MatchedByName

variable {a b : Nfa} {f : Fin a.size ≃ Fin b.size} {w : List String}

theorem symm (h : a.MatchedByName b f) : b.MatchedByName a f.symm where
  alphabet_eq := h.alphabet_eq.symm
  name_eq s := by simpa using (h.name_eq (f.symm s)).symm
  start_iff s := by simpa using (h.start_iff (f.symm s)).symm
  accepting_iff s := by simpa using (h.accepting_iff (f.symm s)).symm
  targets_iff s t c := by simpa using (h.targets_iff (f.symm s) (f.symm t) c).symm
  epsilonTargets_iff s t := by simpa using (h.epsilonTargets_iff (f.symm s) (f.symm t)).symm

/-- A state has the words of the state that it is matched with. -/
theorem recognizesFrom (h : a.MatchedByName b f) (ha : a.WellFormed) {s : Nat}
    (hrecognizes : a.RecognizesFrom s w) : ∀ hs : s < a.size, b.RecognizesFrom (f ⟨s, hs⟩) w := by
  refine hrecognizes.induct (P := fun s w => ∀ hs : s < a.size, b.RecognizesFrom (f ⟨s, hs⟩) w)
    (fun s hacc hs => .nil ((h.accepting_iff ⟨s, hs⟩).1 hacc)) (fun s t w ht ih hs => ?_)
    fun s x t w ⟨c, hc, ht⟩ ih hs => ?_
  · have htlt := ha.epsilonTargets_lt s t ht
    exact (ih htlt).epsilon ((h.epsilonTargets_iff ⟨s, hs⟩ ⟨t, htlt⟩).1 ht)
  · have htlt := ha.targets_lt s c t ht
    exact (ih htlt).cons ⟨c, h.alphabet_eq ▸ hc, (h.targets_iff ⟨s, hs⟩ ⟨t, htlt⟩ c).1 ht⟩

/-- Automata that are the same up to the order of their states accept the same words. -/
theorem accepts_eq (h : a.MatchedByName b f) (ha : a.WellFormed) (hb : b.WellFormed) :
    a.accepts w = b.accepts w := by
  rw [Bool.eq_iff_iff, ha.accepts_iff, hb.accepts_iff, mem_language, mem_language]
  have hstart : (f ⟨a.start, ha.start_lt⟩).val = b.start := (h.start_iff ⟨_, ha.start_lt⟩).1 rfl
  have hstart' : (f.symm ⟨b.start, hb.start_lt⟩).val = a.start :=
    (h.symm.start_iff ⟨_, hb.start_lt⟩).1 rfl
  constructor
  · exact fun hw => hstart ▸ h.recognizesFrom ha hw ha.start_lt
  · exact fun hw => hstart' ▸ h.symm.recognizesFrom hb hw hb.start_lt

end Nfa.MatchedByName

namespace Listing

variable {l : Listing} {n : Nfa}

/-- The listing describes the automaton: it mentions its states, and it has its moves and its
    accepting states between their names. -/
structure Describes (l : Listing) (n : Nfa) : Prop where
  alphabet_eq : l.alphabet = n.alphabet
  start_eq : l.start = n.name n.start
  mem_iff : ∀ x, x ∈ l.start :: l.mentions ↔ x ∈ n.names.toList
  accepting_iff : ∀ s < n.size, n.name s ∈ l.accepting ↔ s ∈ n.accepting
  edge_iff : ∀ s < n.size, ∀ t < n.size, ∀ c,
    ⟨n.name s, some c, n.name t⟩ ∈ l.edges ↔ t ∈ n.targets s c
  epsilon_iff : ∀ s < n.size, ∀ t < n.size,
    ⟨n.name s, none, n.name t⟩ ∈ l.edges ↔ t ∈ n.epsilonTargets s

/-- A listing that describes an automaton gives it back. -/
theorem Describes.exists_matchedByName (h : l.Describes n) (hn : n.WellFormed) :
    ∃ f, l.toNfa.MatchedByName n f := by
  obtain ⟨f, hf⟩ : ∃ f : Fin l.toNfa.size ≃ Fin n.size, ∀ s, n.name (f s) = l.names.name s :=
    StateNames.exists_equiv fun x => StateNames.mem_ofMentions.trans (h.mem_iff x)
  have hlt : ∀ s : Fin l.toNfa.size, s.val < l.names.size := fun s => s.isLt
  -- The tables of both automata are read by name, and `f` keeps names.
  refine ⟨f, h.alphabet_eq, hf, fun s => ?_, fun s => ?_, fun s t c => ?_, fun s t => ?_⟩
  · have hzero : 0 < l.names.size :=
      StateNames.lt_size_of_idOf? (StateNames.idOf?_ofMentions_cons l.start l.mentions)
    calc s.val = 0 ↔ l.names.name s = l.names.name 0 := (StateNames.name_inj (hlt s) hzero).symm
      _ ↔ n.name (f s) = n.name n.start := by rw [hf, name_start_toNfa, h.start_eq]
      _ ↔ (f s).val = n.start := StateNames.name_inj (f s).isLt hn.start_lt
  · rw [mem_accepting_toNfa (hlt s), ← hf]
    exact h.accepting_iff _ (f s).isLt
  · rw [mem_targets_toNfa (hlt s) (hlt t), ← hf, ← hf, h.edge_iff _ (f s).isLt _ (f t).isLt,
      h.alphabet_eq, and_iff_right_iff_imp]
    exact fun ht => (hn.lt_of_mem_targets ht).2
  · rw [mem_epsilonTargets_toNfa (hlt s) (hlt t), ← hf, ← hf]
    exact h.epsilon_iff _ (f s).isLt _ (f t).isLt

end Listing

end Acceptors
