import Acceptors.Proofs.Dfa.Copied
import Acceptors.Proofs.Dfa.Determinized
import Acceptors.Proofs.Dfa.Restricted
import Acceptors.Proofs.Minimal.Canonical

/-!
# Subset construction on deterministic automata

From a deterministic automaton every word leads to a set of one state, the state of the run on that
word, or to the empty set where the run has no state. So the sets that are found are the states that
words lead to, one set for each. The automaton read off without subset construction has further
states if some are not reached, and its own numbers and names. Restricted to the states that are
reached, it is the same automaton up to the numbers.

Results:
* `Dfa.Lists`, `Dfa.Lists.exists_renumbers`: an automaton made of the states that words lead to.
* `Nfa.WellFormed.setAfter_eq`: the set to which a word leads.
* `Nfa.toDfa_agrees`: both ways to a deterministic automaton agree.
-/

namespace Acceptors

namespace Dfa

variable {d d' e : Dfa} {old old' : List Nat} {i j s t c : Nat} {a : String} {w : List String}

/-! ## Automata made of the states that words lead to -/

/-- The states of `d` are the states of `e` that words lead to, in the order of the list. -/
structure Lists (d e : Dfa) (old : List Nat) : Prop where
  length_eq : old.length = d.size
  nodup : old.Nodup
  mem_iff : ∀ s, s ∈ old ↔ ∃ w, e.run e.start w = some s
  start : old[d.start]? = some e.start
  accepting_eq : ∀ i s, old[i]? = some s → d.isAccepting i = e.isAccepting s
  next_iff : ∀ i s, old[i]? = some s → ∀ a j,
    d.next i a = some j ↔ ∃ t, old[j]? = some t ∧ e.next s a = some t

theorem Lists.next_iff_of_getElem? (h : d.Lists e old) (hi : old[i]? = some s)
    (hj : old[j]? = some t) : d.next i a = some j ↔ e.next s a = some t := by
  rw [h.next_iff i s hi]
  constructor
  · rintro ⟨u, hu, hnext⟩
    rwa [Option.some.inj (hj.symm.trans hu)]
  · exact fun hnext => ⟨t, hj, hnext⟩

/-- A move is undefined where the state has none, because a state that a move leads to is listed. -/
theorem Lists.next_eq_none_iff (h : d.Lists e old) (hi : old[i]? = some s) :
    d.next i a = none ↔ e.next s a = none := by
  constructor
  · intro hnone
    by_contra hsome
    obtain ⟨t, ht⟩ := Option.ne_none_iff_exists'.1 hsome
    obtain ⟨w, hw⟩ := (h.mem_iff s).1 (List.mem_of_getElem? hi)
    have hrun : e.run e.start (w ++ [a]) = some t := by
      rw [run_append, hw, Option.bind_some, run_cons, ht]
      rfl
    obtain ⟨j, hj⟩ := List.mem_iff_getElem?.1 ((h.mem_iff t).2 ⟨_, hrun⟩)
    cases hnone.symm.trans ((h.next_iff_of_getElem? hi hj).2 ht)
  · intro hnone
    by_contra hsome
    obtain ⟨j, hj⟩ := Option.ne_none_iff_exists'.1 hsome
    obtain ⟨t, -, ht⟩ := (h.next_iff i s hi a j).1 hj
    cases hnone.symm.trans ht

/-- Two automata made of the states that words lead to differ in the numbers alone: the states
    correspond that are the same old state. -/
theorem Lists.exists_renumbers (h : d.Lists e old) (h' : d'.Lists e old') :
    ∃ f, d.Renumbers d' f := by
  have hmem : ∀ s, s ∈ old ↔ s ∈ old' := fun s => (h.mem_iff s).trans (h'.mem_iff s).symm
  let f : Fin d.size ≃ Fin d'.size :=
    (finCongr h.length_eq.symm).trans <| (h.nodup.getEquiv old).trans <|
      (Equiv.subtypeEquivRight hmem).trans <|
        (h'.nodup.getEquiv old').symm.trans (finCongr h'.length_eq)
  have hold : ∀ i : Fin d.size, ∃ s, old[i.val]? = some s ∧ old'[(f i).val]? = some s := by
    intro i
    have hi : i.val < old.length := by rw [h.length_eq]; exact i.isLt
    have hi' : (f i).val < old'.length := by rw [h'.length_eq]; exact (f i).isLt
    refine ⟨old[i.val], List.getElem?_eq_getElem hi, ?_⟩
    have hback := (h'.nodup.getEquiv old').apply_symm_apply
      ⟨old[i.val], (hmem _).1 (List.getElem_mem hi)⟩
    exact List.getElem?_eq_some_iff.2 ⟨hi', congrArg Subtype.val hback⟩
  refine ⟨f, fun i => ?_, fun i => ?_, fun i j a => ?_, fun i a => ?_⟩
  · obtain ⟨s, hs, hs'⟩ := hold i
    constructor
    · intro hi
      rw [hi, h.start] at hs
      exact eq_of_getElem?_eq_some h'.nodup hs' (h'.start.trans hs)
    · intro hi
      rw [hi, h'.start] at hs'
      exact eq_of_getElem?_eq_some h.nodup hs (h.start.trans hs')
  · obtain ⟨s, hs, hs'⟩ := hold i
    rw [h.accepting_eq i s hs, h'.accepting_eq (f i) s hs']
  · obtain ⟨s, hs, hs'⟩ := hold i
    obtain ⟨t, ht, ht'⟩ := hold j
    rw [h.next_iff_of_getElem? hs ht, h'.next_iff_of_getElem? hs' ht']
  · obtain ⟨s, hs, hs'⟩ := hold i
    rw [h.next_eq_none_iff hs, h'.next_eq_none_iff hs']

/-- The states that are kept by a restriction to the reachable ones. -/
theorem WellFormed.lists_restrict_reachable (he : e.WellFormed) :
    (e.restrict e.reachable).Lists e (e.kept e.reachable) where
  length_eq := size_restrict.symm
  nodup := nodup_kept
  mem_iff s := by
    rw [mem_kept_iff, he.mem_reachable_iff]
    exact and_iff_right_of_imp fun ⟨w, hw⟩ => he.run_lt he.start_lt hw
  start := he.getElem?_kept_start (he.mem_reachable_iff.2 ⟨[], rfl⟩)
  accepting_eq _ _ hi := isAccepting_restrict hi
  next_iff _ _ hi _ _ := next_restrict_eq_some_iff hi

/-- With the same columns, what holds of the moves on a symbol holds column by column. -/
theorem Renumbers.move_iff {f : Fin d.size ≃ Fin d'.size} (h : d.Renumbers d' f)
    (halphabet : d.alphabet = d'.alphabet) (hc : c < d.alphabet.size) (s t : Fin d.size) :
    (d.move s c = some t.val ↔ d'.move (f s) c = some (f t).val) ∧
      (d.move s c = none ↔ d'.move (f s) c = none) := by
  obtain ⟨a, ha⟩ := Alphabet.exists_idxOf?_eq_some hc
  have hdefined := h.defined s t a
  have hundefined := h.undefined s a
  rw [next, next, ← halphabet, ha] at hdefined hundefined
  exact ⟨hdefined, hundefined⟩

end Dfa

/-! ## Sets of one state -/

namespace StateSet

variable {states : List Nat} {o : Option Nat} {i s t : Nat}

theorem single_inj : single s = single t ↔ s = t :=
  ⟨fun h => mem_single.1 (h ▸ mem_single.2 rfl), congrArg single⟩

theorem elim_single_eq_single_iff : o.elim ∅ single = single s ↔ o = some s := by
  cases o with
  | none =>
    constructor
    · intro h
      have hs : s ∈ (∅ : StateSet) := by
        rw [show (∅ : StateSet) = single s from h]
        exact mem_single.2 rfl
      exact absurd hs (not_mem_empty s)
    · intro h
      cases h
  | some t => rw [Option.elim_some, single_inj, Option.some.injEq]

theorem exists_eq_single_of_elim (h : (o.elim ∅ single).isEmpty = false) :
    ∃ s, o.elim ∅ single = single s := by
  cases o with
  | none => cases h
  | some s => exact ⟨s, rfl⟩

theorem getElem?_map_single_iff :
    (states.map single)[i]? = some (o.elim ∅ single) ↔ ∃ s, states[i]? = some s ∧ o = some s := by
  rw [List.getElem?_map, Option.map_eq_some_iff]
  simp only [eq_comm (a := single _), elim_single_eq_single_iff]

end StateSet

namespace Nfa

variable {n : Nfa} {e : Dfa} {old : List Nat} {s : Nat} {a : String} {w : List String}

theorem WellFormed.nextSet_single (hn : n.WellFormed) (h : n.toDfa? = .ok e) :
    n.nextSet (.single s) a = (e.next s a).elim ∅ .single := by
  refine StateSet.ext fun t => ?_
  rw [mem_nextSet]
  simp only [StateSet.mem_single, exists_eq_left, hn.moves_iff_of_toDfa? h]
  cases e.next s a with
  | none => simp [StateSet.not_mem_empty]
  | some u => simp [StateSet.mem_single, eq_comm]

/-- A word leads to the set of the state of its run, or to the empty set. -/
theorem WellFormed.setAfter_eq (hn : n.WellFormed) (h : n.toDfa? = .ok e) :
    n.setAfter w = (e.run e.start w).elim ∅ .single := by
  induction w using List.reverseRecOn with
  | nil =>
    obtain ⟨-, rfl⟩ := eq_of_toDfa? h
    rfl
  | append_singleton w a ih =>
    rw [setAfter_concat, ih, Dfa.run_append]
    cases e.run e.start w with
    | none =>
      refine StateSet.ext fun t => iff_of_false (fun ht => ?_) (StateSet.not_mem_empty t)
      obtain ⟨s, hs, -⟩ := mem_nextSet.1 ht
      exact StateSet.not_mem_empty s hs
    | some s =>
      rw [Option.elim_some, hn.nextSet_single h, Option.bind_some, Dfa.run_cons]
      cases e.next s a <;> rfl

/-! ## The two ways to a deterministic automaton -/

theorem epsilonFree_eq_self_of_isDeterministic (h : n.isDeterministic = true) :
    n.epsilonFree = n := by
  rw [isDeterministic, Bool.and_eq_true, Bool.not_eq_true'] at h
  rw [epsilonFree, h.1]
  rfl

/-- All sets that are found are sets of one state. -/
theorem WellFormed.exists_map_single_eq_subsets (hn : n.WellFormed) (h : n.toDfa? = .ok e) :
    ∃ old : List Nat, old.map .single = n.subsets.toList := by
  have hrange : n.subsets.toList ∈ Set.range (List.map StateSet.single) := by
    rw [Set.range_list_map]
    intro X hX
    obtain ⟨hempty, w, rfl⟩ := hn.mem_subsets_iff.1 hX
    rw [hn.setAfter_eq h] at hempty ⊢
    obtain ⟨s, hs⟩ := StateSet.exists_eq_single_of_elim hempty
    exact ⟨s, hs.symm⟩
  exact hrange

/-- The states of the subset construction are the states that words lead to. -/
theorem WellFormed.exists_lists_determinize (hn : n.WellFormed) (h : n.toDfa? = .ok e)
    (config : Config) : ∃ old, (n.determinize config).Lists e old := by
  obtain ⟨old, hold⟩ := hn.exists_map_single_eq_subsets h
  have hsets := hn.isSubsetConstruction_determinize config
  rw [epsilonFree_eq_self_of_isDeterministic (hn.exists_toDfa?_iff.1 ⟨e, h⟩), ← hold] at hsets
  have hget : ∀ {i s : Nat}, old[i]? = some s →
      (old.map StateSet.single)[i]? = some (StateSet.single s) := by
    intro i s hi
    rw [List.getElem?_map, hi]
    rfl
  have hparts : e.start = n.start ∧ e.accepting = n.accepting := by
    obtain ⟨-, rfl⟩ := eq_of_toDfa? h
    exact ⟨rfl, rfl⟩
  refine ⟨old, ?_, hsets.nodup.of_map _, fun s => ?_, ?_, fun i s hi => ?_, fun i s hi a j => ?_⟩
  · rw [← hsets.length_eq, List.length_map]
  · have hmem := hsets.mem_iff (.single s)
    have hempty : (StateSet.single s).isEmpty = false :=
      Bool.eq_false_iff.2 fun hs => StateSet.isEmpty_iff.1 hs s (StateSet.mem_single.2 rfl)
    simp only [hn.setAfter_eq h, StateSet.elim_single_eq_single_iff, hempty, true_and, List.mem_map,
      StateSet.single_inj, exists_eq_right] at hmem
    exact hmem
  · obtain ⟨s, hs, hstart⟩ := (StateSet.getElem?_map_single_iff (o := some n.start)).1 hsets.start
    rw [hs, ← hstart, hparts.1]
  · rw [Bool.eq_iff_iff, hsets.accepting_iff i _ (hget hi)]
    simp only [StateSet.mem_single, exists_eq_left]
    rw [isAccepting, Dfa.isAccepting, hparts.2]
  · rw [hsets.next_iff i _ (hget hi), hn.nextSet_single h, StateSet.getElem?_map_single_iff]

/-- A deterministic automaton, and no other, is read off without subset construction. Subset
    construction then gives the same automaton without the states that are not reached, up to the
    numbers: the states correspond, start to start, accepting states to accepting ones, and in every
    column defined moves to defined moves and undefined ones to undefined ones. Whichever way is
    taken, the words are those of the subset construction. -/
theorem toDfa_agrees (hn : n.WellFormed) (config : Config) :
    ((∃ e, n.toDfa? = .ok e) ↔ n.isDeterministic = true) ∧
      (∀ e, n.toDfa? = .ok e → n.toDfa config = e ∧
        ∃ f, (n.determinize config).Renumbers (e.restrict e.reachable) f ∧
          ∀ c < n.alphabet.size, ∀ s t : Fin (n.determinize config).size,
            ((n.determinize config).move s c = some t.val ↔
              (e.restrict e.reachable).move (f s) c = some (f t).val) ∧
            ((n.determinize config).move s c = none ↔
              (e.restrict e.reachable).move (f s) c = none)) ∧
      (n.isDeterministic = false → n.toDfa config = n.determinize config) ∧
      ∀ w, (n.toDfa config).accepts w = (n.determinize config).accepts w := by
  refine ⟨hn.exists_toDfa?_iff, fun e he => ⟨?_, ?_⟩, fun hmany => ?_, fun w => ?_⟩
  · rw [Nfa.toDfa, he]
  · obtain ⟨old, hold⟩ := hn.exists_lists_determinize he config
    obtain ⟨f, hf⟩ := hold.exists_renumbers (hn.toDfa? he).lists_restrict_reachable
    have halphabet : (n.determinize config).alphabet = (e.restrict e.reachable).alphabet := by
      rw [alphabet_determinize, Dfa.alphabet_restrict, alphabet_of_toDfa? he]
    refine ⟨f, hf, fun c hc s t => hf.move_iff halphabet ?_ s t⟩
    rwa [alphabet_determinize]
  · rw [Nfa.toDfa]
    split
    · next e he =>
      rw [hn.exists_toDfa?_iff.1 ⟨e, he⟩] at hmany
      cases hmany
    · rfl
  · have hlanguage := (hn.language_toDfa config).trans (hn.language_determinize config).symm
    rw [Bool.eq_iff_iff, ← Dfa.mem_language, hlanguage]
    rfl

/-- An automaton that starts in its second state and does not reach its first one. -/
theorem toDfa_agrees_unreached :
    let states := ((new ⟨["a", "b"], by decide⟩ "p").addState "q").addState "r"
    let moves := ((states.addMove 0 0 1).addMove 1 0 2).addMove 2 1 1
    let n := (moves.setStart 1).setAccepting 2 true
    ∃ e, n.toDfa? = .ok e ∧ n.toDfa {} = e ∧
      (∃ f, (n.determinize {}).Renumbers (e.restrict e.reachable) f) ∧
      ∀ w, (n.toDfa {}).accepts w = (n.determinize {}).accepts w := by
  intro states moves n
  have hstates : states.WellFormed := (wellFormed_new.addState _).addState _
  have hmoves : moves.WellFormed :=
    ((hstates.addMove 0 0 (by decide)).addMove 1 0 (by decide)).addMove 2 1 (by decide)
  have hn : n.WellFormed := (hmoves.setStart (by decide)).setAccepting (by decide) true
  obtain ⟨hdeterministic, hsame, -, hwords⟩ := toDfa_agrees hn {}
  obtain ⟨e, he⟩ := hdeterministic.2 (by decide)
  obtain ⟨htoDfa, f, hf, -⟩ := hsame e he
  exact ⟨e, he, htoDfa, ⟨f, hf⟩, hwords⟩

end Nfa

end Acceptors
