import Mathlib.Data.Fintype.Card
import Acceptors.Proofs.Automaton
import Acceptors.Proofs.Dfa.Restricted
import Acceptors.Proofs.Minimal.Merged

/-!
# Minimized automata

Each step of the minimization leaves the words of the automaton alone, and adds something that the
later steps keep: completion has every move defined, so that states can be compared; restriction to
the reachable states lets each state be reached; merging lets any two states be told apart; and
pruning lets each state accept some word. States that can be reached, that accept some word and that
can be told apart need different states in every automaton that accepts the same words, whatever its
alphabet, so that no such automaton is smaller.

Results:
* `Dfa.WellFormed.restrict_reachable`, `Dfa.WellFormed.trim_prune`: what the steps add.
* `Dfa.Trim.size_le`: why no automaton for the same words is smaller.
* `Automaton.minimize_minimal`: the minimized automaton.
-/

namespace Acceptors

namespace Dfa

variable {d e : Dfa} {keep : StateSet} {s t i j : Nat} {a : String} {w : List String}

/-- Every state is reached by some word. -/
def AllReached (d : Dfa) : Prop := ∀ s < d.size, ∃ w, d.run d.start w = some s

/-- Any two states are told apart by some word. -/
def AllSeparated (d : Dfa) : Prop := ∀ s < d.size, ∀ t < d.size, s ≠ t → d.Separated s t

/-- Every state is reached, accepts some word and is told apart from every other. -/
structure Trim (d : Dfa) : Prop where
  reached : d.AllReached
  productive : ∀ s < d.size, ∃ w, d.acceptsFrom s w = true
  separated : d.AllSeparated

/-! ## No automaton for the same words is smaller -/

/-- A state of a trim automaton is matched by a state of every automaton for the same words: the one
    to which a word leads that reaches the state. -/
theorem Trim.exists_same (hd : d.Trim) (he : e.WellFormed) (h : ∀ w, e.accepts w = d.accepts w)
    (hs : s < d.size) : ∃ t : Fin e.size, ∀ v, d.acceptsFrom s v = e.acceptsFrom t v := by
  obtain ⟨w, hw⟩ := hd.reached s hs
  obtain ⟨u, hu⟩ := hd.productive s hs
  have hwords : ∀ v, d.acceptsFrom s v = e.acceptsFrom e.start (w ++ v) := by
    intro v
    show _ = e.accepts (w ++ v)
    rw [h, accepts, acceptsFrom_append, hw]
    rfl
  rw [hwords u, acceptsFrom_append, Option.any_eq_true] at hu
  obtain ⟨t, ht, -⟩ := hu
  refine ⟨⟨t, he.run_lt he.start_lt ht⟩, fun v => ?_⟩
  rw [hwords, acceptsFrom_append, ht]
  rfl

/-- No automaton for the same words has fewer states than a trim one. -/
theorem Trim.size_le (hd : d.Trim) (he : e.WellFormed) (h : ∀ w, e.accepts w = d.accepts w) :
    d.size ≤ e.size := by
  have hmatch : ∀ s : Fin d.size, ∃ t : Fin e.size, ∀ v, d.acceptsFrom s v = e.acceptsFrom t v :=
    fun s => hd.exists_same he h s.isLt
  choose f hf using hmatch
  have hinjective : Function.Injective f := by
    intro s t hst
    by_contra hne
    obtain ⟨v, hv⟩ := hd.separated s s.isLt t t.isLt fun heq => hne (Fin.ext heq)
    exact hv (by rw [hf s, hf t, hst])
  simpa using Fintype.card_le_of_injective f hinjective

/-! ## Restriction to the reachable states -/

theorem WellFormed.start_mem_reachable (hd : d.WellFormed) : d.start ∈ d.reachable :=
  hd.mem_reachable_iff.2 ⟨[], rfl⟩

theorem WellFormed.allReached_restrict_reachable (hd : d.WellFormed) :
    (d.restrict d.reachable).AllReached := by
  intro i hi
  obtain ⟨s, hs⟩ := getElem?_kept_of_lt hi
  obtain ⟨w, hw⟩ := hd.mem_reachable_iff.1 (mem_keep_of_getElem?_kept hs).2
  have hstart := hd.getElem?_kept_start hd.start_mem_reachable
  exact ⟨w, (hd.run_restrict_iff hstart).2
    ⟨s, hs, hw, fun u _ _ _ hq => hd.mem_reachable_iff.2 ⟨u, hq⟩⟩⟩

/-- A state keeps its words when the states that no word reaches are dropped. -/
theorem WellFormed.acceptsFrom_restrict_reachable (hd : d.WellFormed)
    (hi : (d.kept d.reachable)[i]? = some s) :
    (d.restrict d.reachable).acceptsFrom i w = d.acceptsFrom s w := by
  refine hd.acceptsFrom_restrict hi fun u q hq hnot => absurd ?_ hnot
  obtain ⟨v, hv⟩ := hd.mem_reachable_iff.1 (mem_keep_of_getElem?_kept hi).2
  refine hd.mem_reachable_iff.2 ⟨v ++ u, ?_⟩
  rw [run_append, hv]
  exact hq

theorem WellFormed.accepts_restrict_reachable (hd : d.WellFormed) :
    (d.restrict d.reachable).accepts w = d.accepts w :=
  hd.acceptsFrom_restrict_reachable (hd.getElem?_kept_start hd.start_mem_reachable)

theorem WellFormed.isComplete_restrict_reachable (hd : d.WellFormed)
    (hcomplete : d.isComplete = true) : (d.restrict d.reachable).isComplete = true := by
  refine (hd.restrict hd.start_mem_reachable).isComplete_of_next fun i hi a ha => ?_
  obtain ⟨s, hs⟩ := getElem?_kept_of_lt hi
  obtain ⟨hlt, hreachable⟩ := mem_keep_of_getElem?_kept hs
  obtain ⟨w, hw⟩ := hd.mem_reachable_iff.1 hreachable
  obtain ⟨t, ht⟩ := hd.exists_next hcomplete hlt ha
  have hmem : t ∈ d.reachable := by
    refine hd.mem_reachable_iff.2 ⟨w ++ [a], ?_⟩
    rw [run_append, hw, Option.bind_some, run_cons, ht]
    rfl
  obtain ⟨j, hj⟩ := exists_getElem?_kept (hd.next_lt ht) hmem
  exact ⟨j, (next_restrict_eq_some_iff hs).2 ⟨t, hj, ht⟩⟩

/-! ## Merging -/

theorem WellFormed.allReached_merge (hd : d.WellFormed) (hcomplete : d.isComplete = true)
    (hreached : d.AllReached) : d.merge.AllReached := by
  intro i hi
  obtain ⟨s, hs⟩ := getElem?_smallest_of_lt hi
  have hstands := hd.stands_of_getElem? hcomplete hs
  obtain ⟨w, hw⟩ := hreached s hstands.1
  obtain ⟨j, hj, hjs⟩ := hd.run_merge hcomplete (hd.stands_start hcomplete) hw
  have hij : i = j := eq_of_getElem?_eq_some nodup_smallest hstands.2 hjs.2
  exact ⟨w, hij ▸ hj⟩

theorem WellFormed.accepts_merge (hd : d.WellFormed) (hcomplete : d.isComplete = true) :
    d.merge.accepts w = d.accepts w :=
  hd.acceptsFrom_merge hcomplete (hd.stands_start hcomplete)

/-! ## Pruning -/

theorem prune_of_mem (h : d.start ∈ d.productive) : d.prune = d.restrict d.productive := by
  rw [prune, if_pos h]

theorem prune_of_not_mem (h : d.start ∉ d.productive) :
    d.prune = new d.alphabet (d.name d.start) := by
  rw [prune, if_neg h]

theorem alphabet_prune : d.prune.alphabet = d.alphabet := by
  by_cases h : d.start ∈ d.productive
  · rw [prune_of_mem h, alphabet_restrict]
  · rw [prune_of_not_mem h]
    rfl

theorem WellFormed.prune (hd : d.WellFormed) : d.prune.WellFormed := by
  by_cases h : d.start ∈ d.productive
  · rw [prune_of_mem h]
    exact hd.restrict h
  · rw [prune_of_not_mem h]
    exact wellFormed_new

/-- What the productive states accept. -/
theorem WellFormed.acceptsFrom_restrict_productive (hd : d.WellFormed)
    (hi : (d.kept d.productive)[i]? = some s) :
    (d.restrict d.productive).acceptsFrom i w = d.acceptsFrom s w :=
  hd.acceptsFrom_restrict hi fun _ _ _ hnot => hd.not_mem_productive_iff.1 hnot

theorem WellFormed.accepts_prune (hd : d.WellFormed) : d.prune.accepts w = d.accepts w := by
  by_cases h : d.start ∈ d.productive
  · rw [prune_of_mem h]
    exact hd.acceptsFrom_restrict_productive (hd.getElem?_kept_start h)
  · rw [prune_of_not_mem h, accepts, accepts, hd.not_mem_productive_iff.1 h w]
    exact dead_new w

/-- Without the states that accept no word, an automaton whose states are reached and told apart is
    trim. -/
theorem WellFormed.trim_prune (hd : d.WellFormed) (hreached : d.AllReached)
    (hseparated : d.AllSeparated) (h : d.start ∈ d.productive) : d.prune.Trim := by
  rw [prune_of_mem h]
  refine ⟨fun i hi => ?_, fun i hi => ?_, fun i hi j hj hne => ?_⟩
  · obtain ⟨s, hs⟩ := getElem?_kept_of_lt hi
    obtain ⟨hlt, hproductive⟩ := mem_keep_of_getElem?_kept hs
    obtain ⟨w, hw⟩ := hreached s hlt
    refine ⟨w, (hd.run_restrict_iff (hd.getElem?_kept_start h)).2 ⟨s, hs, hw, ?_⟩⟩
    -- what leads to a productive state is productive
    rintro u v q rfl hq
    obtain ⟨x, hx⟩ := hd.mem_productive_iff.1 hproductive
    rw [run_append, hq, Option.bind_some] at hw
    refine hd.mem_productive_iff.2 ⟨v ++ x, ?_⟩
    rw [acceptsFrom_append, hw]
    exact hx
  · obtain ⟨s, hs⟩ := getElem?_kept_of_lt hi
    obtain ⟨w, hw⟩ := hd.mem_productive_iff.1 (mem_keep_of_getElem?_kept hs).2
    exact ⟨w, by rwa [hd.acceptsFrom_restrict_productive hs]⟩
  · obtain ⟨s, hs⟩ := getElem?_kept_of_lt hi
    obtain ⟨t, ht⟩ := getElem?_kept_of_lt hj
    have hst : s ≠ t := by
      rintro rfl
      exact hne (eq_of_getElem?_eq_some nodup_kept hs ht)
    obtain ⟨w, hw⟩ := hseparated s (mem_keep_of_getElem?_kept hs).1 t
      (mem_keep_of_getElem?_kept ht).1 hst
    refine ⟨w, ?_⟩
    rwa [hd.acceptsFrom_restrict_productive hs, hd.acceptsFrom_restrict_productive ht]

/-! ## All steps -/

/-- The automaton with every state reached and any two states told apart, before it is pruned. -/
def reduce (config : Config) (d : Dfa) : Dfa :=
  ((d.complete config.sinkName).restrict (d.complete config.sinkName).reachable).merge

theorem minimize_eq (config : Config) (d : Dfa) : d.minimize config = (d.reduce config).prune := rfl

theorem alphabet_minimize (config : Config) (d : Dfa) :
    (d.minimize config).alphabet = d.alphabet := by
  rw [minimize_eq, alphabet_prune, reduce, alphabet_merge, alphabet_restrict, alphabet_complete]

theorem WellFormed.reduce (hd : d.WellFormed) (config : Config) :
    (d.reduce config).WellFormed ∧ (d.reduce config).AllReached ∧ (d.reduce config).AllSeparated ∧
      ∀ w, (d.reduce config).accepts w = d.accepts w := by
  have hcomplete := hd.complete config.sinkName
  have hmoves := hd.isComplete_complete config.sinkName
  have hreachable := hcomplete.restrict hcomplete.start_mem_reachable
  have hmoves' := hcomplete.isComplete_restrict_reachable hmoves
  refine ⟨hreachable.merge hmoves', ?_, ?_, fun w => ?_⟩
  · exact hreachable.allReached_merge hmoves' hcomplete.allReached_restrict_reachable
  · exact fun i hi j hj hne => hreachable.separated_merge hmoves' hi hj hne
  · rw [Dfa.reduce, hreachable.accepts_merge hmoves', hcomplete.accepts_restrict_reachable,
      hd.accepts_complete]

theorem WellFormed.minimize (hd : d.WellFormed) (config : Config) :
    (d.minimize config).WellFormed := (hd.reduce config).1.prune

theorem WellFormed.accepts_minimize (hd : d.WellFormed) (config : Config) :
    (d.minimize config).accepts w = d.accepts w := by
  obtain ⟨hwf, -, -, hwords⟩ := hd.reduce config
  rw [minimize_eq, hwf.accepts_prune, hwords]

/-- An automaton that accepts some word is made trim. -/
theorem WellFormed.trim_minimize (hd : d.WellFormed) (config : Config) (h : d.accepts w = true) :
    (d.minimize config).Trim := by
  obtain ⟨hwf, hreached, hseparated, hwords⟩ := hd.reduce config
  refine hwf.trim_prune hreached hseparated (hwf.mem_productive_iff.2 ⟨w, ?_⟩)
  exact (hwords w).trans h

/-- An automaton that accepts no word is reduced to one state. -/
theorem WellFormed.minimize_eq_new (hd : d.WellFormed) (config : Config)
    (h : ∀ w, d.accepts w = false) :
    d.minimize config = new (d.reduce config).alphabet
      ((d.reduce config).name (d.reduce config).start) := by
  obtain ⟨hwf, -, -, hwords⟩ := hd.reduce config
  exact prune_of_not_mem (hwf.not_mem_productive_iff.2 fun w => (hwords w).trans (h w))

end Dfa

namespace Automaton

variable {a : Automaton}

theorem WellFormed.minimize (ha : a.WellFormed) (config : Config) :
    (a.minimize config).WellFormed := (ha.toDfa config).minimize config

/-- The minimized automaton is well-formed and accepts the same words. Its states are all reached,
    and if some word is accepted, they all accept some word and any two of them are told apart;
    otherwise there is only the start state, without moves. No deterministic automaton for the same
    words has fewer states. -/
theorem minimize_minimal (ha : a.WellFormed) (config : Config) :
    let m := a.minimize config
    m.WellFormed ∧ (∀ w, m.accepts w = a.accepts w) ∧
      (∀ s < m.size, ∃ w, m.run m.start w = some s) ∧
      ((∃ w, a.accepts w = true) →
        (∀ s < m.size, ∃ w, m.acceptsFrom s w = true) ∧
          ∀ s < m.size, ∀ t < m.size, s ≠ t → ∃ w, m.acceptsFrom s w ≠ m.acceptsFrom t w) ∧
      ((∀ w, a.accepts w = false) →
        m.size = 1 ∧ m.isAccepting m.start = false ∧ ∀ s c, m.move s c = none) ∧
      ∀ d : Dfa, d.WellFormed → (∀ w, d.accepts w = a.accepts w) → m.size ≤ d.size := by
  intro m
  have hd := ha.toDfa config
  have hwords : ∀ w, m.accepts w = a.accepts w := fun w =>
    (hd.accepts_minimize config).trans (ha.accepts_toDfa config)
  have htrim : (∃ w, a.accepts w = true) → m.Trim := by
    rintro ⟨w, hw⟩
    exact hd.trim_minimize config ((ha.accepts_toDfa config).trans hw)
  have hnew : (∀ w, a.accepts w = false) → ∃ alphabet name, m = .new alphabet name := fun h =>
    ⟨_, _, hd.minimize_eq_new config fun w => (ha.accepts_toDfa config).trans (h w)⟩
  have hone : (∀ w, a.accepts w = false) → m.size = 1 ∧ m.start = 0 := by
    intro h
    obtain ⟨alphabet, name, hm⟩ := hnew h
    rw [hm]
    exact ⟨Dfa.size_new, rfl⟩
  have hcases : (∃ w, a.accepts w = true) ∨ ∀ w, a.accepts w = false := by
    simpa only [not_exists, Bool.not_eq_true] using Classical.em (∃ w, a.accepts w = true)
  refine ⟨ha.minimize config, hwords, fun s hs => ?_, fun h => ?_, fun h => ?_,
    fun e he hsame => ?_⟩
  · rcases hcases with h | h
    · exact (htrim h).reached s hs
    · obtain ⟨hsize, hstart⟩ := hone h
      refine ⟨[], ?_⟩
      rw [hstart, show s = 0 by omega]
      rfl
  · exact ⟨(htrim h).productive, (htrim h).separated⟩
  · obtain ⟨alphabet, name, hm⟩ := hnew h
    rw [hm]
    exact ⟨Dfa.size_new, Dfa.dead_new [], fun s c => Dfa.move_new⟩
  · rcases hcases with h | h
    · exact (htrim h).size_le he fun w => (hsame w).trans (hwords w).symm
    · rw [(hone h).1]
      exact Nat.one_le_of_lt he.start_lt

/-- A nondeterministic automaton with epsilon moves, a state that accepts no word and one that no
    word reaches; and an automaton that accepts no word. -/
theorem minimize_minimal_star :
    let n := (((((Nfa.new (.single "a") "p").addState "q").addState "q").addState "q").addMove 0 0
      1).addMove 0 0 2
    let a : Automaton := (n.setAccepting 1 true).star {}
    let m := a.minimize {}
    let b : Automaton := Dfa.new (.single "a") "p"
    (m.WellFormed ∧ (∀ w, m.accepts w = a.accepts w) ∧
      (∀ s < m.size, ∃ w, m.run m.start w = some s) ∧
      (∀ s < m.size, ∃ w, m.acceptsFrom s w = true) ∧
      (∀ s < m.size, ∀ t < m.size, s ≠ t → ∃ w, m.acceptsFrom s w ≠ m.acceptsFrom t w) ∧
      m.size ≤ (a.toDfa {}).size) ∧ (b.minimize {}).size = 1 := by
  intro n a m b
  have hn : n.WellFormed :=
    (((((Nfa.wellFormed_new).addState _).addState _).addState _).addMove 0 0 (by decide)).addMove
      0 0 (by decide)
  have ha : a.WellFormed := (hn.setAccepting (by decide) true).star
  have hb : b.WellFormed := Dfa.wellFormed_new
  obtain ⟨hwf, hwords, hreached, hsome, -, hleast⟩ := minimize_minimal ha {}
  obtain ⟨hproductive, hseparated⟩ := hsome ⟨[], by decide⟩
  obtain ⟨-, -, -, -, hnone, -⟩ := minimize_minimal hb {}
  refine ⟨⟨hwf, hwords, hreached, hproductive, hseparated, ?_⟩, (hnone Dfa.dead_new).1⟩
  exact hleast _ (ha.toDfa {}) fun w => ha.accepts_toDfa {}

end Automaton

end Acceptors
