import Acceptors.Proofs.Minimal.Classes
import Acceptors.Proofs.Renamed

/-!
# The order and the names of minimized states

Before pruning, the states are the classes of the reached states of the completed automaton that
accept the same words, by smallest members. A class is named by the names of its members in order,
and gets as few suffixes as make its name differ from the names of the classes before it. Pruning
drops the classes that accept no word; the suffixes stay that other names got because of theirs. If
no class accepts a word, there is one class only, and it is kept.

Results:
* `Dfa.WellFormed.wordClasses_eq_map_reduce`, `Dfa.WellFormed.givenInTurn_reduce`: the classes and
  their names before pruning.
* `Dfa.WellFormed.liveClasses_minimize`, `Dfa.WellFormed.wordClasses_minimize`: which classes are
  kept.
* `Dfa.WellFormed.minimize_arranged`: the states of the minimized automaton, their names and their
  moves.
-/

namespace Acceptors

namespace Dfa

open StateNames (GivenInTurn)

variable {d m : Dfa} {i j : Nat} {a : String}

/-! ## All steps but pruning -/

/-- The states of `m`, each with the states of `d` that accept its words, and with its name. -/
noncomputable def namedClasses (d m : Dfa) : List (List Nat × String) :=
  (List.range m.size).map fun i => (d.statesFor (m.acceptsFrom i), m.name i)

theorem getElem?_namedClasses (hi : i < m.size) (d : Dfa) :
    (d.namedClasses m)[i]? = some (d.statesFor (m.acceptsFrom i), m.name i) := by
  rw [namedClasses, List.getElem?_map, List.getElem?_range hi]
  rfl

theorem lt_of_getElem?_namedClasses {c : List Nat × String}
    (h : (d.namedClasses m)[i]? = some c) : i < m.size := by
  have hlt := (List.getElem?_eq_some_iff.1 h).1
  rwa [namedClasses, List.length_map, List.length_range] at hlt

section Reduce

variable (hd : d.WellFormed) (config : Config)

include hd

/-- Before pruning, the states have the names that the classes get in turn. -/
theorem WellFormed.names_reduce :
    (d.reduce config).names = .ofList ((d.complete config.sinkName).wordClasses.map
      (d.complete config.sinkName).joinedName) := by
  have he := hd.complete config.sinkName
  rw [he.map_joinedName_eq]
  exact (he.restrict he.start_mem_reachable).names_merge
    (he.isComplete_restrict_reachable (hd.isComplete_complete _)) he.allReached_restrict_reachable

/-- The classes are named in turn. -/
theorem WellFormed.givenInTurn_reduce :
    GivenInTurn [] ((d.complete config.sinkName).wordClasses.map
      (d.complete config.sinkName).joinedName) (d.reduce config).names.toList := by
  rw [hd.names_reduce]
  exact StateNames.givenInTurn_ofList _

/-- Before pruning, the states are the classes in order. -/
theorem WellFormed.wordClasses_eq_map_reduce :
    (d.complete config.sinkName).wordClasses = (List.range (d.reduce config).size).map fun i =>
      (d.complete config.sinkName).statesFor ((d.reduce config).acceptsFrom i) := by
  have he := hd.complete config.sinkName
  rw [he.wordClasses_eq_map, (he.restrict he.start_mem_reachable).wordClasses_eq_map_merge
    (he.isComplete_restrict_reachable (hd.isComplete_complete _)) he.allReached_restrict_reachable,
    List.map_map]
  exact List.map_congr_left fun i _ => he.statesFor_eq_map.symm

theorem WellFormed.zip_wordClasses :
    (d.complete config.sinkName).wordClasses.zip (d.reduce config).names.toList =
      (d.complete config.sinkName).namedClasses (d.reduce config) := by
  rw [hd.wordClasses_eq_map_reduce, ← StateNames.map_name_range]
  exact List.zip_map'

theorem WellFormed.exists_mem_statesFor_reduce (hi : i < (d.reduce config).size) :
    ∃ s, s ∈ (d.complete config.sinkName).statesFor ((d.reduce config).acceptsFrom i) := by
  refine (hd.complete config.sinkName).exists_mem_of_mem_wordClasses ?_
  rw [hd.wordClasses_eq_map_reduce]
  exact List.mem_map_of_mem (List.mem_range.2 hi)

end Reduce

/-! ## Pruning -/

open Classical in
/-- The classes that accept some word. -/
noncomputable def liveClasses (d : Dfa) (classes : List (List Nat × String)) :
    List (List Nat × String) :=
  classes.filter fun c => ∃ s ∈ c.1, ∃ w, d.acceptsFrom s w = true

open Classical in
/-- The states that pruning keeps are the classes that accept some word. -/
theorem WellFormed.liveClasses_namedClasses (hd : d.WellFormed) (hm : m.WellFormed)
    (hmembers : ∀ i < m.size, ∃ s, s ∈ d.statesFor (m.acceptsFrom i)) :
    d.liveClasses (d.namedClasses m) = d.namedClasses (m.restrict m.productive) := by
  have hlive : ∀ i < m.size,
      (∃ s ∈ d.statesFor (m.acceptsFrom i), ∃ w, d.acceptsFrom s w = true) ↔
        i ∈ m.productive := by
    intro i hi
    rw [hm.mem_productive_iff]
    constructor
    · rintro ⟨s, hs, w, hw⟩
      exact ⟨w, by rwa [(hd.mem_statesFor_iff.1 hs).2] at hw⟩
    · rintro ⟨w, hw⟩
      obtain ⟨s, hs⟩ := hmembers i hi
      exact ⟨s, hs, w, by rwa [(hd.mem_statesFor_iff.1 hs).2]⟩
  have hkept : (List.range m.size).filter (fun i =>
      ∃ s ∈ d.statesFor (m.acceptsFrom i), ∃ w, d.acceptsFrom s w = true) =
        m.kept m.productive :=
    List.filter_congr fun i hi =>
      Bool.eq_iff_iff.2 (decide_eq_true_iff.trans (hlive i (List.mem_range.1 hi)))
  rw [liveClasses, namedClasses, List.filter_map]
  refine (congrArg _ hkept).trans ?_
  rw [kept_eq_map, List.map_map, namedClasses]
  refine List.map_congr_left fun j hj => ?_
  have hold := getElem?_kept_oldState (List.mem_range.1 hj)
  have hwords : (m.restrict m.productive).acceptsFrom j =
      m.acceptsFrom (m.oldState m.productive j) :=
    funext fun _ => hm.acceptsFrom_restrict_productive hold
  rw [Function.comp_apply, hwords, name_restrict hold]

section Minimize

variable (hd : d.WellFormed) (config : Config)

include hd

/-- If some word is accepted, the states of the minimized automaton are the classes that accept some
    word. -/
theorem WellFormed.liveClasses_minimize (h : ∃ w, d.accepts w = true) :
    (d.complete config.sinkName).liveClasses
        ((d.complete config.sinkName).wordClasses.zip (d.reduce config).names.toList) =
      (d.complete config.sinkName).namedClasses (d.minimize config) := by
  obtain ⟨hwf, -, -, hwords⟩ := hd.reduce config
  obtain ⟨w, hw⟩ := h
  have hstart : (d.reduce config).start ∈ (d.reduce config).productive :=
    hwf.mem_productive_iff.2 ⟨w, (hwords w).trans hw⟩
  rw [hd.zip_wordClasses, minimize_eq, prune_of_mem hstart]
  exact (hd.complete _).liveClasses_namedClasses hwf fun i => hd.exists_mem_statesFor_reduce config

/-- If no word is accepted, there is one class, which is the state of the minimized automaton. -/
theorem WellFormed.wordClasses_minimize (h : ∀ w, d.accepts w = false) :
    (d.complete config.sinkName).wordClasses.length = 1 ∧
      (d.complete config.sinkName).wordClasses.zip (d.reduce config).names.toList =
        (d.complete config.sinkName).namedClasses (d.minimize config) := by
  obtain ⟨hwf, hreached, hseparated, hwords⟩ := hd.reduce config
  have hdead : ∀ i < (d.reduce config).size, (d.reduce config).Dead i := by
    intro i hi w
    obtain ⟨v, hv⟩ := hreached i hi
    have hnone : (d.reduce config).accepts (v ++ w) = false := (hwords _).trans (h _)
    rwa [accepts, acceptsFrom_append, hv] at hnone
  -- any two states would be told apart, but none of them accepts a word
  have hsize : (d.reduce config).size = 1 := by
    have hpos := hwf.start_lt
    by_contra hne
    obtain ⟨w, hw⟩ := hseparated 0 (by omega) 1 (by omega) Nat.zero_ne_one
    exact hw ((hdead 0 (by omega) w).trans (hdead 1 (by omega) w).symm)
  have hstart : (d.reduce config).start = 0 := by
    have hlt := hwf.start_lt
    omega
  constructor
  · rw [hd.wordClasses_eq_map_reduce, List.length_map, List.length_range, hsize]
  · have hnew : ∀ alphabet name, (d.reduce config).acceptsFrom 0 =
        (new alphabet name).acceptsFrom 0 := fun alphabet name =>
      funext fun w => (hdead 0 (by omega) w).trans (dead_new w).symm
    rw [hd.zip_wordClasses, hd.minimize_eq_new config h, hstart, namedClasses, namedClasses, hsize,
      size_new, List.range_one, List.map_singleton, List.map_singleton, name_new, ← hnew]

/-- The states of the minimized automaton are classes and have their names. -/
theorem WellFormed.mem_zip_of_lt_size_minimize (hi : i < (d.minimize config).size) :
    ((d.complete config.sinkName).statesFor ((d.minimize config).acceptsFrom i),
        (d.minimize config).name i) ∈
      (d.complete config.sinkName).wordClasses.zip (d.reduce config).names.toList := by
  have hmem := List.mem_of_getElem? (getElem?_namedClasses hi (d.complete config.sinkName))
  rcases d.accepts_some_or_none with hsome | hnone
  · rw [← hd.liveClasses_minimize config hsome] at hmem
    exact List.mem_of_mem_filter hmem
  · rwa [(hd.wordClasses_minimize config hnone).2]

end Minimize

/-! ## Names and moves -/

/-- The states of `m` are the given classes of states of `d` in order, and have the given names. A
    symbol leads each class to the class of the states to which it leads its members, or nowhere if
    these accept no word. -/
structure Arranges (d m : Dfa) (classes : List (List Nat × String)) : Prop where
  names : m.names.toList = classes.map Prod.snd
  start : ∃ c, classes[m.start]? = some c ∧ d.start ∈ c.1
  words : ∀ i c, classes[i]? = some c → ∀ s ∈ c.1, ∀ w, m.acceptsFrom i w = d.acceptsFrom s w
  next : ∀ i c, classes[i]? = some c → ∀ s ∈ c.1, ∀ a ∈ d.alphabet, ∃ t, d.next s a = some t ∧
    ((∃ w, d.acceptsFrom t w = true) →
      ∃ j c', m.next i a = some j ∧ classes[j]? = some c' ∧ t ∈ c'.1) ∧
    ((∀ w, d.acceptsFrom t w = false) → m.next i a = none)

/-- An automaton is arranged by the words of its states if they are the words of states of a
    complete automaton, and if no move of it leads to a state without words. -/
theorem WellFormed.arranges_namedClasses (hd : d.WellFormed) (hcomplete : d.isComplete = true)
    (hm : m.WellFormed) (hwords : ∀ w, m.accepts w = d.accepts w)
    (hlive : ∀ i a j, m.next i a = some j → ∃ w, m.acceptsFrom j w = true) :
    d.Arranges m (d.namedClasses m) where
  names := by
    rw [namedClasses, List.map_map, ← StateNames.map_name_range]
    rfl
  start := by
    refine ⟨_, getElem?_namedClasses hm.start_lt d, hd.mem_statesFor_iff.2 ⟨⟨[], rfl⟩, ?_⟩⟩
    exact funext fun w => (hwords w).symm
  words i c hc s hs w := by
    have hi := lt_of_getElem?_namedClasses hc
    obtain rfl := Option.some.inj ((getElem?_namedClasses hi d).symm.trans hc)
    rw [(hd.mem_statesFor_iff.1 hs).2]
  next i c hc s hs a ha := by
    have hi := lt_of_getElem?_namedClasses hc
    obtain rfl := Option.some.inj ((getElem?_namedClasses hi d).symm.trans hc)
    obtain ⟨⟨v, hv⟩, hsi⟩ := hd.mem_statesFor_iff.1 hs
    obtain ⟨t, ht⟩ := hd.exists_next hcomplete (hd.run_lt hd.start_lt hv) ha
    -- what the symbol leads to accepts what is left of the words of `s`
    have hleft : ∀ w, d.acceptsFrom t w = (m.next i a).any fun j => m.acceptsFrom j w := by
      intro w
      rw [← acceptsFrom_cons, ← hsi, acceptsFrom_cons, ht]
      rfl
    refine ⟨t, ht, ?_, fun hnone => ?_⟩
    · rintro ⟨w, hw⟩
      rw [hleft, Option.any_eq_true] at hw
      obtain ⟨j, hj, -⟩ := hw
      have hreached : d.Reached t := by
        refine ⟨v ++ [a], ?_⟩
        rw [run_append, hv, Option.bind_some, run_cons, ht]
        rfl
      have htj : d.acceptsFrom t = m.acceptsFrom j := by
        funext w
        rw [hleft, hj]
        rfl
      exact ⟨j, _, hj, getElem?_namedClasses (hm.next_lt hj) d,
        hd.mem_statesFor_iff.2 ⟨hreached, htj⟩⟩
    · rw [Option.eq_none_iff_forall_ne_some]
      intro j hj
      obtain ⟨w, hw⟩ := hlive i a j hj
      have hfalse := hnone w
      rw [hleft, hj] at hfalse
      exact absurd hw (Bool.eq_false_iff.1 hfalse)

/-- What moves of the minimized automaton lead to accepts some word. -/
theorem WellFormed.exists_accepts_of_next_minimize (hd : d.WellFormed)
    (h : (d.minimize config).next i a = some j) :
    ∃ w, (d.minimize config).acceptsFrom j w = true := by
  rcases d.accepts_some_or_none with ⟨w, hw⟩ | hnone
  · exact (hd.trim_minimize config hw).productive j ((hd.minimize config).next_lt h)
  · rw [hd.minimize_eq_new config hnone, next_new] at h
    cases h

/-- The states of the minimized automaton are the classes of the completed one that accept some
    word, by smallest members; if no word is accepted, there is one class, that of the start state.
    All classes are named in turn, those that accept no word included, by the names of their
    members. Moves lead to the classes of the states to which they lead the members, or nowhere if
    these accept no word. -/
theorem WellFormed.minimize_arranged (hd : d.WellFormed) (config : Config) :
    let e := d.complete config.sinkName
    let m := d.minimize config
    ∃ names, (∀ given, GivenInTurn [] (e.wordClasses.map e.joinedName) given ↔ given = names) ∧
      m.alphabet = d.alphabet ∧
      ((∃ w, d.accepts w = true) → e.Arranges m (e.liveClasses (e.wordClasses.zip names))) ∧
      ((∀ w, d.accepts w = false) →
        e.wordClasses.length = 1 ∧ e.Arranges m (e.wordClasses.zip names)) := by
  intro e m
  have hgiven : GivenInTurn [] (e.wordClasses.map e.joinedName) (d.reduce config).names.toList :=
    hd.givenInTurn_reduce config
  have harranges : e.Arranges m (e.namedClasses m) := by
    refine (hd.complete _).arranges_namedClasses (hd.isComplete_complete _) (hd.minimize config)
      (fun w => ?_) fun i a j => hd.exists_accepts_of_next_minimize
    rw [hd.accepts_minimize, hd.accepts_complete]
  refine ⟨(d.reduce config).names.toList, fun given => ⟨fun h => h.unique hgiven, ?_⟩,
    alphabet_minimize config d, fun h => ?_, fun h => ?_⟩
  · rintro rfl
    exact hgiven
  · rw [hd.liveClasses_minimize config h]
    exact harranges
  · obtain ⟨hlength, hzip⟩ := hd.wordClasses_minimize config h
    rw [hzip]
    exact ⟨hlength, harranges⟩

/-- A dropped class has the name that a state has which is kept; and an automaton that accepts no
    word. -/
theorem minimize_arranged_dropped :
    let states := ((new ⟨["a", "b"], by decide⟩ "S").addState "A").addState "AB"
    let d := ((states.setMove 0 0 (some 1)).setMove 0 1 (some 2)).setAccepting 2 true
    let e := d.complete "B"
    let m := d.minimize { sinkName := "B" }
    let b := new (.single "a") "p"
    (∃ names, GivenInTurn [] (e.wordClasses.map e.joinedName) names ∧
        e.Arranges m (e.liveClasses (e.wordClasses.zip names))) ∧
      m.names.toList = ["S", "AB'"] ∧ (b.complete "p").wordClasses.length = 1 := by
  intro states d e m b
  have hstates : states.WellFormed := (wellFormed_new.addState _).addState _
  have hmoves : ((states.setMove 0 0 (some 1)).setMove 0 1 (some 2)).WellFormed :=
    (hstates.setMove 0 0 (by decide)).setMove 0 1 (by decide)
  have hd : d.WellFormed := hmoves.setAccepting (by decide) true
  have hb : b.WellFormed := wellFormed_new
  obtain ⟨names, hnames, -, hsome, -⟩ := hd.minimize_arranged { sinkName := "B" }
  obtain ⟨_, -, -, -, hnone⟩ := hb.minimize_arranged { sinkName := "p" }
  exact ⟨⟨names, (hnames names).2 rfl, hsome ⟨["b"], by decide⟩⟩, by decide, (hnone dead_new).1⟩

end Dfa

end Acceptors
