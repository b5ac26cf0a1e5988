import Acceptors.Proofs.Minimal.Classes

/-!
# Automata that are minimal already

Minimization leaves a trim automaton as it is, with the numbers, the names and the moves of its
states. Completion may add a sink, which is the last state and the only one that accepts no word, so
that it is merged with no other. All states are reached, so that none is dropped, and any two are
told apart, so that each is a class of its own: its name is free, and it keeps its number. In the
end the sink is dropped, and the moves that led to it are undefined again.

An automaton that accepts no word is made a start state without moves. A second minimization makes
it one again, but it may get another name, because the start state and the sink are merged.

Results:
* `Dfa.WellFormed.restrict_eq`: a restriction that drops what was added.
* `Dfa.WellFormed.merge_eq_self`: an automaton whose states are told apart is not changed by
  merging.
* `Dfa.Trim.minimize_eq_self`: a trim automaton is not changed by minimization.
* `Automaton.minimize_idempotent`: what a second minimization does.
-/

namespace Acceptors

namespace Dfa

variable {d e : Dfa} {keep : StateSet} {s t : Nat} {sinkName : String} {w : List String}

/-! ## Restriction to the states that were there -/

/-- An automaton with added states is restricted to the states that were there. These have kept
    their names and their moves, except that undefined moves may lead to added states. -/
theorem WellFormed.restrict_eq (hd : d.WellFormed) (he : e.WellFormed)
    (halphabet : e.alphabet = d.alphabet) (hkeep : ∀ s, s < e.size ∧ s ∈ keep ↔ s < d.size)
    (hname : ∀ s < d.size, e.name s = d.name s) (hstart : e.start = d.start)
    (haccepting : ∀ s < d.size, e.isAccepting s = d.isAccepting s)
    (hnext : ∀ s < d.size, ∀ a, ∀ t < d.size, e.next s a = some t ↔ d.next s a = some t) :
    e.restrict keep = d := by
  have hkept : e.kept keep = List.range d.size := by
    refine pairwise_kept.eq_of_mem_iff List.pairwise_lt_range fun s => ?_
    rw [mem_kept_iff, hkeep, List.mem_range]
  have hstate : ∀ s < d.size, (e.kept keep)[s]? = some s := by
    intro s hs
    rw [hkept, List.getElem?_range hs]
  have hmem : e.start ∈ keep := ((hkeep e.start).2 (hstart ▸ hd.start_lt)).2
  have hnames : (e.restrict keep).names = d.names := by
    refine StateNames.ext_toList ?_
    rw [toList_names_restrict, hkept, ← StateNames.map_name_range]
    exact List.map_congr_left fun s hs => hname s (List.mem_range.1 hs)
  have hsize : (e.restrict keep).size = d.size := congrArg StateNames.size hnames
  refine (he.restrict hmem).eq_of_next hd halphabet hnames ?_ ?_ ?_
  · have hget := he.getElem?_kept_start hmem
    rw [hstart] at hget
    exact eq_of_getElem?_eq_some nodup_kept hget (hstate d.start hd.start_lt)
  · intro s hs
    rw [hsize] at hs
    rw [isAccepting_restrict (hstate s hs), haccepting s hs]
  · intro s hs a
    rw [hsize] at hs
    refine Option.ext fun t => ?_
    rw [next_restrict_eq_some_iff (hstate s hs)]
    constructor
    · rintro ⟨r, hr, hsr⟩
      have ht : t < d.size := hsize ▸ lt_size_of_getElem?_kept hr
      obtain rfl := Option.some.inj ((hstate t ht).symm.trans hr)
      exact (hnext s hs a t ht).1 hsr
    · intro hst
      have ht := hd.next_lt hst
      exact ⟨t, hstate t ht, (hnext s hs a t ht).2 hst⟩

/-- A restriction that drops no state changes nothing. -/
theorem WellFormed.restrict_eq_self (hd : d.WellFormed) (h : ∀ s < d.size, s ∈ keep) :
    d.restrict keep = d :=
  hd.restrict_eq hd rfl (fun s => and_iff_left_of_imp (h s)) (fun _ _ => rfl) rfl (fun _ _ => rfl)
    fun _ _ _ _ _ => Iff.rfl

/-! ## Merging -/

/-- States that are told apart are not merged: each is the only member of its class. -/
theorem WellFormed.root_classes_eq_self (hd : d.WellFormed) (hcomplete : d.isComplete = true)
    (hseparated : d.AllSeparated) (hs : s < d.size) : d.classes.root s = s := by
  refine (hd.root_eq_self_iff hcomplete hs).2 fun r hr hsame => ?_
  exact not_separated_iff.2 hsame (hseparated r (Nat.lt_trans hr hs) s hs (Nat.ne_of_lt hr))

/-- If no two states are merged, each stays with its number. -/
theorem WellFormed.smallest_eq_range (hd : d.WellFormed) (hcomplete : d.isComplete = true)
    (hseparated : d.AllSeparated) : d.smallest = List.range d.size := by
  rw [smallest, List.filter_eq_self]
  intro s hs
  rw [List.mem_range] at hs
  rw [hd.getElem?_roots hcomplete hs, hd.root_classes_eq_self hcomplete hseparated hs,
    decide_eq_true_eq]

/-- If no two states are merged, each stays with its name, as the names are distinct. -/
theorem WellFormed.names_merge_eq_self (hd : d.WellFormed) (hcomplete : d.isComplete = true)
    (hseparated : d.AllSeparated) : d.merge.names = d.names := by
  have hroots : ∀ s < d.size, d.roots[s]? = some s := by
    intro s hs
    rw [hd.getElem?_roots hcomplete hs, hd.root_classes_eq_self hcomplete hseparated hs]
  have hmembers : ∀ s < d.size, d.membersOf s = [s] := by
    intro s hs
    refine (List.pairwise_lt_range.filter _).eq_of_mem_iff (List.pairwise_singleton _ s) fun t => ?_
    rw [List.mem_filter, List.mem_range, decide_eq_true_eq, List.mem_singleton]
    constructor
    · rintro ⟨ht, hts⟩
      exact Option.some.inj ((hroots t ht).symm.trans hts)
    · rintro rfl
      exact ⟨hs, hroots t hs⟩
  have hmerged : d.smallest.map d.mergedName = d.names.toList := by
    rw [hd.smallest_eq_range hcomplete hseparated, ← StateNames.map_name_range]
    refine List.map_congr_left fun s hs => ?_
    show String.join ((d.membersOf s).map d.name) = d.name s
    rw [hmembers s (List.mem_range.1 hs)]
    simp
  show StateNames.ofList (d.smallest.map d.mergedName) = d.names
  rw [hmerged, StateNames.ofList_toList]

/-- An automaton whose states are told apart is not changed by merging. -/
theorem WellFormed.merge_eq_self (hd : d.WellFormed) (hcomplete : d.isComplete = true)
    (hseparated : d.AllSeparated) : d.merge = d := by
  have hnames := hd.names_merge_eq_self hcomplete hseparated
  have hsize : d.merge.size = d.size := congrArg StateNames.size hnames
  have hstate : ∀ s < d.size, d.smallest[s]? = some s := by
    intro s hs
    rw [hd.smallest_eq_range hcomplete hseparated, List.getElem?_range hs]
  have hstands : ∀ i, ∀ s < d.size, d.Stands i s ↔ i = s := by
    intro i s hs
    rw [Stands, and_iff_right hs, hd.root_classes_eq_self hcomplete hseparated hs]
    constructor
    · exact fun hi => eq_of_getElem?_eq_some nodup_smallest hi (hstate s hs)
    · rintro rfl
      exact hstate i hs
  refine (hd.merge hcomplete).eq_of_next hd alphabet_merge hnames ?_ ?_ ?_
  · exact (hstands _ _ hd.start_lt).1 (hd.stands_start hcomplete)
  · exact fun s hs => isAccepting_merge (hstate s (hsize ▸ hs))
  · refine fun s hs a => Option.ext fun t => ?_
    rw [hd.next_merge_eq_some_iff hcomplete (hstate s (hsize ▸ hs))]
    constructor
    · rintro ⟨r, hr, hstand⟩
      rwa [(hstands t r (hd.next_lt hr)).1 hstand]
    · exact fun ht => ⟨t, ht, (hstands t t (hd.next_lt ht)).2 rfl⟩

/-! ## Completion -/

/-- A completed automaton has the states that were there, each reached as before. The sink is
    reached as well, if there is one, because a move leads to it. -/
theorem WellFormed.allReached_complete (hd : d.WellFormed) (hreached : d.AllReached)
    (sinkName : String) : (d.complete sinkName).AllReached := by
  intro s hs
  rw [start_complete]
  by_cases hlt : s < d.size
  · obtain ⟨w, hw⟩ := hreached s hlt
    exact ⟨w, hd.run_complete hw⟩
  by_cases hcomplete : d.isComplete = true
  · rw [complete_of_isComplete hcomplete] at hs
    exact absurd hs hlt
  obtain rfl : s = d.size := by
    rw [size_complete_of_not_isComplete hcomplete] at hs
    omega
  -- some state has an undefined move, as otherwise there would be no sink
  obtain ⟨r, hr, a, ha, hnone⟩ : ∃ r < d.size, ∃ a ∈ d.alphabet, d.next r a = none := by
    by_contra hall
    refine hcomplete (hd.isComplete_of_next fun r hr a ha => ?_)
    exact Option.ne_none_iff_exists'.1 fun hnone => hall ⟨r, hr, a, ha, hnone⟩
  obtain ⟨w, hw⟩ := hreached r hr
  have hnext := (next_complete_eq_some_iff hcomplete (Nat.le_of_lt hr) sinkName a d.size).2
    ⟨ha, by rw [hnone]; rfl⟩
  refine ⟨w ++ [a], ?_⟩
  rw [run_append, hd.run_complete hw, Option.bind_some, run_cons, hnext]
  rfl

/-- The sink of a trim automaton is told apart from all states that were there, as it accepts no
    word. -/
theorem Trim.allSeparated_complete (htrim : d.Trim) (hd : d.WellFormed) (sinkName : String) :
    (d.complete sinkName).AllSeparated := by
  by_cases hcomplete : d.isComplete = true
  · rw [complete_of_isComplete hcomplete]
    exact htrim.separated
  have hsink : ∀ s < d.size, (d.complete sinkName).Separated s d.size := by
    intro s hs
    obtain ⟨w, hw⟩ := htrim.productive s hs
    refine ⟨w, ?_⟩
    rw [hd.acceptsFrom_complete hs, hw, hd.dead_sink hcomplete w]
    exact Bool.noConfusion
  intro s hs t ht hne
  rw [size_complete_of_not_isComplete hcomplete, Nat.lt_succ_iff_lt_or_eq] at hs ht
  rcases hs with hs | rfl <;> rcases ht with ht | rfl
  · obtain ⟨w, hw⟩ := htrim.separated s hs t ht hne
    refine ⟨w, ?_⟩
    rwa [hd.acceptsFrom_complete hs, hd.acceptsFrom_complete ht]
  · exact hsink s hs
  · exact (hsink t ht).symm
  · exact absurd rfl hne

/-- The states that were there are the productive ones of the completed automaton, so that pruning
    undoes the completion of a trim automaton. -/
theorem Trim.prune_complete (htrim : d.Trim) (hd : d.WellFormed) (sinkName : String) :
    (d.complete sinkName).prune = d := by
  have he := hd.complete sinkName
  have hproductive : ∀ s < d.size, s ∈ (d.complete sinkName).productive := by
    intro s hs
    obtain ⟨w, hw⟩ := htrim.productive s hs
    exact he.mem_productive_iff.2 ⟨w, (hd.acceptsFrom_complete hs).trans hw⟩
  have hstart : (d.complete sinkName).start < d.size := by
    rw [start_complete]
    exact hd.start_lt
  rw [prune_of_mem (hproductive _ hstart)]
  by_cases hcomplete : d.isComplete = true
  · rw [complete_of_isComplete hcomplete] at hproductive ⊢
    exact hd.restrict_eq_self hproductive
  refine hd.restrict_eq he alphabet_complete (fun s => ⟨?_, fun hs => ⟨?_, hproductive s hs⟩⟩)
    (fun s hs => name_complete hs) start_complete (fun s _ => isAccepting_complete) ?_
  · rintro ⟨hs, hmem⟩
    rw [size_complete_of_not_isComplete hcomplete, Nat.lt_succ_iff_lt_or_eq] at hs
    refine hs.resolve_right ?_
    rintro rfl
    exact he.not_mem_productive_iff.2 (hd.dead_sink hcomplete) hmem
  · rw [size_complete_of_not_isComplete hcomplete]
    exact Nat.lt_succ_of_lt hs
  · intro s hs a t ht
    rw [next_complete_eq_some_iff hcomplete (Nat.le_of_lt hs)]
    cases hnext : d.next s a with
    | some r =>
      rw [Option.getD_some, and_iff_right (mem_alphabet_of_next hnext), Option.some.injEq]
    -- the move leads to the sink, which is none of the states that were there
    | none =>
      rw [Option.getD_none]
      exact ⟨fun h => absurd h.2 (Nat.ne_of_gt ht), nofun⟩

/-- A trim automaton is not changed by minimization. -/
theorem Trim.minimize_eq_self (htrim : d.Trim) (hd : d.WellFormed) (config : Config) :
    d.minimize config = d := by
  have he := hd.complete config.sinkName
  have hreached := hd.allReached_complete htrim.reached config.sinkName
  have hreachable : ∀ s < (d.complete config.sinkName).size,
      s ∈ (d.complete config.sinkName).reachable := fun s hs =>
    he.mem_reachable_iff.2 (hreached s hs)
  calc d.minimize config
      = (d.reduce config).prune := minimize_eq config d
    _ = (d.complete config.sinkName).merge.prune := by
      rw [Dfa.reduce, he.restrict_eq_self hreachable]
    _ = (d.complete config.sinkName).prune := by
      rw [he.merge_eq_self (hd.isComplete_complete _) (htrim.allSeparated_complete hd _)]
    _ = d := htrim.prune_complete hd _

/-! ## Automata that accept no word -/

/-- An automaton that accepts no word is reduced to one state, which neither accepts nor moves. -/
theorem WellFormed.inert_minimize (hd : d.WellFormed) (config : Config)
    (h : ∀ w, d.accepts w = false) :
    (d.minimize config).size = 1 ∧ (∀ s, (d.minimize config).isAccepting s = false) ∧
      ∀ s c, (d.minimize config).move s c = none := by
  rw [hd.minimize_eq_new config h]
  exact ⟨size_new, fun s => dead_new [], fun s c => move_new⟩

end Dfa

namespace Automaton

variable {a : Automaton}

/-- A second minimization, with whatever settings, leaves the minimized automaton as it is, if some
    word is accepted. If no word is accepted, both have one state, which neither accepts nor
    moves. -/
theorem minimize_idempotent (ha : a.WellFormed) (config config' : Config) :
    let m := a.minimize config
    let m' := minimize config' m
    ((∃ w, a.accepts w = true) → m' = m) ∧
      ((∀ w, a.accepts w = false) →
        ∀ e ∈ [m, m'], e.size = 1 ∧ (∀ s, e.isAccepting s = false) ∧ ∀ s c, e.move s c = none) := by
  intro m m'
  have hd := ha.toDfa config
  have hm : m.WellFormed := ha.minimize config
  constructor
  · rintro ⟨w, hw⟩
    have htrim : m.Trim := hd.trim_minimize config ((ha.accepts_toDfa config).trans hw)
    exact htrim.minimize_eq_self hm config'
  · intro h
    have hnone : ∀ w, (a.toDfa config).accepts w = false := fun w =>
      (ha.accepts_toDfa config).trans (h w)
    have hnone' : ∀ w, m.accepts w = false := fun w => (hd.accepts_minimize config).trans (hnone w)
    refine List.forall_mem_cons.2 ⟨?_, List.forall_mem_singleton.2 ?_⟩
    · exact hd.inert_minimize config hnone
    · exact hm.inert_minimize config' hnone'

/-- An automaton with epsilon moves, minimized again with the name of one of its states for the
    sink; and one that accepts no word, the state of which gets another name each time. -/
theorem minimize_idempotent_sink :
    let states := (((Nfa.new ⟨["a", "b"], by decide⟩ "p").addState "q").addState "r").addState "s"
    let n := ((states.addMove 0 0 1).addMove 0 1 2).addMove 0 1 3
    let a : Automaton := (n.addEpsilon 2 1).setAccepting 1 true
    let config : Config := { sinkName := "p" }
    let b : Automaton := Dfa.new (.single "a") "p"
    minimize config (a.minimize {}) = a.minimize {} ∧ (a.minimize {}).size = 2 ∧
      (minimize config (b.minimize config)).size = 1 ∧
      (b.minimize config).names.toList = ["pp'"] ∧
      (minimize config (b.minimize config)).names.toList = ["pp'p"] := by
  intro states n a config b
  have hstates : states.WellFormed :=
    ((Nfa.wellFormed_new.addState _).addState _).addState _
  have hn : n.WellFormed :=
    ((hstates.addMove 0 0 (by decide)).addMove 0 1 (by decide)).addMove 0 1 (by decide)
  have ha : a.WellFormed := (hn.addEpsilon 2 (by decide)).setAccepting (by decide) true
  have hb : b.WellFormed := Dfa.wellFormed_new
  have hnone := (minimize_idempotent hb config config).2 Dfa.dead_new
  refine ⟨(minimize_idempotent ha {} config).1 ⟨["a"], by decide⟩, by decide, ?_, by decide,
    by decide⟩
  exact (hnone _ (List.mem_cons_of_mem _ List.mem_cons_self)).1

end Automaton

end Acceptors
