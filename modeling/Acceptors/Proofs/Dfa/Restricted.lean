import Acceptors.Dfa.Restrict
import Acceptors.Proofs.Dfa.Renumbered

/-!
# Restriction, reachable and productive states

A run of a restricted automaton is a run of the automaton that does not leave the states that are
kept. As long as no word of a state is lost with the states that are dropped, it keeps its words:
what a search from the start does not reach is on no run from there, and what leads to no accepting
state is on no run to one.

Results:
* `Dfa.toList_names_restrict`, `Dfa.kept_eq_map`: the names and the order of the states that are
  kept.
* `Dfa.StaysIn`, `Dfa.WellFormed.run_restrict_iff`: the runs of a restricted automaton.
* `Dfa.WellFormed.acceptsFrom_restrict_iff`, `Dfa.WellFormed.acceptsFrom_restrict`: the words of its
  states, and states that keep their words.
* `Dfa.WellFormed.mem_reachable_iff`, `Dfa.WellFormed.mem_productive_iff`: what the searches find.
-/

namespace Acceptors

/-! ## Searches backwards -/

/-- What a node is reached from, against the direction of the successors. -/
theorem Search.leads_reverse {next back : Nat → List Nat} (h : ∀ s t, s ∈ back t ↔ t ∈ next s)
    {s t : Nat} : Leads back t s ↔ Leads next s t := by
  constructor
  · intro hlead
    induction hlead with
    | refl => exact .refl _
    | step hr _ ih => exact ih.trans (.step ((h _ _).1 hr) (.refl _))
  · intro hlead
    induction hlead with
    | refl => exact .refl _
    | step hr _ ih => exact ih.trans (.step ((h _ _).2 hr) (.refl _))

namespace Dfa

variable {d : Dfa} {keep : StateSet} {s t i j c : Nat} {a : String} {v w : List String}

/-! ## What words lead to -/

theorem WellFormed.mem_successors_iff (hd : d.WellFormed) :
    t ∈ d.successors s ↔ ∃ a, d.next s a = some t := by
  have hcell : t ∈ d.successors s ↔ ∃ c, d.move s c = some t := by
    simp only [successors, List.mem_filterMap, id_eq, exists_eq_right, Grid.row, move, Grid.get?,
      Array.mem_toList_iff, Array.mem_iff_getElem?]
    cases d.moves.rows[s]? with
    | none => simp
    | some row => simp [Option.join_eq_some_iff]
  rw [hcell]
  constructor
  · rintro ⟨c, hc⟩
    obtain ⟨a, ha⟩ := Alphabet.exists_idxOf?_eq_some (hd.lt_of_move hc).2
    exact ⟨a, next_eq_some_iff.2 ⟨c, ha, hc⟩⟩
  · rintro ⟨a, ha⟩
    obtain ⟨c, -, hc⟩ := next_eq_some_iff.1 ha
    exact ⟨c, hc⟩

theorem WellFormed.leads_iff (hd : d.WellFormed) :
    Search.Leads d.successors s t ↔ ∃ w, d.run s w = some t := by
  constructor
  · intro h
    induction h with
    | refl s => exact ⟨[], rfl⟩
    | step hr _ ih =>
      obtain ⟨a, ha⟩ := hd.mem_successors_iff.1 hr
      obtain ⟨w, hw⟩ := ih
      refine ⟨a :: w, ?_⟩
      rw [run_cons, ha]
      exact hw
  · rintro ⟨w, hw⟩
    induction w generalizing s with
    | nil =>
      cases hw
      exact .refl _
    | cons a w ih =>
      rw [run_cons] at hw
      obtain ⟨r, hr, hw⟩ := Option.bind_eq_some_iff.1 hw
      exact .step (hd.mem_successors_iff.2 ⟨a, hr⟩) (ih hw)

theorem WellFormed.successors_lt (hd : d.WellFormed) : ∀ t ∈ d.successors s, t < d.size := by
  intro t ht
  obtain ⟨a, ha⟩ := hd.mem_successors_iff.1 ht
  exact hd.next_lt ha

/-- A state is reachable if some word leads to it from the start. -/
theorem WellFormed.mem_reachable_iff (hd : d.WellFormed) :
    s ∈ d.reachable ↔ ∃ w, d.run d.start w = some s := by
  rw [reachable, Search.mem_reach (fun _ _ => hd.successors_lt) (by simpa using hd.start_lt)]
  simp only [List.mem_singleton, exists_eq_left, hd.leads_iff]

/-- A state is productive if it accepts some word. -/
theorem WellFormed.mem_productive_iff (hd : d.WellFormed) :
    s ∈ d.productive ↔ ∃ w, d.acceptsFrom s w = true := by
  have hback : ∀ s t, s ∈ (Search.sources d.size d.successors)[t]?.getD [] ↔
      t ∈ d.successors s := by
    intro s t
    rw [Search.mem_sources]
    refine ⟨fun h => h.2.2, fun h => ⟨?_, hd.successors_lt t h, h⟩⟩
    obtain ⟨a, ha⟩ := hd.mem_successors_iff.1 h
    exact hd.lt_of_next ha
  show s ∈ Search.reach _ (fun s => (Search.sources d.size d.successors)[s]?.getD []) _ ↔ _
  rw [Search.mem_reach]
  · simp only [Search.leads_reverse hback, hd.leads_iff, acceptsFrom_iff, StateSet.mem_members]
    constructor
    · rintro ⟨t, ht, w, hw⟩
      exact ⟨w, t, hw, ht⟩
    · rintro ⟨w, t, hw, ht⟩
      exact ⟨t, ht, w, hw⟩
  · intro t _ s hs
    obtain ⟨a, ha⟩ := hd.mem_successors_iff.1 ((hback s t).1 hs)
    exact hd.lt_of_next ha
  · exact fun s hs => hd.accepting_lt s (StateSet.mem_members.1 hs)

theorem WellFormed.not_mem_productive_iff (hd : d.WellFormed) : s ∉ d.productive ↔ d.Dead s := by
  rw [hd.mem_productive_iff, ← not_dead_iff, not_not]

/-! ## Restriction -/

/-- The states that a restriction keeps, by their new numbers. -/
def kept (d : Dfa) (keep : StateSet) : List Nat := (List.range d.size).filter keep.contains

theorem restrict_eq (d : Dfa) (keep : StateSet) :
    d.restrict keep = d.renumber (d.names.restrict keep) (d.kept keep) (d.kept keep).idxOf?
      (((d.kept keep).idxOf? d.start).getD 0) := rfl

theorem alphabet_restrict : (d.restrict keep).alphabet = d.alphabet := rfl

theorem mem_kept_iff : s ∈ d.kept keep ↔ s < d.size ∧ s ∈ keep := by
  rw [kept, List.mem_filter, List.mem_range]
  rfl

theorem nodup_kept : (d.kept keep).Nodup := List.nodup_range.filter _

theorem mem_keep_of_getElem?_kept (hi : (d.kept keep)[i]? = some s) : s < d.size ∧ s ∈ keep :=
  mem_kept_iff.1 (List.mem_of_getElem? hi)

theorem exists_getElem?_kept (hs : s < d.size) (hkeep : s ∈ keep) :
    ∃ i : Nat, (d.kept keep)[i]? = some s := List.mem_iff_getElem?.1 (mem_kept_iff.2 ⟨hs, hkeep⟩)

theorem size_restrict : (d.restrict keep).size = (d.kept keep).length := by
  have hnames : (d.restrict keep).size = (d.names.toList.zipIdx.filter (·.2 ∈ keep)).length := by
    rw [← List.length_map Prod.fst, ← StateNames.toList_restrict, StateNames.length_toList]
    rfl
  have hsnd : d.names.toList.zipIdx.map Prod.snd = List.range d.size := by
    rw [List.zipIdx_map_snd, StateNames.length_toList, List.range_eq_range']
    rfl
  rw [hnames, kept, ← hsnd, List.filter_map, List.length_map]
  congr 2
  funext x
  exact Bool.decide_eq_true

theorem getElem?_kept_of_lt (hi : i < (d.restrict keep).size) :
    ∃ s, (d.kept keep)[i]? = some s := by
  rw [size_restrict] at hi
  exact ⟨_, List.getElem?_eq_getElem hi⟩

theorem lt_size_of_getElem?_kept (hi : (d.kept keep)[i]? = some s) :
    i < (d.restrict keep).size := by
  rw [size_restrict]
  exact (List.getElem?_eq_some_iff.1 hi).1

/-- A restricted automaton has the moves between states that are kept. -/
theorem next_restrict_eq_some_iff (hi : (d.kept keep)[i]? = some s) :
    (d.restrict keep).next i a = some j ↔
      ∃ t, (d.kept keep)[j]? = some t ∧ d.next s a = some t := by
  have hnext : (d.restrict keep).next i a = (d.next s a).bind (d.kept keep).idxOf? := by
    rw [restrict_eq]
    exact next_renumber size_restrict hi
  rw [hnext, Option.bind_eq_some_iff]
  simp only [idxOf?_eq_some_iff_getElem? nodup_kept]
  exact exists_congr fun t => and_comm

theorem isAccepting_restrict (hi : (d.kept keep)[i]? = some s) :
    (d.restrict keep).isAccepting i = d.isAccepting s := by
  rw [restrict_eq]
  exact isAccepting_renumber hi

/-! ## Names and order of the states that are kept -/

theorem pairwise_kept : (d.kept keep).Pairwise (· < ·) := List.pairwise_lt_range.filter _

theorem toList_names_restrict : (d.restrict keep).names.toList = (d.kept keep).map d.name := by
  have hnumbered : d.names.toList.zipIdx = (List.range d.size).map fun s => (d.name s, s) := by
    rw [← StateNames.map_name_range]
    apply List.ext_getElem <;> simp [name, size]
  have hkeep : ∀ s, decide (s ∈ keep) = keep.contains s := fun _ => Bool.decide_eq_true
  show (d.names.restrict keep).toList = _
  rw [StateNames.toList_restrict, hnumbered, List.filter_map, List.map_map, kept]
  simp only [Function.comp_def, hkeep]

/-- A restricted automaton keeps the names of the states that are kept. -/
theorem name_restrict (hi : (d.kept keep)[i]? = some s) : (d.restrict keep).name i = d.name s := by
  have hname := StateNames.getElem?_toList (lt_size_of_getElem?_kept hi)
  rw [toList_names_restrict, List.getElem?_map, hi] at hname
  exact (Option.some.inj hname).symm

/-- The state that a state of the restricted automaton was. -/
def oldState (d : Dfa) (keep : StateSet) (i : Nat) : Nat := (d.kept keep)[i]?.getD 0

theorem getElem?_kept_oldState (hi : i < (d.restrict keep).size) :
    (d.kept keep)[i]? = some (d.oldState keep i) := by
  obtain ⟨s, hs⟩ := getElem?_kept_of_lt hi
  rw [oldState, hs, Option.getD_some]

/-- The states that are kept are those that the states of the restricted automaton were. -/
theorem kept_eq_map : d.kept keep = (List.range (d.restrict keep).size).map (d.oldState keep) := by
  refine (map_range_eq size_restrict.symm fun i s hs => ?_).symm
  rw [oldState, hs, Option.getD_some]

theorem oldState_lt_iff (hi : i < (d.restrict keep).size) (hj : j < (d.restrict keep).size) :
    d.oldState keep i < d.oldState keep j ↔ i < j := by
  have hmono : ∀ {i j}, i < (d.restrict keep).size → j < (d.restrict keep).size → i < j →
      d.oldState keep i < d.oldState keep j := by
    intro i j hi hj hij
    obtain ⟨hi', hold⟩ := List.getElem?_eq_some_iff.1 (getElem?_kept_oldState hi)
    obtain ⟨hj', hold'⟩ := List.getElem?_eq_some_iff.1 (getElem?_kept_oldState hj)
    rw [← hold, ← hold']
    exact List.pairwise_iff_getElem.1 pairwise_kept i j hi' hj' hij
  refine ⟨fun h => ?_, hmono hi hj⟩
  rcases Nat.lt_trichotomy i j with hij | rfl | hji
  · exact hij
  · exact absurd h (Nat.lt_irrefl _)
  · exact absurd h (Nat.lt_asymm (hmono hj hi hji))

/-! ## Runs that stay among some states -/

/-- As far as a word leads from the state, it leads through states of `keep`. -/
def StaysIn (d : Dfa) (keep : StateSet) (s : Nat) (w : List String) : Prop :=
  ∀ u v q, u ++ v = w → d.run s u = some q → q ∈ keep

theorem staysIn_nil : d.StaysIn keep s [] ↔ s ∈ keep := by
  constructor
  · exact fun h => h [] [] s rfl rfl
  · intro hs u v q huv hq
    obtain ⟨rfl, rfl⟩ := List.append_eq_nil_iff.1 huv
    cases hq
    exact hs

theorem staysIn_cons (hnext : d.next s a = some t) :
    d.StaysIn keep s (a :: w) ↔ s ∈ keep ∧ d.StaysIn keep t w := by
  have hrun : ∀ u, d.run s (a :: u) = d.run t u := by
    intro u
    rw [run_cons, hnext]
    rfl
  constructor
  · intro h
    refine ⟨h [] (a :: w) s rfl rfl, fun u v q huv hq => ?_⟩
    exact h (a :: u) v q (by rw [List.cons_append, huv]) (by rwa [hrun])
  · rintro ⟨hs, h⟩ u v q huv hq
    cases u with
    | nil =>
      cases hq
      exact hs
    | cons b u =>
      obtain ⟨rfl, hrest⟩ := List.cons.inj huv
      exact h u v q hrest (by rwa [hrun] at hq)

theorem StaysIn.mem (h : d.StaysIn keep s w) (hrun : d.run s w = some t) : t ∈ keep :=
  h w [] t (List.append_nil w) hrun

/-- A run of a restricted automaton is a run that does not leave the states that are kept. -/
theorem WellFormed.run_restrict_iff (hd : d.WellFormed) (hi : (d.kept keep)[i]? = some s) :
    (d.restrict keep).run i w = some j ↔
      ∃ t, (d.kept keep)[j]? = some t ∧ d.run s w = some t ∧ d.StaysIn keep s w := by
  have hs := (mem_keep_of_getElem?_kept hi).2
  induction w generalizing i s with
  | nil =>
    constructor
    · rintro ⟨⟩
      exact ⟨s, hi, rfl, staysIn_nil.2 hs⟩
    · rintro ⟨_, hj, ⟨⟩, -⟩
      exact congrArg some (eq_of_getElem?_eq_some nodup_kept hi hj)
  | cons a w ih =>
    rw [run_cons, Option.bind_eq_some_iff]
    constructor
    · rintro ⟨k, hk, hrun⟩
      obtain ⟨r, hr, hnext⟩ := (next_restrict_eq_some_iff hi).1 hk
      obtain ⟨t, ht, hrun, hstays⟩ := (ih hr (mem_keep_of_getElem?_kept hr).2).1 hrun
      refine ⟨t, ht, ?_, (staysIn_cons hnext).2 ⟨hs, hstays⟩⟩
      rw [run_cons, hnext]
      exact hrun
    · rintro ⟨t, ht, hrun, hstays⟩
      rw [run_cons, Option.bind_eq_some_iff] at hrun
      obtain ⟨r, hnext, hrun⟩ := hrun
      have hstays := ((staysIn_cons hnext).1 hstays).2
      have hr : r ∈ keep := hstays [] w r rfl rfl
      obtain ⟨k, hk⟩ := exists_getElem?_kept (hd.next_lt hnext) hr
      refine ⟨k, (next_restrict_eq_some_iff hi).2 ⟨r, hk, hnext⟩, ?_⟩
      exact (ih hk hr).2 ⟨t, ht, hrun, hstays⟩

/-- A state of a restricted automaton accepts the words whose runs stay among the states that are
    kept and end in an accepting one. -/
theorem WellFormed.acceptsFrom_restrict_iff (hd : d.WellFormed) (hi : (d.kept keep)[i]? = some s) :
    (d.restrict keep).acceptsFrom i w = true ↔
      ∃ t, d.run s w = some t ∧ d.StaysIn keep s w ∧ d.isAccepting t = true := by
  rw [acceptsFrom_iff]
  simp only [hd.run_restrict_iff hi]
  constructor
  · rintro ⟨j, ⟨t, ht, hrun, hstays⟩, haccepting⟩
    rw [isAccepting_restrict ht] at haccepting
    exact ⟨t, hrun, hstays, haccepting⟩
  · rintro ⟨t, hrun, hstays, haccepting⟩
    obtain ⟨j, hj⟩ := exists_getElem?_kept (hd.isAccepting_lt haccepting) (hstays.mem hrun)
    exact ⟨j, ⟨t, hj, hrun, hstays⟩, by rwa [isAccepting_restrict hj]⟩

/-- A state keeps its words if the dropped states that it leads to have none. -/
theorem WellFormed.acceptsFrom_restrict (hd : d.WellFormed) (hi : (d.kept keep)[i]? = some s)
    (hdead : ∀ u q, d.run s u = some q → q ∉ keep → d.Dead q) :
    (d.restrict keep).acceptsFrom i w = d.acceptsFrom s w := by
  rw [Bool.eq_iff_iff, hd.acceptsFrom_restrict_iff hi, acceptsFrom_iff]
  refine exists_congr fun t => and_congr_right fun hrun => and_iff_right_of_imp fun haccepting => ?_
  -- the run stays in, as it would not be accepted from a state that is dropped
  rintro u v q rfl hq
  by_contra hnot
  have hfalse := hdead u q hq hnot v
  rw [run_append, hq] at hrun
  rw [acceptsFrom_iff.2 ⟨t, hrun, haccepting⟩] at hfalse
  cases hfalse

theorem WellFormed.getElem?_kept_start (hd : d.WellFormed) (hstart : d.start ∈ keep) :
    (d.kept keep)[(d.restrict keep).start]? = some d.start := by
  obtain ⟨i, hi⟩ := exists_getElem?_kept hd.start_lt hstart
  have hidx := (idxOf?_eq_some_iff_getElem? nodup_kept).2 hi
  show (d.kept keep)[((d.kept keep).idxOf? d.start).getD 0]? = _
  rwa [hidx]

theorem WellFormed.restrict (hd : d.WellFormed) (hstart : d.start ∈ keep) :
    (d.restrict keep).WellFormed := by
  rw [restrict_eq]
  refine wellFormed_renumber size_restrict ?_ fun t j hj => ?_
  · exact (List.getElem?_eq_some_iff.1 (hd.getElem?_kept_start hstart)).1
  · exact (List.getElem?_eq_some_iff.1 ((idxOf?_eq_some_iff_getElem? nodup_kept).1 hj)).1

end Dfa

end Acceptors
