import Acceptors.Proofs.Minimal.Arranged

/-!
# The names of minimized states

A state of the minimized automaton is made from the states of the completed one that words reach and
that accept its words. Its name is made from their names in the order of their numbers: merging
joins the names, and the other steps keep them. So its name can be written in a grammar unless two
of its states, one after the other, have names that form an arrow. Conversely all states that words
reach and that accept the same words are made into one state, as long as they accept some word or no
state does; the others are dropped, and their names with them.

Results:
* `Dfa.WellFormed.exists_gathers_minimize`: what a state is made from, and its name.
* `Dfa.WellFormed.exists_minimized`: which states are made into one.
* `Dfa.Clash`: two states whose names form an arrow in the name of a minimized state.
* `Dfa.WellFormed.isName_minimize`, `Dfa.WellFormed.isGrammarName_minimize_iff`: whether the names
  can be written.
-/

namespace Acceptors

/-! ## Neighbours -/

/-- In an ascending list two members are neighbours if no member is between them. -/
theorem isChain_iff_of_ascending {l : List Nat} {R : Nat → Nat → Prop} (h : l.Pairwise (· < ·)) :
    l.IsChain R ↔
      ∀ s ∈ l, ∀ t ∈ l, s < t → (∀ r ∈ l, s < r → ¬ r < t) → R s t := by
  rw [List.isChain_iff_forall_rel_of_append_cons_cons]
  constructor
  · intro hchain s hs t ht hst hbetween
    obtain ⟨front, back, rfl⟩ := List.append_of_mem hs
    obtain ⟨-, hback, hfront⟩ := List.pairwise_append.1 h
    obtain ⟨hafter, hback⟩ := List.pairwise_cons.1 hback
    have ht : t ∈ back := by
      rcases List.mem_append.1 ht with ht | ht
      · exact absurd (hfront t ht s List.mem_cons_self) (Nat.lt_asymm hst)
      · exact (List.mem_cons.1 ht).resolve_left (Nat.ne_of_gt hst)
    -- the next member is `t`, as otherwise it would be between `s` and `t`
    cases back with
    | nil => cases ht
    | cons u back =>
      rcases List.mem_cons.1 ht with rfl | ht
      · exact hchain rfl
      · exact absurd ((List.pairwise_cons.1 hback).1 t ht)
          (hbetween u (by simp) (hafter u List.mem_cons_self))
  · rintro hneighbours s t front back rfl
    obtain ⟨-, hback, hfront⟩ := List.pairwise_append.1 h
    obtain ⟨hafter, hback⟩ := List.pairwise_cons.1 hback
    refine hneighbours s (by simp) t (by simp) (hafter t List.mem_cons_self) fun r hr hsr hrt => ?_
    rcases List.mem_append.1 hr with hr | hr
    · exact Nat.lt_asymm hsr (hfront r hr s List.mem_cons_self)
    · rcases List.mem_cons.1 hr with rfl | hr
      · exact Nat.lt_irrefl _ hsr
      · rcases List.mem_cons.1 hr with rfl | hr
        · exact Nat.lt_irrefl _ hrt
        · exact Nat.lt_asymm hrt ((List.pairwise_cons.1 hback).1 r hr)

namespace Dfa

open StateNames (Renamed)

variable {d m : Dfa} {keep : StateSet} {config : Config} {i j r s t : Nat} {members : List Nat}
variable {w : List String}

/-! ## What a state is made from -/

/-- The state `i` of `m` is made from states of `d`: from all those that are reached and that accept
    its words. Their names in order make its name. -/
structure Gathers (d m : Dfa) (i : Nat) (members : List Nat) : Prop where
  ascending : members.Pairwise (· < ·)
  mem_iff : ∀ s, s ∈ members ↔ d.Reached s ∧ ∀ w, d.acceptsFrom s w = m.acceptsFrom i w
  ne_nil : members ≠ []
  renamed : Renamed (String.join (members.map d.name)) (m.name i)

/-- What a state is made from are the states that accept what any of them accepts. -/
theorem Gathers.mem_iff_same (h : d.Gathers m i members) (hs : s ∈ members) :
    t ∈ members ↔ d.Reached t ∧ d.Same s t := by
  have hwords := ((h.mem_iff s).1 hs).2
  rw [h.mem_iff]
  refine and_congr_right fun _ => forall_congr' fun w => ?_
  rw [hwords]
  exact eq_comm

/-- Each state of the minimized automaton is made from states of the completed one. -/
theorem WellFormed.exists_gathers_minimize (hd : d.WellFormed) (config : Config)
    (hi : i < (d.minimize config).size) :
    ∃ members, (d.complete config.sinkName).Gathers (d.minimize config) i members := by
  have he := hd.complete config.sinkName
  have hclass := hd.mem_zip_of_lt_size_minimize config hi
  have hnames := List.forall₂_map_left_iff.1 (hd.givenInTurn_reduce config).forall₂_renamed
  obtain ⟨s, hs⟩ := he.exists_mem_of_mem_wordClasses (List.of_mem_zip hclass).1
  exact ⟨_, pairwise_statesFor, fun _ => he.mem_statesFor_iff.trans (and_congr_right' funext_iff),
    List.ne_nil_of_mem hs, List.forall₂_zip hnames hclass⟩

/-- A state of the completed automaton that is reached goes into a state of the minimized one if it
    accepts some word, or if the automaton accepts none. -/
theorem WellFormed.exists_minimized (hd : d.WellFormed) (config : Config)
    (hs : (d.complete config.sinkName).Reached s)
    (h : (∃ w, (d.complete config.sinkName).acceptsFrom s w = true) ∨
      ∀ w, (d.complete config.sinkName).accepts w = false) :
    ∃ i < (d.minimize config).size, ∃ members,
      (d.complete config.sinkName).Gathers (d.minimize config) i members ∧ s ∈ members := by
  have hm := hd.minimize config
  have hsame : ∀ w, (d.complete config.sinkName).accepts w = (d.minimize config).accepts w :=
    fun w => (hd.accepts_complete _).trans (hd.accepts_minimize config).symm
  obtain ⟨v, hv⟩ := id hs
  have hwords : ∀ w, (d.complete config.sinkName).acceptsFrom s w =
      (d.minimize config).accepts (v ++ w) := by
    intro w
    rw [← hsame, accepts, acceptsFrom_append, hv]
    rfl
  have hstate : ∃ i < (d.minimize config).size, ∀ w,
      (d.complete config.sinkName).acceptsFrom s w = (d.minimize config).acceptsFrom i w := by
    rcases h with ⟨w, hw⟩ | hnone
    -- the word that reaches `s` leads the minimized automaton somewhere, or there is one state only
    · rw [hwords, accepts, acceptsFrom_append, Option.any_eq_true] at hw
      obtain ⟨i, hi, -⟩ := hw
      refine ⟨i, hm.run_lt hm.start_lt hi, fun w => ?_⟩
      rw [hwords, accepts, acceptsFrom_append, hi]
      rfl
    · refine ⟨_, hm.start_lt, fun w => ?_⟩
      rw [hwords, ← hsame, hnone]
      exact (hnone w).symm.trans (hsame w)
  obtain ⟨i, hi, hwords⟩ := hstate
  obtain ⟨members, hmembers⟩ := hd.exists_gathers_minimize config hi
  exact ⟨i, hi, members, hmembers, (hmembers.mem_iff s).2 ⟨hs, hwords⟩⟩

/-- A state of the minimized automaton accepts some word, or the automaton accepts none. -/
theorem WellFormed.productive_minimize (hd : d.WellFormed) (config : Config)
    (hi : i < (d.minimize config).size) :
    (∃ w, (d.minimize config).acceptsFrom i w = true) ∨ ∀ w, d.accepts w = false := by
  rcases d.accepts_some_or_none with ⟨w, hw⟩ | hnone
  · exact .inl ((hd.trim_minimize config hw).productive i hi)
  · exact .inr hnone

/-! ## Whether the names can be written -/

/-- Two states that are made into one state of the minimized automaton, one after the other, and
    whose names form an arrow there. -/
structure Clash (d : Dfa) (s t : Nat) : Prop where
  lt : s < t
  reached_left : d.Reached s
  reached_right : d.Reached t
  same : d.Same s t
  neighbours : ∀ r, s < r → r < t → d.Reached r → ¬ d.Same s r
  kept : (∃ w, d.acceptsFrom s w = true) ∨ ∀ w, d.accepts w = false
  arrow : Text.FormArrow (d.name s) (d.name t)

theorem mem_names_iff {x : String} : x ∈ d.names.toList ↔ ∃ s < d.size, d.name s = x := by
  rw [← StateNames.map_name_range, List.mem_map]
  simp only [List.mem_range]
  rfl

theorem Gathers.lt_size (h : d.Gathers m i members) (hd : d.WellFormed) :
    ∀ s ∈ members, s < d.size := fun s hs => hd.lt_of_reached ((h.mem_iff s).1 hs).1

/-- The names of the states that a state is made from. -/
theorem Gathers.forall_mem_names (h : d.Gathers m i members) (hd : d.WellFormed) {P : String → Prop}
    (hnames : ∀ x ∈ d.names.toList, P x) : ∀ x ∈ members.map d.name, P x :=
  List.forall_mem_map.2 fun s hs => hnames _ (mem_names_iff.2 ⟨s, h.lt_size hd s hs, rfl⟩)

/-- Names of states of minimized automata can be written in tables. -/
theorem WellFormed.isName_minimize (hd : d.WellFormed) (config : Config)
    (hnames : ∀ x ∈ (d.complete config.sinkName).names.toList, Text.isName x = true) :
    ∀ x ∈ (d.minimize config).names.toList, Text.isName x = true := by
  intro x hx
  obtain ⟨i, hi, rfl⟩ := mem_names_iff.1 hx
  obtain ⟨members, h⟩ := hd.exists_gathers_minimize config hi
  exact h.renamed.isName (Text.isName_join (List.map_eq_nil_iff.not.2 h.ne_nil)
    (h.forall_mem_names (hd.complete config.sinkName) hnames))

/-- The name of a state can be written in a grammar if no two neighbours among the states that it is
    made from have names that form an arrow. -/
theorem Gathers.isGrammarName_iff (h : d.Gathers m i members) (hd : d.WellFormed)
    (hnames : ∀ x ∈ d.names.toList, Text.isGrammarName x = true) :
    Text.isGrammarName (m.name i) = true ↔
      ∀ s ∈ members, ∀ t ∈ members, s < t → (∀ r ∈ members, s < r → ¬ r < t) →
        ¬ Text.FormArrow (d.name s) (d.name t) := by
  have hne : members.map d.name ≠ [] := List.map_eq_nil_iff.not.2 h.ne_nil
  have hparts := h.forall_mem_names hd hnames
  have hjoin : Text.isName (String.join (members.map d.name)) = true :=
    Text.isName_join hne fun x hx => Text.isName_of_isGrammarName (hparts x hx)
  rw [h.renamed.isGrammarName_iff hjoin, Text.isGrammarName_join_iff hne hparts, List.isChain_map,
    isChain_iff_of_ascending h.ascending]

/-- Names of states of minimized automata can be written in grammars unless some state is made from
    two states that clash. -/
theorem WellFormed.isGrammarName_minimize_iff (hd : d.WellFormed) (config : Config)
    (hnames : ∀ x ∈ (d.complete config.sinkName).names.toList, Text.isGrammarName x = true) :
    (∀ x ∈ (d.minimize config).names.toList, Text.isGrammarName x = true) ↔
      ∀ s t, ¬ (d.complete config.sinkName).Clash s t := by
  have hcomplete := hd.complete config.sinkName
  constructor
  · intro h s t hclash
    obtain ⟨i, hi, members, hgathers, hs⟩ :=
      hd.exists_minimized config hclash.reached_left hclash.kept
    have ht : t ∈ members := (hgathers.mem_iff_same hs).2 ⟨hclash.reached_right, hclash.same⟩
    have hbetween : ∀ r ∈ members, s < r → ¬ r < t := fun r hr hsr hrt =>
      hclash.neighbours r hsr hrt ((hgathers.mem_iff_same hs).1 hr).1
        ((hgathers.mem_iff_same hs).1 hr).2
    have hname := h _ (mem_names_iff.2 ⟨i, hi, rfl⟩)
    exact (hgathers.isGrammarName_iff hcomplete hnames).1 hname s hs t ht hclash.lt hbetween
      hclash.arrow
  · intro h x hx
    obtain ⟨i, hi, rfl⟩ := mem_names_iff.1 hx
    obtain ⟨members, hgathers⟩ := hd.exists_gathers_minimize config hi
    refine (hgathers.isGrammarName_iff hcomplete hnames).2 fun s hs t ht hst hbetween harrow =>
      h s t ?_
    have hwords := ((hgathers.mem_iff s).1 hs).2
    exact
      { lt := hst
        reached_left := ((hgathers.mem_iff s).1 hs).1
        reached_right := ((hgathers.mem_iff t).1 ht).1
        same := ((hgathers.mem_iff_same hs).1 ht).2
        neighbours := fun r hsr hrt hr hsame =>
          hbetween r ((hgathers.mem_iff_same hs).2 ⟨hr, hsame⟩) hsr hrt
        kept := by simpa only [hwords, hd.accepts_complete] using hd.productive_minimize config hi
        arrow := harrow }

end Dfa

end Acceptors
