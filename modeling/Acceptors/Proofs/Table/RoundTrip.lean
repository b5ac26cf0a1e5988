import Acceptors.Proofs.Automaton
import Acceptors.Proofs.Listing
import Acceptors.Proofs.Table.Written

/-!
# Automata that are written are read back

The table of an automaton has a row for each state and a column for each symbol, and one more column
for the epsilon moves if there are any. If the names of the automaton can be written, so can the
table, and what is read back describes the automaton name by name.

Results:
* `checkWritable_eq_ok_iff`: the automata that are not refused.
* `Table.writable_ofNfa`: their tables can be written.
* `Table.describes_ofNfa`: a table describes its automaton.
* `Table.load_render`: what is read back is the automaton, up to the order of its states.
-/

namespace Acceptors

variable {n : Nfa} {config : Config}

/-- An automaton is refused if a name in it is no name or if a symbol is the epsilon marker. -/
theorem checkWritable_eq_ok_iff {isName : String → Bool} :
    checkWritable isName config n = .ok () ↔
      (∀ x ∈ n.alphabet.symbols, isName x = true ∧ x ≠ config.epsilon) ∧
        ∀ x ∈ n.names.toList, isName x = true := by
  rw [checkWritable]
  cases hsymbol : n.alphabet.symbols.find? fun x => x = config.epsilon || !isName x with
  | some x =>
    have hx := List.find?_some hsymbol
    have hmem := List.mem_of_find?_eq_some hsymbol
    refine iff_of_false (by simp) fun h => ?_
    simp [h.1 x hmem] at hx
  | none =>
    have hsymbols : ∀ x ∈ n.alphabet.symbols, isName x = true ∧ x ≠ config.epsilon := by
      simpa [List.find?_eq_none, and_comm] using hsymbol
    cases hname : n.names.toList.find? (!isName ·) with
    | some x =>
      have hx := List.find?_some hname
      have hmem := List.mem_of_find?_eq_some hname
      refine iff_of_false (by simp) fun h => ?_
      simp [h.2 x hmem] at hx
    | none => exact iff_of_true rfl ⟨hsymbols, by simpa [List.find?_eq_none] using hname⟩

theorem Nfa.map_name_range (n : Nfa) : (List.range n.size).map n.name = n.names.toList :=
  n.names.map_name_range

theorem Nfa.mem_names_iff {x : String} : x ∈ n.names.toList ↔ ∃ s < n.size, n.name s = x := by
  rw [← map_name_range, List.mem_map]
  simp only [List.mem_range]

namespace Table

variable {e : Edge} {row : Row} {s t c : Nat}

/-! ## The rows of an automaton -/

/-- The sets of targets of a state, by column. -/
def targetSets (n : Nfa) (s : Nat) : List StateSet :=
  (List.range n.alphabet.size).map (n.targets s) ++
    if n.hasEpsilonMoves then [n.epsilonTargets s] else []

/-- The row of a state. -/
def rowOf (n : Nfa) (s : Nat) : Row :=
  ⟨n.name s, n.isAccepting s, (targetSets n s).map fun X => X.members.map n.name⟩

theorem rows_ofNfa : (ofNfa config n).rows = (List.range n.size).map (rowOf n) := rfl

theorem mem_rows_ofNfa : row ∈ (ofNfa config n).rows ↔ ∃ s < n.size, rowOf n s = row := by
  rw [rows_ofNfa, List.mem_map]
  simp only [List.mem_range]

/-- The targets in a row are states. -/
theorem lt_of_mem_targetSets (hn : n.WellFormed) {X : StateSet} (hX : X ∈ targetSets n s) :
    ∀ t ∈ X, t < n.size := by
  rw [targetSets, List.mem_append] at hX
  rcases hX with hX | hX
  · obtain ⟨c, -, rfl⟩ := List.mem_map.1 hX
    exact hn.targets_lt s c
  · split at hX
    · rw [List.mem_singleton.1 hX]
      exact hn.epsilonTargets_lt s
    · cases hX

theorem mem_names_of_mem_cells (hn : n.WellFormed) {x : String} {cell : List String}
    (hcell : cell ∈ (rowOf n s).cells) (hx : x ∈ cell) : x ∈ n.names.toList := by
  obtain ⟨X, hX, rfl⟩ := List.mem_map.1 hcell
  obtain ⟨t, ht, rfl⟩ := List.mem_map.1 hx
  exact Nfa.mem_names_iff.2
    ⟨t, lt_of_mem_targetSets hn hX t (StateSet.mem_members.1 ht), rfl⟩

/-- The table of an automaton that is not refused can be written but for the epsilon marker. -/
theorem consistent_ofNfa (hn : n.WellFormed)
    (hsymbols : ∀ x ∈ n.alphabet.symbols, Text.isName x = true ∧ x ≠ config.epsilon)
    (hnames : ∀ x ∈ n.names.toList, Text.isName x = true) :
    (ofNfa config n).Consistent config where
  marker := by
    have hnot : config.epsilon ∉ n.alphabet.symbols := fun hmem => (hsymbols _ hmem).2 rfl
    rw [ofNfa, List.count_append, List.count_eq_zero_of_not_mem hnot]
    split <;> simp
  symbols := by
    have hkeep : ∀ x ∈ n.alphabet.symbols, decide (x ≠ config.epsilon) = true :=
      fun x hx => decide_eq_true (hsymbols x hx).2
    rw [ofNfa, List.filter_append, List.filter_eq_self.2 hkeep]
    split <;> simp
  initial := hnames _ (Nfa.mem_names_iff.2 ⟨n.start, hn.start_lt, rfl⟩)
  nodup := by
    rw [rows_ofNfa, List.map_map]
    show ((List.range n.size).map n.name).Nodup
    rw [Nfa.map_name_range]
    exact n.names.nodup_toList
  name row hrow := by
    obtain ⟨s, hs, rfl⟩ := mem_rows_ofNfa.1 hrow
    exact hnames _ (Nfa.mem_names_iff.2 ⟨s, hs, rfl⟩)
  columns row hrow := by
    obtain ⟨s, -, rfl⟩ := mem_rows_ofNfa.1 hrow
    rw [rowOf, targetSets, ofNfa]
    simp only [List.length_map, List.length_append, List.length_range, Alphabet.size]
    split <;> rfl
  targets row hrow cell hcell x hx := by
    obtain ⟨s, -, rfl⟩ := mem_rows_ofNfa.1 hrow
    exact hnames x (mem_names_of_mem_cells hn hcell hx)

/-- The table of an automaton that is not refused can be written if the epsilon marker is a
    name. -/
theorem writable_ofNfa (hn : n.WellFormed) (hmarker : Text.isName config.epsilon = true)
    (hsymbols : ∀ x ∈ n.alphabet.symbols, Text.isName x = true ∧ x ≠ config.epsilon)
    (hnames : ∀ x ∈ n.names.toList, Text.isName x = true) :
    (ofNfa config n).Writable config := by
  obtain ⟨marker, symbols, initial, nodup, name, columns, targets⟩ :=
    consistent_ofNfa hn hsymbols hnames
  refine ⟨fun entry hentry => ?_, marker, symbols, initial, nodup, name, columns, targets⟩
  rcases List.mem_append.1 hentry with hentry | hentry
  · exact (hsymbols entry hentry).1
  · split at hentry
    · rwa [List.mem_singleton.1 hentry]
    · cases hentry

/-! ## What the rows describe -/

/-- The targets of a state on the symbol of a column, or those of its epsilon moves. -/
def targetsOn (n : Nfa) (s : Nat) : Option Nat → StateSet
  | some c => n.targets s c
  | none => n.epsilonTargets s

theorem targetsOn_lt (hn : n.WellFormed) {column : Option Nat} (ht : t ∈ targetsOn n s column) :
    t < n.size := by
  cases column with
  | some c => exact hn.targets_lt s c t ht
  | none => exact hn.epsilonTargets_lt s t ht

theorem getElem?_targetSets_of_lt (hc : c < n.alphabet.size) :
    (targetSets n s)[c]? = some (n.targets s c) := by
  have hlt : c < ((List.range n.alphabet.size).map (n.targets s)).length := by
    rwa [List.length_map, List.length_range]
  rw [targetSets, List.getElem?_append_left hlt, List.getElem?_map, List.getElem?_range hc]
  rfl

theorem getElem?_targetSets_of_le (hc : n.alphabet.size ≤ c) :
    (targetSets n s)[c]? =
      (if n.hasEpsilonMoves then [n.epsilonTargets s] else [])[c - n.alphabet.size]? := by
  have hlength : ((List.range n.alphabet.size).map (n.targets s)).length = n.alphabet.size := by
    rw [List.length_map, List.length_range]
  rw [targetSets, List.getElem?_append_right (hlength.trans_le hc), hlength]

/-- A set of targets belongs to the symbol that heads its column, or to the epsilon marker. -/
theorem eq_targetsOn {i : Nat} {entry : String} {X : StateSet}
    (hmarker : config.epsilon ∉ n.alphabet) (hentry : (ofNfa config n).header[i]? = some entry)
    (hX : (targetSets n s)[i]? = some X) : X = targetsOn n s (n.alphabet.idxOf? entry) := by
  rw [ofNfa] at hentry
  by_cases hi : i < n.alphabet.size
  · rw [List.getElem?_append_left hi] at hentry
    rw [getElem?_targetSets_of_lt hi] at hX
    rw [Alphabet.get?_eq_some_iff.1 hentry]
    exact (Option.some.inj hX).symm
  · -- Behind the symbols there is at most the column of the epsilon moves.
    rw [List.getElem?_append_right (Nat.not_lt.1 hi)] at hentry
    rw [getElem?_targetSets_of_le (Nat.not_lt.1 hi)] at hX
    split at hX
    · next heps =>
      rw [if_pos heps] at hentry
      rw [List.mem_singleton.1 (List.mem_of_getElem? hX),
        List.mem_singleton.1 (List.mem_of_getElem? hentry),
        Alphabet.idxOf?_eq_none_iff.2 hmarker]
      rfl
    · cases hX

/-- Every move stands in the column that its symbol or the epsilon marker heads. -/
theorem exists_column (hn : n.WellFormed) (hmarker : config.epsilon ∉ n.alphabet)
    {column : Option Nat} (ht : t ∈ targetsOn n s column) :
    ∃ (i : Nat) (entry : String), (ofNfa config n).header[i]? = some entry ∧
      n.alphabet.idxOf? entry = column ∧ (targetSets n s)[i]? = some (targetsOn n s column) := by
  cases column with
  | some c =>
    have hc := (hn.lt_of_mem_targets ht).2
    have hsymbol : n.alphabet.get? c = some n.alphabet.symbols[c] := List.getElem?_eq_getElem hc
    refine ⟨c, n.alphabet.symbols[c], ?_, Alphabet.get?_eq_some_iff.1 hsymbol,
      getElem?_targetSets_of_lt hc⟩
    exact (List.getElem?_append_left hc).trans hsymbol
  | none =>
    have heps : n.hasEpsilonMoves = true := by
      by_contra hnot
      exact Nfa.hasEpsilonMoves_eq_false_iff.1 (Bool.eq_false_iff.2 hnot) s t ht
    refine ⟨n.alphabet.size, config.epsilon, ?_, Alphabet.idxOf?_eq_none_iff.2 hmarker, ?_⟩
    · rw [ofNfa, if_pos heps]
      exact List.getElem?_concat_length
    · rw [getElem?_targetSets_of_le (Nat.le_refl _), if_pos heps, Nat.sub_self]
      rfl

/-- The row of a state describes its moves. -/
theorem mem_edges_rowOf (hn : n.WellFormed) (hmarker : config.epsilon ∉ n.alphabet) :
    e ∈ (rowOf n s).edges n.alphabet (ofNfa config n).header ↔
      ∃ t ∈ targetsOn n s e.column, e = ⟨n.name s, e.column, n.name t⟩ := by
  rw [Row.mem_edges]
  constructor
  · rintro ⟨i, entry, cell, hentry, hcell, hsource, hcolumn, htarget⟩
    rw [rowOf, List.getElem?_map] at hcell
    obtain ⟨X, hX, rfl⟩ := Option.map_eq_some_iff.1 hcell
    obtain ⟨t, ht, htarget⟩ := List.mem_map.1 htarget
    refine ⟨t, ?_, ?_⟩
    · rw [hcolumn, ← eq_targetsOn hmarker hentry hX]
      exact StateSet.mem_members.1 ht
    · rw [htarget, show n.name s = e.source from hsource.symm]
  · rintro ⟨t, ht, he⟩
    obtain ⟨i, entry, hentry, hcolumn, hX⟩ := exists_column hn hmarker ht
    refine ⟨i, entry, (targetsOn n s e.column).members.map n.name, hentry, ?_, ?_, hcolumn.symm, ?_⟩
    · rw [rowOf, List.getElem?_map, hX]
      rfl
    · rw [he]
      rfl
    · rw [he]
      exact List.mem_map.2 ⟨t, StateSet.mem_members.2 ht, rfl⟩

/-- The table has an edge between two states if the automaton has a move. -/
theorem mem_edges_toListing (hn : n.WellFormed) (hmarker : config.epsilon ∉ n.alphabet)
    (hs : s < n.size) (ht : t < n.size) {column : Option Nat} :
    ⟨n.name s, column, n.name t⟩ ∈ (ofNfa config n).toListing.edges ↔
      t ∈ targetsOn n s column := by
  have hrows : ∀ e, e ∈ (ofNfa config n).toListing.edges ↔
      ∃ s < n.size, ∃ t ∈ targetsOn n s e.column, e = ⟨n.name s, e.column, n.name t⟩ := by
    intro e
    rw [toListing, List.mem_flatMap]
    constructor
    · rintro ⟨row, hrow, he⟩
      obtain ⟨s, hs, rfl⟩ := mem_rows_ofNfa.1 hrow
      exact ⟨s, hs, (mem_edges_rowOf hn hmarker).1 he⟩
    · rintro ⟨s, hs, he⟩
      exact ⟨rowOf n s, mem_rows_ofNfa.2 ⟨s, hs, rfl⟩, (mem_edges_rowOf hn hmarker).2 he⟩
  rw [hrows]
  constructor
  · rintro ⟨s', hs', t', ht', he⟩
    obtain ⟨hsource, -, htarget⟩ := Edge.mk.inj he
    obtain rfl := (StateNames.name_inj hs hs').1 hsource
    obtain rfl := (StateNames.name_inj ht (targetsOn_lt hn ht')).1 htarget
    exact ht'
  · exact fun h => ⟨s, hs, t, h, rfl⟩

/-- The table of an automaton describes it. -/
theorem describes_ofNfa (hn : n.WellFormed) (hmarker : config.epsilon ∉ n.alphabet) :
    (ofNfa config n).toListing.Describes n where
  alphabet_eq := rfl
  start_eq := rfl
  mem_iff x := by
    rw [List.mem_cons]
    constructor
    · rintro (rfl | hx)
      · exact Nfa.mem_names_iff.2 ⟨n.start, hn.start_lt, rfl⟩
      · obtain ⟨row, hrow, hx⟩ := List.mem_flatMap.1 hx
        obtain ⟨s, hs, rfl⟩ := mem_rows_ofNfa.1 hrow
        rcases List.mem_cons.1 hx with rfl | hx
        · exact Nfa.mem_names_iff.2 ⟨s, hs, rfl⟩
        · obtain ⟨cell, hcell, hx⟩ := List.mem_flatten.1 hx
          exact mem_names_of_mem_cells hn hcell hx
    · intro hx
      obtain ⟨s, hs, rfl⟩ := Nfa.mem_names_iff.1 hx
      exact .inr (List.mem_flatMap.2
        ⟨rowOf n s, mem_rows_ofNfa.2 ⟨s, hs, rfl⟩, List.mem_cons_self⟩)
  accepting_iff s hs := by
    show _ ∈ ((ofNfa config n).rows.filter (·.accepting)).map (·.name) ↔ _
    rw [List.mem_map]
    constructor
    · rintro ⟨row, hrow, hname⟩
      obtain ⟨hrow, haccepting⟩ := List.mem_filter.1 hrow
      obtain ⟨s', hs', rfl⟩ := mem_rows_ofNfa.1 hrow
      obtain rfl := (StateNames.name_inj hs' hs).1 hname
      exact haccepting
    · exact fun h => ⟨rowOf n s, List.mem_filter.2 ⟨mem_rows_ofNfa.2 ⟨s, hs, rfl⟩, h⟩, rfl⟩
  edge_iff s hs t ht c := mem_edges_toListing hn hmarker hs ht
  epsilon_iff s hs t ht := mem_edges_toListing hn hmarker hs ht

/-! ## Reading what was written -/

theorem render_eq_ok_iff {a : Automaton} {text : String} :
    render config a = .ok text ↔
      checkWritable Text.isName config a.toNfa = .ok () ∧ (ofNfa config a.toNfa).write = text := by
  rw [render]
  cases checkWritable Text.isName config a.toNfa with
  | error fault => simp [Except.map]
  | ok _ => simp [Except.map]

/-- An automaton is written exactly if all its symbols and states have names and no symbol is the
    epsilon marker. What is read back from the text has the same symbols in the same columns and the
    same states with the same moves, though possibly in another order. -/
theorem load_render {a : Automaton} (ha : a.WellFormed)
    (hmarker : Text.isName config.epsilon = true) :
    ((∃ text, render config a = .ok text) ↔
      (∀ x ∈ a.alphabet.symbols, Text.isName x = true ∧ x ≠ config.epsilon) ∧
        ∀ x ∈ a.names.toList, Text.isName x = true) ∧
      ∀ text, render config a = .ok text →
        ∃ b f, load config text = .ok b ∧ Nfa.MatchedByName b a.toNfa f := by
  have hnames : a.toNfa.names = a.names := by cases a <;> rfl
  simp only [render_eq_ok_iff, checkWritable_eq_ok_iff, Automaton.alphabet_toNfa, hnames]
  refine ⟨⟨fun ⟨_, h, _⟩ => h, fun h => ⟨_, h, rfl⟩⟩, ?_⟩
  rintro _ ⟨⟨hsymbols, hstates⟩, rfl⟩
  have hn := ha.toNfa
  rw [← Automaton.alphabet_toNfa] at hsymbols
  have hnot : config.epsilon ∉ a.toNfa.alphabet := fun hmem => (hsymbols _ hmem).2 rfl
  have hparse := (writable_ofNfa hn hmarker hsymbols (hnames ▸ hstates)).parse_write
  obtain ⟨f, hf⟩ := (describes_ofNfa hn hnot).exists_matchedByName hn
  refine ⟨_, f, ?_, hf⟩
  rw [load, hparse]
  rfl

/-- A star, whose start state is not the first and which has epsilon moves. -/
theorem load_render_star :
    let n := (((Nfa.new (.single "a") "p").addMove 0 0 0).setAccepting 0 true).star {}
    ∃ text b f, render {} n = .ok text ∧ load {} text = .ok b ∧ Nfa.MatchedByName b n f := by
  intro n
  have hn : (Automaton.nfa n).WellFormed :=
    ((Nfa.wellFormed_new.addMove 0 0 (by decide)).setAccepting (by decide) true).star
  have hmarker : Text.isName ({} : Config).epsilon = true := by decide
  obtain ⟨hwritten, hread⟩ := load_render hn hmarker
  obtain ⟨text, htext⟩ := hwritten.2 ⟨by decide, by decide⟩
  obtain ⟨b, f, hb, hf⟩ := hread text htext
  exact ⟨text, b, f, htext, hb, hf⟩

end Table

end Acceptors
