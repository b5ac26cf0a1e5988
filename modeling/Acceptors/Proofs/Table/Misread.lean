import Acceptors.Proofs.Table.RoundTrip

/-!
# Tables under an arbitrary epsilon marker

The epsilon marker stands last in the header of a table, between the commas that separate the names
there, but unlike these it may be any text. If it has line breaks or commas in it, or nothing but
blanks, then the header does not fit the rows any more, and the table is refused. If it has blanks
around it or a comma at an end, then what remains of it is read as one more symbol.

Results:
* `Table.columns_of_parse`: a table that is read has rows of one length.
* `Table.MarkerMisread`: the markers that are read as a symbol.
* `Table.MarkerMisread.exists_accepts_ne`: under such a marker, some automaton is read as another.
* `Table.accepts_eq_of_load_render`: under other markers, words are kept or the table is refused.
-/

namespace Acceptors

namespace Table

open Text

variable {config : Config} {n : Nfa} {marker text x : String} {rows : List Row} {table : Table}

/-! ## Rows and columns -/

/-- Every line that is read as a row has as many sets as there are columns. -/
theorem columns_of_readRows {columns : Nat} {before : List String}
    {numbered : List (Nat × List Char)} (h : readRows columns before numbered = .ok rows) :
    ∀ line ∈ numbered.map Prod.snd, line ≠ [] →
      ∃ row, readRow line = .ok row ∧ row.cells.length = columns := by
  induction numbered generalizing before rows with
  | nil => exact nofun
  | cons entry numbered ih =>
    obtain ⟨number, line⟩ := entry
    rw [readRows] at h
    rw [List.map_cons, List.forall_mem_cons]
    split at h
    · next hempty => exact ⟨fun hne => absurd (List.isEmpty_iff.1 hempty) hne, ih h⟩
    · split at h
      · cases h
      · next row hrow =>
        obtain ⟨rest, hrest, -⟩ := Except.bind_eq_ok_iff.1 h
        obtain ⟨row', hread, hcheck⟩ := Except.bind_eq_ok_iff.1 hrow
        refine ⟨fun _ => ⟨row', hread, ?_⟩, ih hrest⟩
        rw [checkRow] at hcheck
        split at hcheck
        · cases hcheck
        · next hcolumns => exact not_not.1 hcolumns

/-- In a table that is read, every row has as many sets as the header has fields. -/
theorem columns_of_parse (h : parse config text = .ok table) :
    ∃ first second rest, lines text = first :: second :: rest ∧
      ∀ line ∈ rest, line ≠ [] →
        ∃ row, readRow line = .ok row ∧ row.cells.length = (fields first).length := by
  rw [← map_snd_numberedLines]
  rw [parse] at h
  cases hlines : numberedLines text with
  | nil =>
    rw [hlines] at h
    cases h
  | cons first numbered =>
    rw [hlines] at h
    obtain ⟨_, -, h⟩ := Except.bind_eq_ok_iff.1 h
    cases numbered with
    | nil => cases h
    | cons second rest =>
      dsimp only at h
      split at h
      · cases h
      · obtain ⟨rows, hrows, -⟩ := Except.bind_eq_ok_iff.1 h
        exact ⟨first.2, second.2, _, rfl, columns_of_readRows hrows⟩

/-- A row that is written among these lines has as many sets as are read from each of them. -/
theorem length_cells_of_rowLine {columns : Nat} {lines : List (List Char)} {row : Row}
    (hlines : ∀ line ∈ lines, line ≠ [] →
      ∃ row, readRow line = .ok row ∧ row.cells.length = columns)
    (hname : isName row.name = true) (hcells : ∀ cell ∈ row.cells, ∀ x ∈ cell, isName x = true)
    (hmem : rowLine row ∈ lines) : row.cells.length = columns := by
  obtain ⟨row', hread, hlength⟩ := hlines _ hmem (rowLine_ne_nil hname)
  rw [readRow_rowLine hname hcells] at hread
  cases hread
  exact hlength

/-! ## The header -/

/-- Without epsilon moves the header holds names only; with them, the marker follows the names. -/
theorem toList_header (config : Config) (hsymbols : ∀ x ∈ n.alphabet.symbols, isName x = true)
    (hepsilon : n.hasEpsilonMoves = true) :
    ∃ front : List Char, '\n' ∉ front ∧
      (String.intercalate "," (ofNfa config n).header).toList = front ++ config.epsilon.toList ∧
      fields (front ++ config.epsilon.toList) =
        n.alphabet.symbols ++ fields config.epsilon.toList := by
  rw [ofNfa, if_pos hepsilon]
  by_cases hnil : n.alphabet.symbols = []
  · exact ⟨[], List.not_mem_nil, by simp [hnil], by simp [hnil]⟩
  · refine ⟨(String.intercalate "," n.alphabet.symbols).toList ++ [','], ?_, ?_, ?_⟩
    · rw [List.mem_append, not_or]
      exact ⟨(unspaced_intercalate hsymbols).not_mem rfl, by decide⟩
    · rw [String.intercalate_append_of_ne_nil hnil (List.cons_ne_nil _ _),
        String.intercalate_singleton, String.toList_append, String.toList_append]
      rfl
    · rw [List.append_assoc, List.singleton_append, fields_append_cons, fields_intercalate hsymbols]

/-- The marker is read as a symbol: blanks around it or commas at its ends are cut off, and what
    remains is another text. -/
def MarkerMisread (marker : String) : Prop :=
  '\n' ∉ marker.toList ∧ ∃ x, fields marker.toList = [x] ∧ x ≠ marker

section Read

variable (hn : n.WellFormed)
  (hsymbols : ∀ x ∈ n.alphabet.symbols, isName x = true ∧ x ≠ config.epsilon)
  (hnames : ∀ x ∈ n.names.toList, isName x = true)

include hn hsymbols hnames

/-- If an automaton with epsilon moves is read back as some automaton, then the marker is read as
    one column. -/
theorem column_of_parse (hepsilon : n.hasEpsilonMoves = true)
    (h : parse config (ofNfa config n).write = .ok table) :
    '\n' ∉ config.epsilon.toList ∧ ∃ x, fields config.epsilon.toList = [x] := by
  have hconsistent : (ofNfa config n).Consistent config := consistent_ofNfa hn hsymbols hnames
  obtain ⟨front, hfront, hheader, hfields⟩ :=
    toList_header config (fun x hx => (hsymbols x hx).1) hepsilon
  obtain ⟨first, second, rest, hlines, hrest⟩ := columns_of_parse h
  rw [hconsistent.lines_write, hheader] at hlines
  have hzero : rowOf n 0 ∈ (ofNfa config n).rows :=
    mem_rows_ofNfa.2 ⟨0, Nat.zero_lt_of_lt hn.start_lt, rfl⟩
  have hlength : (rowOf n 0).cells.length = n.alphabet.symbols.length + 1 := by
    rw [hconsistent.columns _ hzero, ofNfa, if_pos hepsilon, List.length_append]
    rfl
  have hrow : rowLine (rowOf n 0) ∈ rest →
      (rowOf n 0).cells.length = (fields first).length :=
    length_cells_of_rowLine hrest (hconsistent.name _ hzero) (hconsistent.targets _ hzero)
  have hrowLine := List.mem_map_of_mem (f := rowLine) hzero
  by_cases hbreak : '\n' ∈ config.epsilon.toList
  · -- The line of the initial state is taken for a row, which has no sets.
    obtain ⟨part, next, parts, hsplit⟩ :=
      exists_splitOn_eq_cons_cons (List.mem_append_right front hbreak)
    obtain ⟨-, -, rfl⟩ : _ ∧ _ ∧ _ = rest := by simpa [hsplit] using hlines
    let row : Row := ⟨(ofNfa config n).initial, false, []⟩
    have hinitial : row.cells.length = (fields first).length :=
      length_cells_of_rowLine hrest hconsistent.initial (List.forall_mem_nil _)
        (List.mem_append_right _ (by simp [row, rowLine, writeHead]))
    have hfirst := hrow (List.mem_append_right _ (List.mem_cons_of_mem _ hrowLine))
    rw [← hinitial, hlength] at hfirst
    cases hfirst
  · have hline : '\n' ∉ front ++ config.epsilon.toList := fun h =>
      (List.mem_append.1 h).elim hfront hbreak
    obtain ⟨rfl, -, rfl⟩ : _ = first ∧ _ ∧ _ = rest := by
      simpa [splitOn_of_not_mem hline] using hlines
    have hfirst := hrow hrowLine
    rw [fields_trim, hfields, hlength, List.length_append, Nat.add_left_cancel_iff] at hfirst
    exact ⟨hbreak, List.length_eq_one_iff.1 hfirst.symm⟩

/-- If the marker is read as itself, the whole table is. -/
theorem parse_write_ofNfa
    (hmarker : n.hasEpsilonMoves = true →
      '\n' ∉ config.epsilon.toList ∧ fields config.epsilon.toList = [config.epsilon]) :
    parse config (ofNfa config n).write = .ok (ofNfa config n) := by
  have hconsistent : (ofNfa config n).Consistent config := consistent_ofNfa hn hsymbols hnames
  obtain ⟨hbreak, hfields⟩ : '\n' ∉ (String.intercalate "," (ofNfa config n).header).toList ∧
      fields (String.intercalate "," (ofNfa config n).header).toList =
        (ofNfa config n).header := by
    by_cases hepsilon : n.hasEpsilonMoves = true
    · obtain ⟨front, hfront, hheader, hfields⟩ :=
        toList_header config (fun x hx => (hsymbols x hx).1) hepsilon
      rw [hheader, hfields, (hmarker hepsilon).2, List.mem_append, not_or, ofNfa, if_pos hepsilon]
      exact ⟨⟨hfront, (hmarker hepsilon).1⟩, rfl⟩
    · have hnamed : ∀ x ∈ (ofNfa config n).header, isName x = true := by
        rw [ofNfa, if_neg hepsilon, List.append_nil]
        exact fun x hx => (hsymbols x hx).1
      exact ⟨(unspaced_intercalate hnamed).not_mem rfl, fields_intercalate hnamed⟩
  have hlines := hconsistent.lines_write
  rw [splitOn_of_not_mem hbreak, List.map_singleton, List.singleton_append] at hlines
  exact hconsistent.parse_eq_ok hlines ((fields_trim _).trans hfields)

end Read

/-! ## Markers that are read as a symbol -/

/-- A state that accepts, with an epsilon move to itself. -/
def epsilonLoop : Listing where
  alphabet := .empty
  start := "q"
  mentions := []
  edges := [⟨"q", none, "q"⟩]
  accepting := ["q"]

/-- The row of a state that accepts and is its own target. -/
def loopRow : Row := ⟨"q", true, [["q"]]⟩

/-- The same state with a move on a symbol instead. -/
def symbolLoop (x : String) : Table where
  alphabet := .single x
  header := [x]
  initial := "q"
  rows := [loopRow]

/-- If the marker is read as a symbol, then so are epsilon moves. -/
theorem MarkerMisread.exists_accepts_ne (h : MarkerMisread config.epsilon) :
    ∃ text b w, render config (.nfa epsilonLoop.toNfa) = .ok text ∧ load config text = .ok b ∧
      b.accepts w ≠ epsilonLoop.toNfa.accepts w := by
  obtain ⟨hbreak, x, hfields, hx⟩ := h
  have hsymbols : ∀ y ∈ epsilonLoop.toNfa.alphabet.symbols,
      isName y = true ∧ y ≠ config.epsilon := nofun
  have hnames : ∀ y ∈ epsilonLoop.toNfa.names.toList, isName y = true := by decide
  have hrows : (ofNfa config epsilonLoop.toNfa).rows = (symbolLoop x).rows := by
    show (List.range epsilonLoop.toNfa.size).map (rowOf epsilonLoop.toNfa) = [loopRow]
    decide
  have hlines : lines (ofNfa config epsilonLoop.toNfa).write =
      trim config.epsilon.toList :: (symbolLoop x).initial.toList ::
        (symbolLoop x).rows.map rowLine := by
    have hconsistent : (ofNfa config epsilonLoop.toNfa).Consistent config :=
      consistent_ofNfa epsilonLoop.wellFormed_toNfa hsymbols hnames
    have hheader : (ofNfa config epsilonLoop.toNfa).header = [config.epsilon] := rfl
    rw [hconsistent.lines_write, hheader, String.intercalate_singleton,
      splitOn_of_not_mem hbreak, hrows]
    rfl
  have hread : (symbolLoop x).Consistent config := by
    have hname : isName "q" = true := by decide
    refine ⟨?_, ?_, hname, List.nodup_singleton _, ?_, ?_, ?_⟩
    · simp [symbolLoop, hx]
    · simp [symbolLoop, Alphabet.single, hx]
    · simp [symbolLoop, loopRow, hname]
    · simp [symbolLoop, loopRow]
    · simp [symbolLoop, loopRow, hname]
  have hparse := hread.parse_eq_ok hlines ((fields_trim _).trans hfields)
  have hcolumn : (Alphabet.single x).idxOf? x = some 0 :=
    Alphabet.idxOf?_single_eq_some_iff.2 ⟨rfl, rfl⟩
  have haccepts : (symbolLoop x).toNfa.accepts [x] = true := by
    refine Listing.accepts_of_loop hcolumn ?_ ?_
    · simp [toListing, symbolLoop, loopRow, Row.edges, hcolumn]
    · simp [toListing, symbolLoop, loopRow]
  refine ⟨_, _, [x], render_eq_ok_iff.2 ⟨checkWritable_eq_ok_iff.2 ⟨hsymbols, hnames⟩, rfl⟩,
    Except.map_eq_ok_iff.2 ⟨_, hparse, rfl⟩, ?_⟩
  rw [haccepts]
  exact Bool.false_ne_true.symm

/-- Under other markers, an automaton that is written is read as one with the same words, or its
    table is refused. -/
theorem accepts_eq_of_load_render (hmisread : ¬ MarkerMisread config.epsilon) {a : Automaton}
    (ha : a.WellFormed) (htext : render config a = .ok text) {b : Nfa}
    (hb : load config text = .ok b) (w : List String) : b.accepts w = a.accepts w := by
  obtain ⟨hwritable, rfl⟩ := render_eq_ok_iff.1 htext
  obtain ⟨hsymbols, hnames⟩ := checkWritable_eq_ok_iff.1 hwritable
  obtain ⟨table, htable, rfl⟩ := Except.map_eq_ok_iff.1 hb
  have hn := ha.toNfa
  have hparse := parse_write_ofNfa hn hsymbols hnames fun hepsilon => by
    obtain ⟨hbreak, x, hx⟩ := column_of_parse hn hsymbols hnames hepsilon htable
    obtain rfl : x = config.epsilon := by
      by_contra hne
      exact hmisread ⟨hbreak, x, hx, hne⟩
    exact ⟨hbreak, hx⟩
  obtain rfl : table = _ := Except.ok.inj (htable.symm.trans hparse)
  obtain ⟨f, hf⟩ :=
    (describes_ofNfa hn fun hmem => (hsymbols _ hmem).2 rfl).exists_matchedByName hn
  rw [← ha.accepts_toNfa]
  exact hf.accepts_eq (Listing.wellFormed_toNfa _) hn

end Table

end Acceptors
