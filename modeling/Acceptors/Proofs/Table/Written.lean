import Acceptors.Proofs.Table.Spaced
import Acceptors.Table.Writer

/-!
# Tables that are written are read back

A written table has no blanks but the line breaks, and its names have no delimiters. So its lines
are those that were written, and each line is that of a row with no blanks in it.

Results:
* `Table.rowSpaced_rowLine`, `Table.readRow_rowLine`: a row that is written is read back.
* `Table.Writable`: the tables that can be written.
* `Table.Writable.parse_write`: they are read back as they are.
-/

namespace Acceptors

namespace Table

open Text

variable {row : Row} {config : Config} {table : Table}

/-! ## Rows -/

theorem toList_writeCell (targets : List String) :
    (writeCell targets).toList =
      ',' :: '\x7b' :: ((String.intercalate "," targets).toList ++ ['\x7d']) := by
  rw [writeCell, String.toList_append, String.toList_append]
  rfl

/-- The sets of a row are written without blanks. -/
theorem cellsSpaced_writeCells (cells : List (List String)) :
    CellsSpaced cells (cells.flatMap fun cell => (writeCell cell).toList) := by
  induction cells with
  | nil => exact .nil
  | cons cell cells ih =>
    rw [List.flatMap_cons, toList_writeCell, List.cons_append, List.cons_append, List.append_assoc]
    exact .cons (List.forall_mem_nil _) (List.forall_mem_nil _) (entries_intercalate cell) ih

/-- The head of a row. -/
def writeHead (row : Row) : List Char :=
  if row.accepting then '[' :: (row.name.toList ++ [']']) else row.name.toList

/-- The characters of a row in front of its line break. -/
def rowLine (row : Row) : List Char :=
  writeHead row ++ row.cells.flatMap fun cell => (writeCell cell).toList

theorem toList_writeRow (row : Row) : (writeRow row).toList = rowLine row ++ ['\n'] := by
  have hhead : (if row.accepting then "[" ++ row.name ++ "]" else row.name).toList =
      writeHead row := by
    rw [writeHead]
    split
    · rw [String.toList_append, String.toList_append]
      rfl
    · rfl
  rw [writeRow, String.toList_append, String.toList_append, hhead, String.toList_join,
    List.flatMap_map]
  rfl

theorem headSpaced_writeHead (row : Row) : HeadSpaced row.name row.accepting (writeHead row) := by
  cases haccepting : row.accepting with
  | true =>
    rw [writeHead, haccepting, if_pos rfl]
    exact .accepting (padded_refl _)
  | false =>
    rw [writeHead, haccepting, if_neg Bool.false_ne_true]
    exact .plain

/-- A row is written without blanks. -/
theorem rowSpaced_rowLine (row : Row) : RowSpaced row (rowLine row) :=
  ⟨_, _, headSpaced_writeHead row, cellsSpaced_writeCells row.cells, padded_refl _⟩

theorem unspaced_writeHead (hname : isName row.name = true) : Unspaced (writeHead row) := by
  have hname := unspaced_of_isName hname
  rw [writeHead]
  split
  · exact unspaced_cons.2 ⟨rfl, unspaced_append.2
      ⟨hname, unspaced_cons.2 ⟨rfl, List.forall_mem_nil _⟩⟩⟩
  · exact hname

/-- A row without blanks in its names is a line without blanks. -/
theorem unspaced_rowLine (hname : isName row.name = true)
    (hcells : ∀ cell ∈ row.cells, ∀ x ∈ cell, isName x = true) : Unspaced (rowLine row) := by
  refine unspaced_append.2 ⟨unspaced_writeHead hname, fun c hc => ?_⟩
  obtain ⟨cell, hcell, hc⟩ := List.mem_flatMap.1 hc
  rw [toList_writeCell] at hc
  have hbody := unspaced_intercalate (hcells cell hcell)
  exact unspaced_cons.2 ⟨rfl, unspaced_cons.2 ⟨rfl, unspaced_append.2
    ⟨hbody, unspaced_cons.2 ⟨rfl, List.forall_mem_nil _⟩⟩⟩⟩ c hc

/-- A row is read back. -/
theorem readRow_rowLine (hname : isName row.name = true)
    (hcells : ∀ cell ∈ row.cells, ∀ x ∈ cell, isName x = true) :
    readRow (rowLine row) = .ok row := by
  have htrim : trim (rowLine row) = rowLine row := (unspaced_rowLine hname hcells).trim_eq
  rw [← htrim]
  exact (rowSpaced_rowLine row).readRow_eq hname hcells

theorem rowLine_ne_nil (hname : isName row.name = true) : rowLine row ≠ [] :=
  List.append_ne_nil_of_left_ne_nil ((headSpaced_writeHead row).ne_nil hname) _

/-! ## Tables -/

/-- A table that can be written: its header has each symbol once and nothing else but the epsilon
    marker, which has at most one column, its rows are rows of distinct states with one set for each
    column, and all names in it are names. -/
structure Writable (config : Config) (table : Table) : Prop where
  header : ∀ entry ∈ table.header, isName entry = true
  marker : table.header.count config.epsilon ≤ 1
  symbols : table.header.filter (· ≠ config.epsilon) = table.alphabet.symbols
  initial : isName table.initial = true
  nodup : (table.rows.map (·.name)).Nodup
  name : ∀ row ∈ table.rows, isName row.name = true
  columns : ∀ row ∈ table.rows, row.cells.length = table.header.length
  targets : ∀ row ∈ table.rows, ∀ cell ∈ row.cells, ∀ x ∈ cell, isName x = true

/-- A table that can be written but for its header, which may hold anything as the epsilon
    marker. -/
structure Consistent (config : Config) (table : Table) : Prop where
  marker : table.header.count config.epsilon ≤ 1
  symbols : table.header.filter (· ≠ config.epsilon) = table.alphabet.symbols
  initial : isName table.initial = true
  nodup : (table.rows.map (·.name)).Nodup
  name : ∀ row ∈ table.rows, isName row.name = true
  columns : ∀ row ∈ table.rows, row.cells.length = table.header.length
  targets : ∀ row ∈ table.rows, ∀ cell ∈ row.cells, ∀ x ∈ cell, isName x = true

theorem Writable.consistent (h : table.Writable config) : table.Consistent config :=
  ⟨h.marker, h.symbols, h.initial, h.nodup, h.name, h.columns, h.targets⟩

/-- The lines of a table. -/
def tableLines (table : Table) : List (List Char) :=
  (String.intercalate "," table.header).toList :: table.initial.toList :: table.rows.map rowLine

theorem toList_write (table : Table) :
    (write table).toList = (tableLines table).flatMap (· ++ ['\n']) := by
  have hrows : (String.join (table.rows.map writeRow)).toList =
      (table.rows.map rowLine).flatMap (· ++ ['\n']) := by
    rw [String.toList_join, List.flatMap_map, List.flatMap_map]
    simp only [toList_writeRow]
  simp only [write, String.toList_append, hrows, tableLines, List.flatMap_cons, List.append_assoc]
  rfl

/-- The epsilon marker may break the line of the header, but the other lines are as written. -/
theorem Consistent.lines_write (h : table.Consistent config) :
    lines (write table) =
      (splitOn '\n' (String.intercalate "," table.header).toList).map trim ++
        table.initial.toList :: table.rows.map rowLine := by
  have hrows : ((table.rows.map rowLine).flatMap (splitOn '\n')).map trim =
      table.rows.map rowLine := by
    rw [List.map_flatMap, List.flatMap_map]
    refine (List.flatMap_congr fun row hrow => ?_).trans (List.map_eq_flatMap).symm
    exact (unspaced_rowLine (h.name row hrow) (h.targets row hrow)).map_trim_splitOn_break
  rw [lines_of_breaks (toList_write table), tableLines]
  simp only [List.flatMap_cons, List.map_append, hrows,
    (unspaced_of_isName h.initial).map_trim_splitOn_break, List.singleton_append]

theorem Writable.lines_write (h : table.Writable config) :
    lines (write table) = tableLines table := by
  rw [h.consistent.lines_write, (unspaced_intercalate h.header).map_trim_splitOn_break]
  rfl

/-- A table is read from its lines if its header is read from the first of them. -/
theorem Consistent.parse_eq_ok (h : table.Consistent config) {text : String} {first : List Char}
    (hlines : lines text = first :: table.initial.toList :: table.rows.map rowLine)
    (hheader : fields first = table.header) : parse config text = .ok table := by
  rw [← map_snd_numberedLines] at hlines
  obtain ⟨⟨_, first⟩, numbered, hnumbered, rfl, hrest⟩ := List.map_eq_cons_iff.1 hlines
  obtain ⟨⟨_, second⟩, numbered, rfl, rfl, hrows⟩ := List.map_eq_cons_iff.1 hrest
  have halphabet := headerAlphabet_eq_ok h.marker h.symbols
  have hinitial : String.ofList table.initial.toList = table.initial := String.ofList_toList
  have hread : List.Forall₂ (fun row line => readRow line = .ok row) table.rows
      ((numbered.map Prod.snd).filter (!·.isEmpty)) := by
    have hne : ∀ line ∈ table.rows.map rowLine, (!line.isEmpty) = true := by
      intro line hline
      obtain ⟨row, hrow, rfl⟩ := List.mem_map.1 hline
      simp [rowLine_ne_nil (h.name row hrow)]
    rw [hrows, List.filter_eq_self.2 hne, List.forall₂_map_right_iff, List.forall₂_same]
    exact fun row hrow => readRow_rowLine (h.name row hrow) (h.targets row hrow)
  have hrows : readRows table.header.length [] numbered = .ok table.rows :=
    readRows_eq_ok hread h.nodup (fun _ _ => List.not_mem_nil) h.columns h.targets
  rw [parse_eq hnumbered (by rw [hheader]; exact halphabet) (by rw [hinitial]; exact h.initial)]
  simp only [hheader, hinitial, hrows]
  rfl

/-- A table that is written is read back as it is. -/
theorem Writable.parse_write (h : table.Writable config) :
    parse config (write table) = .ok table :=
  h.consistent.parse_eq_ok h.lines_write (fields_intercalate h.header)

end Table

end Acceptors
