import Mathlib.Data.List.Forall2
import Mathlib.Data.List.Nodup
import Mathlib.Data.List.TakeDrop
import Acceptors.Proofs.Text.Spaced
import Acceptors.Table.Reader

/-!
# Tables with blanks in them

A table may be written with blanks around its names, its commas, its brackets and its braces, and
with blank lines between its rows. The definitions below say what such a text looks like. A row is
read from its line whatever blanks there are, and so is the table.

Results:
* `Table.Spaced`: the texts in which a table is written with blanks.
* `Table.CellsSpaced.readCells_eq`, `Table.RowSpaced.readRow_eq`: the sets of a row, and a row.
* `Table.Sound`: the headers, initial states and rows that make a table.
* `Table.readRows_eq_ok`: rows are read from the lines that are not blank.
* `Table.Sound.parse_of_spaced`: a table is read from a text with blanks.
-/

namespace Acceptors

namespace Table

open Text

variable {name : String} {accepting : Bool} {targets : List String} {cells : List (List String)}
variable {row : Row} {c : Char} {cs body front rest line blanks : List Char}

/-! ## Texts with blanks -/

/-- The head of a row: its state, in square brackets if it accepts. -/
inductive HeadSpaced : String → Bool → List Char → Prop
  | plain {name : String} : HeadSpaced name false name.toList
  | accepting {name : String} {inner : List Char} : Padded name.toList inner →
      HeadSpaced name true ('[' :: (inner ++ [']']))

/-- The sets of a row, each in braces behind a comma. -/
inductive CellsSpaced : List (List String) → List Char → Prop
  | nil : CellsSpaced [] []
  | cons {targets : List String} {cells : List (List String)} {before behind inner cs : List Char} :
      Blanks before → Blanks behind → Entries targets inner → CellsSpaced cells cs →
      CellsSpaced (targets :: cells)
        (before ++ ',' :: (behind ++ '\x7b' :: (inner ++ '\x7d' :: cs)))

/-- A row: its head and its sets, with blanks around them. -/
def RowSpaced (row : Row) (line : List Char) : Prop :=
  ∃ head cells, HeadSpaced row.name row.accepting head ∧ CellsSpaced row.cells cells ∧
    Padded (head ++ cells) line

/-- A table: a line with its header, a line with its initial state, and then the lines of its rows,
    with blank lines between them. -/
def Spaced (header : List String) (initial : String) (rows : List Row) (text : String) : Prop :=
  ∃ first second rest, HasLines text (first :: second :: rest) ∧ Entries header first ∧
    Padded initial.toList second ∧ List.Forall₂ RowSpaced rows (rest.filter (¬ Blanks ·))

/-! ## Heads of rows -/

/-- Every character of the head of a row is a blank, a square bracket or one of its name. -/
theorem HeadSpaced.of_mem (h : HeadSpaced name accepting cs) (hc : c ∈ cs) :
    isBlank c = true ∨ c = '[' ∨ c = ']' ∨ c ∈ name.toList := by
  cases h with
  | plain => exact .inr (.inr (.inr hc))
  | accepting hinner =>
    obtain ⟨left, right, hleft, hright, rfl⟩ := hinner
    simp only [List.mem_cons, List.mem_append, List.not_mem_nil, or_false] at hc
    rcases hc with rfl | ((hc | hc) | hc) | rfl
    · exact .inr (.inl rfl)
    · exact .inl (hleft c hc)
    · exact .inr (.inr (.inr hc))
    · exact .inl (hright c hc)
    · exact .inr (.inr (.inl rfl))

theorem HeadSpaced.ne_nil (h : HeadSpaced name accepting cs) (hname : isName name = true) :
    cs ≠ [] := by
  cases h with
  | plain => exact (isName_iff.1 hname).1
  | accepting => exact List.cons_ne_nil _ _

theorem HeadSpaced.solid (h : HeadSpaced name accepting cs) (hname : isName name = true) :
    Solid cs := by
  cases h with
  | plain => exact (unspaced_of_isName hname).solid
  | accepting =>
    refine ⟨fun c hc => ?_, fun c hc => ?_⟩
    · obtain rfl : '[' = c := Option.some.inj hc
      rfl
    · rw [← List.cons_append, List.getLast?_concat] at hc
      obtain rfl : ']' = c := Option.some.inj hc
      rfl

/-- The state of a row is read, and whether it accepts. -/
theorem HeadSpaced.readHead_eq (h : HeadSpaced name accepting cs) (hname : isName name = true) :
    readHead cs = .ok (name, accepting) := by
  cases h with
  | plain =>
    rw [readHead]
    · simp [pure, Except.pure, bind, Except.bind, hname]
    · intro inner hinner
      exact not_mem_of_isName hname rfl (hinner ▸ List.mem_cons_self)
  | accepting hinner =>
    rw [readHead]
    simp only [List.getLast?_concat, if_true, List.dropLast_concat,
      hinner.trim_eq.trans (unspaced_of_isName hname).trim_eq]
    simp [pure, Except.pure, bind, Except.bind, hname]

/-! ## Sets of targets -/

/-- Blanks between the sets do not matter. -/
theorem readCells_blanks (h : Blanks blanks) :
    readCells none (blanks ++ cs) = readCells none cs := by
  induction blanks with
  | nil => rfl
  | cons c blanks ih =>
    obtain ⟨hc, hblanks⟩ := List.forall_mem_cons.1 h
    rw [List.cons_append, readCells]
    simp only [hc, Bool.or_true, if_true]
    exact ih hblanks

theorem readCells_comma : readCells none (',' :: cs) = readCells none cs := by
  rw [readCells]
  simp

theorem readCells_brace : readCells none ('\x7b' :: cs) = readCells (some []) cs := by
  rw [readCells]
  simp only [show isBlank '\x7b' = false from rfl, Bool.or_false, decide_eq_true_eq, if_true,
    show ¬ '\x7b' = ',' by decide, if_false]

/-- A set is read up to its closing brace. -/
theorem readCells_append_cons (h : '\x7d' ∉ body) :
    readCells (some front) (body ++ '\x7d' :: rest) =
      (readCells none rest).map (fields (front.reverse ++ body) :: ·) := by
  induction body generalizing front with
  | nil =>
    rw [List.nil_append, List.append_nil, readCells]
    simp only [if_true]
    cases readCells none rest <;> rfl
  | cons c body ih =>
    have hc : c ≠ '\x7d' := fun e => h (e ▸ List.mem_cons_self)
    rw [List.cons_append, readCells]
    simp only [hc, if_false]
    rw [ih fun hmem => h (List.mem_cons_of_mem c hmem), List.reverse_cons, List.append_assoc,
      List.singleton_append]

/-- The sets of a row are read, whatever blanks there are. -/
theorem CellsSpaced.readCells_eq (h : CellsSpaced cells cs)
    (hcells : ∀ cell ∈ cells, ∀ x ∈ cell, isName x = true) : readCells none cs = .ok cells := by
  induction h with
  | nil => rfl
  | cons hbefore hbehind hinner _ ih =>
    obtain ⟨hcell, hcells⟩ := List.forall_mem_cons.1 hcells
    have hbrace : '\x7d' ∉ _ := fun hmem => by
      rcases hinner.of_mem hmem with he | he | ⟨x, hx, hmem⟩
      · cases he
      · cases he
      · exact not_mem_of_isName (hcell x hx) rfl hmem
    rw [readCells_blanks hbefore, readCells_comma, readCells_blanks hbehind, readCells_brace,
      readCells_append_cons hbrace, ih hcells, List.reverse_nil, List.nil_append,
      hinner.fields_eq fun x hx => isEntry_of_isName (hcell x hx)]
    rfl

/-- In front of the sets of a row there are blanks and a comma, if there are sets at all. -/
theorem CellsSpaced.exists_eq_append (h : CellsSpaced cells cs) :
    ∃ before rest, Blanks before ∧ cs = before ++ rest ∧ ∀ c ∈ rest.head?, c = ',' := by
  cases h with
  | nil => exact ⟨[], [], List.forall_mem_nil _, rfl, nofun⟩
  | cons hbefore => exact ⟨_, _, hbefore, rfl, fun c hc => (Option.some.inj hc).symm⟩

/-- The sets of a row end with a brace. -/
theorem CellsSpaced.last (h : CellsSpaced cells cs) : ∀ c ∈ cs.getLast?, isBlank c = false := by
  induction h with
  | nil => exact nofun
  | @cons _ _ _ _ _ cs _ _ _ _ ih =>
    intro c hc
    simp only [List.getLast?_append, List.getLast?_cons, Option.some_or, Option.getD_some,
      Option.mem_def, Option.some.injEq] at hc
    obtain rfl := hc
    cases hcs : cs.getLast? with
    | none => rfl
    | some d => exact ih d hcs

/-! ## Rows -/

/-- The head of a row ends at its first comma. -/
theorem span_comma (hfront : ',' ∉ front) (hrest : ∀ c ∈ rest.head?, c = ',') :
    (front ++ rest).span (· ≠ ',') = (front, rest) := by
  have hall : ∀ c ∈ front, decide (c ≠ ',') = true := fun c hc =>
    decide_eq_true fun e => hfront (e ▸ hc)
  have htake : rest.takeWhile (· ≠ ',') = [] ∧ rest.dropWhile (· ≠ ',') = rest := by
    cases rest with
    | nil => exact ⟨rfl, rfl⟩
    | cons c rest => simp [hrest c rfl]
  rw [List.span_eq_takeWhile_dropWhile, List.takeWhile_append_of_pos hall,
    List.dropWhile_append_of_pos hall, htake.1, htake.2, List.append_nil]

/-- A row is read, whatever blanks there are. -/
theorem RowSpaced.readRow_eq (h : RowSpaced row line) (hname : isName row.name = true)
    (hcells : ∀ cell ∈ row.cells, ∀ x ∈ cell, isName x = true) :
    readRow (trim line) = .ok row := by
  obtain ⟨head, cells, hhead, hspaced, hline⟩ := h
  have hsolid : Solid (head ++ cells) :=
    (hhead.solid hname).append (hhead.ne_nil hname) hspaced.last
  have htrim : trim line = head ++ cells := hline.trim_eq.trans hsolid.trim_eq
  obtain ⟨before, rest, hbefore, rfl, hrest⟩ := hspaced.exists_eq_append
  have hcomma : ',' ∉ head ++ before := by
    intro hmem
    rcases List.mem_append.1 hmem with hmem | hmem
    · rcases hhead.of_mem hmem with he | he | he | hmem
      · cases he
      · cases he
      · cases he
      · exact not_mem_of_isName hname rfl hmem
    · cases hbefore ',' hmem
  have hpadded : Padded head (head ++ before) := ⟨[], before, List.forall_mem_nil _, hbefore, rfl⟩
  have hhead' : trim (head ++ before) = head :=
    hpadded.trim_eq.trans (hhead.solid hname).trim_eq
  have hrestCells : readCells none rest = .ok row.cells := by
    rw [← readCells_blanks hbefore]
    exact hspaced.readCells_eq hcells
  rw [readRow, htrim, ← List.append_assoc, span_comma hcomma hrest]
  simp only [hhead', hhead.readHead_eq hname, hrestCells]
  rfl

theorem checkRow_eq_ok {columns : Nat} {before : List String}
    (hcolumns : row.cells.length = columns) (hbefore : row.name ∉ before)
    (htargets : ∀ cell ∈ row.cells, ∀ x ∈ cell, isName x = true) :
    checkRow columns before row = .ok row := by
  have hnone : row.cells.flatten.find? (!isName ·) = none := by
    rw [List.find?_eq_none]
    intro x hx
    obtain ⟨cell, hcell, hx⟩ := List.mem_flatten.1 hx
    rw [htargets cell hcell x hx]
    decide
  rw [checkRow, if_neg (not_not.2 hcolumns), if_neg hbefore, hnone]

/-- Rows are read from the lines that are not blank, whatever the numbers of these lines. -/
theorem readRows_eq_ok {columns : Nat} {before : List String} {rows : List Row}
    {numbered : List (Nat × List Char)}
    (hread : List.Forall₂ (fun row line => readRow line = .ok row) rows
      ((numbered.map Prod.snd).filter (!·.isEmpty)))
    (hnodup : (rows.map (·.name)).Nodup) (hbefore : ∀ row ∈ rows, row.name ∉ before)
    (hcolumns : ∀ row ∈ rows, row.cells.length = columns)
    (htargets : ∀ row ∈ rows, ∀ cell ∈ row.cells, ∀ x ∈ cell, isName x = true) :
    readRows columns before numbered = .ok rows := by
  induction numbered generalizing before rows with
  | nil =>
    obtain rfl := List.forall₂_nil_right_iff.1 hread
    rfl
  | cons entry numbered ih =>
    obtain ⟨number, line⟩ := entry
    rw [readRows]
    by_cases hblank : line.isEmpty = true
    · rw [if_pos hblank]
      refine ih ?_ hnodup hbefore hcolumns htargets
      rwa [List.map_cons, List.filter_cons_of_neg (by simp [hblank])] at hread
    · rw [List.map_cons, List.filter_cons_of_pos (by simpa using hblank)] at hread
      cases hread with
      | @cons row _ rows _ hrow hrest =>
        rw [List.map_cons, List.nodup_cons] at hnodup
        obtain ⟨hfresh, hbefore⟩ := List.forall_mem_cons.1 hbefore
        obtain ⟨hcount, hcolumns⟩ := List.forall_mem_cons.1 hcolumns
        obtain ⟨hcells, htargets⟩ := List.forall_mem_cons.1 htargets
        have hone : readRow line >>= checkRow columns before = .ok row := by
          rw [hrow]
          exact checkRow_eq_ok hcount hfresh hcells
        have hrest : readRows columns (row.name :: before) numbered = .ok rows := by
          refine ih hrest hnodup.2 (fun row' hrow' hmem => ?_) hcolumns htargets
          rcases List.mem_cons.1 hmem with he | hmem
          · exact hnodup.1 (List.mem_map.2 ⟨row', hrow', he⟩)
          · exact hbefore row' hrow' hmem
        rw [if_neg hblank, hone]
        simp only [hrest]
        rfl

/-! ## Tables -/

theorem headerAlphabet_eq_ok {marker : String} {header : List String} {alphabet : Alphabet}
    (hmarker : header.count marker ≤ 1) (hsymbols : header.filter (· ≠ marker) = alphabet.symbols) :
    headerAlphabet marker header = .ok alphabet := by
  rw [headerAlphabet, if_neg (by omega), hsymbols,
    Alphabet.ofList_eq_ok_iff.2 ⟨alphabet.nodup, rfl⟩]
  rfl

/-- What is read of a text with a header and an initial state. -/
theorem parse_eq {config : Config} {text : String} {header initial : Nat × List Char}
    {numbered : List (Nat × List Char)} (htext : numberedLines text = header :: initial :: numbered)
    {alphabet : Alphabet}
    (halphabet : headerAlphabet config.epsilon (fields header.2) = .ok alphabet)
    (hinitial : isName (String.ofList initial.2) = true) :
    parse config text = (readRows (fields header.2).length [] numbered).map
      (⟨alphabet, fields header.2, String.ofList initial.2, ·⟩) := by
  obtain ⟨_, header⟩ := header
  obtain ⟨_, initial⟩ := initial
  rw [parse, htext]
  simp only [halphabet, hinitial]
  cases readRows (fields header).length [] numbered <;> rfl

/-- The header, the initial state and the rows make a table: the entries of the header are distinct
    texts without blanks and commas, the rows are rows of distinct states with one set for each
    entry of the header, and all states have names. -/
structure Sound (header : List String) (initial : String) (rows : List Row) : Prop where
  entries : ∀ x ∈ header, IsEntry x
  distinct : header.Nodup
  initial : isName initial = true
  nodup : (rows.map (·.name)).Nodup
  name : ∀ row ∈ rows, isName row.name = true
  columns : ∀ row ∈ rows, row.cells.length = header.length
  targets : ∀ row ∈ rows, ∀ cell ∈ row.cells, ∀ x ∈ cell, isName x = true

section Sound

variable {header : List String} {initial text : String} {rows : List Row}

/-- The table. The entries of its header other than the epsilon marker are its symbols. -/
def Sound.table (h : Sound header initial rows) (marker : String) : Table where
  alphabet := ⟨header.filter (· ≠ marker), h.distinct.filter _⟩
  header := header
  initial := initial
  rows := rows

/-- A table is read from its text, whatever blanks there are. -/
theorem Sound.parse_of_spaced (h : Sound header initial rows)
    (htext : Spaced header initial rows text) (config : Config) :
    parse config text = .ok (h.table config.epsilon) := by
  obtain ⟨first, second, rest, hlines, hfirst, hsecond, hrows⟩ := htext
  have hinitial : trim second = initial.toList :=
    hsecond.trim_eq.trans (unspaced_of_isName h.initial).trim_eq
  have hne : second ≠ [] := by
    rintro rfl
    exact (isName_iff.1 h.initial).1 hinitial.symm
  obtain ⟨rest', hlines, hrest⟩ := @HasLines.exists_lines_eq text [first] rest second hlines hne
  rw [← map_snd_numberedLines] at hlines
  obtain ⟨⟨_, first'⟩, numbered, hnumbered, hfirst', hlines⟩ := List.map_eq_cons_iff.1 hlines
  obtain ⟨⟨_, second'⟩, numbered, rfl, hsecond', rfl⟩ := List.map_eq_cons_iff.1 hlines
  have hheader : fields first' = header := by
    rw [show first' = trim first from hfirst', fields_trim, hfirst.fields_eq h.entries]
  have hstate : String.ofList second' = initial := by
    rw [show second' = trim second from hsecond', hinitial, String.ofList_toList]
  have halphabet : headerAlphabet config.epsilon header = .ok (h.table config.epsilon).alphabet :=
    headerAlphabet_eq_ok (List.nodup_iff_count_le_one.1 h.distinct _) rfl
  have hread : List.Forall₂ (fun row line => readRow line = .ok row) rows
      ((numbered.map Prod.snd).filter (!·.isEmpty)) := by
    rw [hrest, List.forall₂_map_right_iff]
    have hmem := (List.forall₂_and_left _ _).2 ⟨fun row (hrow : row ∈ rows) => hrow, hrows⟩
    refine hmem.imp fun row line ⟨hrow, hspaced⟩ => ?_
    exact hspaced.readRow_eq (h.name row hrow) (h.targets row hrow)
  have hrows' : readRows header.length [] numbered = .ok rows :=
    readRows_eq_ok hread h.nodup (fun _ _ => List.not_mem_nil) h.columns h.targets
  rw [parse_eq hnumbered (by rw [hheader]; exact halphabet) (by rw [hstate]; exact h.initial)]
  simp only [hheader, hstate, hrows']
  rfl

end Sound

end Table

end Acceptors
