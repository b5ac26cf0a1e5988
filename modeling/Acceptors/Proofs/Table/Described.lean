import Acceptors.Proofs.Listing
import Acceptors.Proofs.Table.Spaced

/-!
# Tables are read as written

The automaton of a table has a state for each name in it, numbered by first mention, and a move for
each target that a row lists. The symbol of the move is what the header has in the column of the
target; if this is the epsilon marker, the move is an epsilon move. The marker may stand in any
column, and a state may be mentioned before its row, behind it, or without a row.

Results:
* `Table.Lists`: what the rows say about two states and an entry of the header.
* `Table.Describes`: what a table says about an automaton.
* `Table.Sound.describes_toNfa`: it says this about its automaton.
* `Table.load_of_spaced`: the automaton that is read from a text.
-/

namespace Acceptors

namespace Table

open Text

variable {header : List String} {initial marker text : String} {rows : List Row} {n : Nfa}

/-- The row of the state `p` lists the state `q` in the column of an entry of the header. -/
def Lists (header : List String) (rows : List Row) (entry p q : String) : Prop :=
  ∃ row ∈ rows, row.name = p ∧
    ∃ (i : Nat) (targets : List String), header[i]? = some entry ∧
      row.cells[i]? = some targets ∧ q ∈ targets

/-- The states in the order in which they are mentioned: the initial state, then the state of each
    row, followed by its targets from left to right. -/
def mentions (initial : String) (rows : List Row) : List String :=
  initial :: rows.flatMap fun row => row.name :: row.cells.flatten

/-- The header, the initial state and the rows describe the automaton. -/
structure Describes (marker : String) (header : List String) (initial : String) (rows : List Row)
    (n : Nfa) : Prop where
  /-- The symbols are the other entries of the header, in their order. -/
  symbols_eq : n.alphabet.symbols = header.filter (· ≠ marker)
  /-- The states are numbered by first mention. -/
  names_eq : n.names.toList = (mentions initial rows).eraseDups
  /-- The start state has the name of the initial state. -/
  start_eq : n.name n.start = initial
  /-- A state accepts if it has a row that says so. -/
  accepting_iff : ∀ p, p ∈ n.accepting ↔
    p < n.size ∧ ∃ row ∈ rows, row.name = n.name p ∧ row.accepting = true
  /-- A state has a move on a symbol to those that its row lists in the column of the symbol. -/
  targets_iff : ∀ p c q, q ∈ n.targets p c ↔
    p < n.size ∧ q < n.size ∧
      ∃ symbol, n.alphabet.get? c = some symbol ∧ Lists header rows symbol (n.name p) (n.name q)
  /-- A state has an epsilon move to those that its row lists in the column of the marker. -/
  epsilon_iff : ∀ p q, q ∈ n.epsilonTargets p ↔
    p < n.size ∧ q < n.size ∧ Lists header rows marker (n.name p) (n.name q)

/-- A row lists a state in a column where it has an edge. -/
theorem mem_edges_iff {table : Table} {p q : String} {column : Option Nat} :
    ⟨p, column, q⟩ ∈ table.toListing.edges ↔
      ∃ entry, table.alphabet.idxOf? entry = column ∧ Lists table.header table.rows entry p q := by
  simp only [toListing, List.mem_flatMap, Row.mem_edges, Lists]
  constructor
  · rintro ⟨row, hrow, i, entry, targets, hentry, hcell, hp, hcolumn, hq⟩
    exact ⟨entry, hcolumn.symm, row, hrow, hp.symm, i, targets, hentry, hcell, hq⟩
  · rintro ⟨entry, hcolumn, row, hrow, hp, i, targets, hentry, hcell, hq⟩
    exact ⟨row, hrow, i, entry, targets, hentry, hcell, hp.symm, hcolumn.symm, hq⟩

/-- The accepting states are those whose rows say so. -/
theorem mem_accepting_iff {table : Table} {p : String} :
    p ∈ table.toListing.accepting ↔ ∃ row ∈ table.rows, row.name = p ∧ row.accepting = true := by
  simp only [toListing, List.mem_map, List.mem_filter]
  constructor
  · rintro ⟨row, ⟨hrow, haccepting⟩, hname⟩
    exact ⟨row, hrow, hname, haccepting⟩
  · rintro ⟨row, hrow, hname, haccepting⟩
    exact ⟨row, ⟨hrow, haccepting⟩, hname⟩

theorem Lists.mem_header {entry p q : String} (h : Lists header rows entry p q) :
    entry ∈ header := by
  obtain ⟨_, -, -, i, _, hentry, -, -⟩ := h
  exact List.mem_of_getElem? hentry

/-- The only entry of the header that is no symbol is the epsilon marker. -/
theorem Sound.idxOf?_eq_none_iff (h : Sound header initial rows) {entry : String}
    (hentry : entry ∈ header) :
    (h.table marker).alphabet.idxOf? entry = none ↔ entry = marker := by
  rw [Alphabet.idxOf?_eq_none_iff]
  show entry ∉ header.filter (· ≠ marker) ↔ _
  simp [hentry]

/-- A table describes its automaton. -/
theorem Sound.describes_toNfa (h : Sound header initial rows) (marker : String) :
    Describes marker header initial rows (h.table marker).toNfa := by
  refine ⟨rfl, StateNames.toList_ofMentions _, Listing.name_start_toNfa, fun p => ?_,
    fun p c q => ?_, fun p q => ?_⟩
  · exact Listing.mem_accepting_iff.trans (and_congr_right fun _ => mem_accepting_iff)
  · refine Listing.mem_targets_iff.trans (and_congr_right fun _ => and_congr_right fun _ => ?_)
    rw [mem_edges_iff]
    constructor
    · rintro ⟨-, symbol, hsymbol, hlists⟩
      exact ⟨symbol, Alphabet.get?_eq_some_iff.2 hsymbol, hlists⟩
    · rintro ⟨symbol, hsymbol, hlists⟩
      have hidx := Alphabet.get?_eq_some_iff.1 hsymbol
      exact ⟨Alphabet.lt_size_of_idxOf? hidx, symbol, hidx, hlists⟩
  · refine Listing.mem_epsilonTargets_iff.trans
      (and_congr_right fun _ => and_congr_right fun _ => ?_)
    rw [mem_edges_iff]
    constructor
    · rintro ⟨entry, hentry, hlists⟩
      rwa [← (h.idxOf?_eq_none_iff hlists.mem_header).1 hentry]
    · intro hlists
      exact ⟨marker, (h.idxOf?_eq_none_iff hlists.mem_header).2 rfl, hlists⟩

/-- Whatever blanks a table is written with, it is read as the automaton that it describes. -/
theorem load_of_spaced (config : Config) (h : Sound header initial rows)
    (htext : Spaced header initial rows text) :
    ∃ n, load config text = .ok n ∧ Describes config.epsilon header initial rows n :=
  ⟨_, Except.map_eq_ok_iff.2 ⟨_, h.parse_of_spaced htext config, rfl⟩, h.describes_toNfa _⟩

/-- A table with the marker in the middle of its header. Its initial state has its row behind the
    one of a state that accepts, and one of the targets has no row. -/
theorem load_of_spaced_marker :
    ∃ n, load {} "a ,\te , b \r\n  q0\n\n [ q1 ]\t, { q2,q2 } , {q0},{ }\n \t\nq0,{},{},{q3 ,q1}" =
        .ok n ∧
      Describes "e" ["a", "e", "b"] "q0"
        [⟨"q1", true, [["q2", "q2"], ["q0"], []]⟩, ⟨"q0", false, [[], [], ["q3", "q1"]]⟩] n := by
  have pad : ∀ (left right x : String), Blanks left.toList → Blanks right.toList →
      Padded x.toList (left.toList ++ x.toList ++ right.toList) :=
    fun _ _ _ hleft hright => ⟨_, _, hleft, hright, rfl⟩
  have hheader : Entries ["a", "e", "b"] "a ,\te , b \r".toList :=
    .cons (pad "" " " "a" (by decide) (by decide))
      (.cons (pad "\t" " " "e" (by decide) (by decide))
        (.one (pad " " " \r" "b" (by decide) (by decide))))
  have hfirst : RowSpaced ⟨"q1", true, [["q2", "q2"], ["q0"], []]⟩
      " [ q1 ]\t, { q2,q2 } , {q0},{ }".toList :=
    ⟨_, _, .accepting (pad " " " " "q1" (by decide) (by decide)),
      .cons (show Blanks "\t".toList by decide) (show Blanks " ".toList by decide)
        (.cons (pad " " "" "q2" (by decide) (by decide))
          (.one (pad "" " " "q2" (by decide) (by decide))))
        (.cons (show Blanks " ".toList by decide) (show Blanks " ".toList by decide)
          (.one (pad "" "" "q0" (by decide) (by decide)))
          (.cons (show Blanks "".toList by decide) (show Blanks "".toList by decide)
            (.none (show Blanks " ".toList by decide)) .nil)),
      [' '], [], by decide, by decide, rfl⟩
  have hsecond : RowSpaced ⟨"q0", false, [[], [], ["q3", "q1"]]⟩
      "q0,{},{},{q3 ,q1}".toList :=
    ⟨_, _, .plain,
      .cons (show Blanks "".toList by decide) (show Blanks "".toList by decide)
        (.none (show Blanks "".toList by decide))
        (.cons (show Blanks "".toList by decide) (show Blanks "".toList by decide)
          (.none (show Blanks "".toList by decide))
          (.cons (show Blanks "".toList by decide) (show Blanks "".toList by decide)
            (.cons (pad "" " " "q3" (by decide) (by decide))
              (.one (pad "" "" "q1" (by decide) (by decide)))) .nil)),
      [], [], by decide, by decide, rfl⟩
  have hnames : ∀ x ∈ ["a", "e", "b"], isName x = true := by decide
  have hsound : Sound ["a", "e", "b"] "q0"
      [⟨"q1", true, [["q2", "q2"], ["q0"], []]⟩, ⟨"q0", false, [[], [], ["q3", "q1"]]⟩] :=
    ⟨fun x hx => isEntry_of_isName (hnames x hx), by decide, by decide, by decide, by decide,
      by decide, by decide⟩
  refine load_of_spaced {} hsound ⟨"a ,\te , b \r".toList, "  q0".toList,
    ["".toList, " [ q1 ]\t, { q2,q2 } , {q0},{ }".toList, " \t".toList,
      "q0,{},{},{q3 ,q1}".toList], ⟨by decide, .inr (by decide)⟩, hheader,
    pad "  " "" "q0" (by decide) (by decide), .cons hfirst (.cons hsecond .nil)⟩

end Table

end Acceptors
