import Acceptors.Automaton
import Acceptors.Listing

/-!
# Tables

A table describes an automaton row by row. Its header lists the columns: the symbols and possibly,
at any place, the epsilon marker. A row gives a state, whether it accepts, and for each column the
targets of its moves.
-/

namespace Acceptors

namespace Table

/-- A row of a table. -/
structure Row where
  /-- The state. -/
  name : String
  /-- Whether the state accepts. -/
  accepting : Bool
  /-- The targets, by column of the header. -/
  cells : List (List String)
  deriving DecidableEq

/-- What a row says about the moves of its state (what the row loop of `parse` adds). An entry of
    the header that is no symbol is the epsilon marker. -/
def Row.edges (alphabet : Alphabet) (header : List String) (row : Row) : List Edge :=
  (header.zip row.cells).flatMap fun (entry, targets) =>
    targets.map fun target => ⟨row.name, alphabet.idxOf? entry, target⟩

/-- A row has a move to each target that it lists, in the column of each entry of the header. -/
theorem Row.mem_edges {alphabet : Alphabet} {header : List String} {row : Row} {e : Edge} :
    e ∈ row.edges alphabet header ↔
      ∃ (i : Nat) (entry : String) (targets : List String),
        header[i]? = some entry ∧ row.cells[i]? = some targets ∧
          e.source = row.name ∧ e.column = alphabet.idxOf? entry ∧ e.target ∈ targets := by
  rw [edges, List.mem_flatMap]
  constructor
  · rintro ⟨⟨entry, targets⟩, hpair, he⟩
    obtain ⟨target, htarget, rfl⟩ := List.mem_map.1 he
    obtain ⟨i, hi⟩ := List.mem_iff_getElem?.1 hpair
    obtain ⟨hentry, hcell⟩ := List.getElem?_zip_eq_some.1 hi
    exact ⟨i, entry, targets, hentry, hcell, rfl, rfl, htarget⟩
  · rintro ⟨i, entry, targets, hentry, hcell, hsource, hcolumn, htarget⟩
    have hpair : (entry, targets) ∈ header.zip row.cells :=
      List.mem_iff_getElem?.2 ⟨i, List.getElem?_zip_eq_some.2 ⟨hentry, hcell⟩⟩
    refine ⟨_, hpair, List.mem_map.2 ⟨e.target, htarget, ?_⟩⟩
    cases e
    simp_all

end Table

/-- A table. -/
structure Table where
  /-- The symbols. -/
  alphabet : Alphabet
  /-- The symbols and possibly the epsilon marker, by column. -/
  header : List String
  /-- The initial state. -/
  initial : String
  /-- The rows, in order. -/
  rows : List Table.Row
  deriving DecidableEq

namespace Table

/-- The table as a list of mentions: the initial state, then each row's state with its targets. -/
def toListing (t : Table) : Listing where
  alphabet := t.alphabet
  start := t.initial
  mentions := t.rows.flatMap fun row => row.name :: row.cells.flatten
  edges := t.rows.flatMap (·.edges t.alphabet t.header)
  accepting := (t.rows.filter (·.accepting)).map (·.name)

/-- The automaton that the table describes. -/
def toNfa (t : Table) : Nfa := t.toListing.toNfa

end Table

end Acceptors
