import Acceptors.SourceError
import Acceptors.Table.Basic
import Acceptors.Text.Name

/-!
# Reading tables

The first line of a table holds the header, separated by commas, the second the initial state, and
every further line that is not blank a row: the state, in square brackets if it accepts, and then
one set of targets in braces per column. Commas and blanks between the sets do not matter.

A table is read line by line, and the first line at fault is reported.
-/

namespace Acceptors

namespace Table

open Text

/-! ## Rows -/

/-- The sets of targets in the rest of a row (the sets of `parse_row`). Within a set, `inside` holds
    what was read of it, in reverse order. -/
def readCells (inside : Option (List Char)) :
    List Char → Except TableFault (List (List String))
  | [] =>
    match inside with
    | none => .ok []
    | some _ => .error .openSet
  | c :: rest =>
    match inside with
    | some body =>
      if c = '\x7d' then do
        let cells ← readCells none rest
        return fields body.reverse :: cells
      else readCells (some (c :: body)) rest
    | none =>
      if c = ',' || isBlank c then readCells none rest
      else if c = '\x7b' then readCells (some []) rest
      else .error (.noSet (String.ofList (c :: rest)))

/-- The state at the head of a row, and whether it stands in square brackets (the name of
    `parse_row`). -/
def readHead (head : List Char) : Except TableFault (String × Bool) := do
  let (name, accepting) ← match head with
    | '[' :: inner =>
      if inner.getLast? = some ']' then pure (trim inner.dropLast, true)
      else throw (.openMarker (String.ofList head))
    | _ => pure (head, false)
  let name := String.ofList name
  if isName name then return (name, accepting) else throw (.badState name)

/-- A row from its line (`parse_row`). -/
def readRow (line : List Char) : Except TableFault Row := do
  let (head, rest) := line.span (· ≠ ',')
  let (name, accepting) ← readHead (trim head)
  let cells ← readCells none rest
  return ⟨name, accepting, cells⟩

/-- Checks a row against the number of columns and the states of the rows before it (the checks of
    `parse`). -/
def checkRow (columns : Nat) (before : List String) (row : Row) : Except TableFault Row :=
  if row.cells.length ≠ columns then .error (.setCount columns row.cells.length)
  else if row.name ∈ before then .error (.rowTwice row.name)
  else
    match row.cells.flatten.find? (!isName ·) with
    | some target => .error (.badState target)
    | none => .ok row

/-- The rows of the remaining lines; `before` holds the states of the rows before them (the row loop
    of `parse`). -/
def readRows (columns : Nat) (before : List String) :
    List (Nat × List Char) → Except SourceError (List Row)
  | [] => .ok []
  | (number, line) :: rest =>
    if line.isEmpty then readRows columns before rest
    else
      match readRow line >>= checkRow columns before with
      | .error fault => .error (.table number fault)
      | .ok row => do
        let rows ← readRows columns (row.name :: before) rest
        return row :: rows

/-! ## Tables -/

/-- The alphabet of a header: its entries without the epsilon marker, which may occur once (the
    header loop of `parse`). -/
def headerAlphabet (marker : String) (header : List String) : Except TableFault Alphabet :=
  if 1 < header.count marker then .error .markerTwice
  else (Alphabet.ofList (header.filter (· ≠ marker))).mapError .badAlphabet

/-- Reads a table (what `parse` reads). -/
def parse (config : Config) (text : String) : Except SourceError Table :=
  match numberedLines text with
  | [] => .error (.table 1 .noAlphabet)
  | (_, first) :: rest => do
    let header := fields first
    let alphabet ← (headerAlphabet config.epsilon header).mapError (.table 1)
    match rest with
    | [] => throw (.table 2 .noInitial)
    | (_, second) :: rest =>
      let initial := String.ofList second
      if !isName initial then throw (.table 2 (.badInitial initial))
      let rows ← readRows header.length [] rest
      return ⟨alphabet, header, initial, rows⟩

/-- Reads the automaton that a table describes (`parse`). -/
def load (config : Config) (text : String) : Except SourceError Nfa := (parse config text).map toNfa

end Table

end Acceptors
