import Acceptors.Proofs.Grown
import Acceptors.Proofs.Table.Described

/-!
# Tables are entered row by row

The automaton of a table can be made while the rows are read. The state of a row is found or added,
and so are its targets. A row is gone through with two counters: one for the columns of the header,
and one for the symbols, which stops at the column of the epsilon marker. After each row there is
the automaton of what has been read so far, and after the last row the automaton of the table.

Results:
* `Table.entered`: the automaton that is made row by row.
* `Table.enterCells_cons`, `Table.enterCells_toNfa`: the two counters keep in step.
* `Table.enterRow_toNfa`: what a row adds.
* `Table.Sound.entered_eq_toNfa`: the automaton that is made is the automaton of the table.
-/

namespace Acceptors

namespace Table

/-! ## The loops -/

/-- Enters the targets of a set, for the state `s`. -/
def enterCell (s : Nat) (column : Option Nat) (n : Nfa) (targets : List String) : Nfa :=
  targets.foldl
    (fun n target =>
      let (n, t) := n.stateNamed target
      n.addEdge s column t) n

/-- Enters the sets of a row (the set loop of `parse`). The first counter runs over the columns of
    the header, the second one over the symbols. The column of the epsilon marker belongs to no
    symbol. -/
def enterCells (markerColumn : Option Nat) (s : Nat) :
    (column symbol : Nat) → List (List String) → Nfa → Nfa
  | _, _, [], n => n
  | column, symbol, targets :: cells, n =>
    if some column = markerColumn then
      enterCells markerColumn s (column + 1) symbol cells (enterCell s none n targets)
    else
      enterCells markerColumn s (column + 1) (symbol + 1) cells
        (enterCell s (some symbol) n targets)

/-- Enters a row (the row loop of `parse`). -/
def enterRow (markerColumn : Option Nat) (n : Nfa) (row : Row) : Nfa :=
  let (n, s) := n.stateNamed row.name
  enterCells markerColumn s 0 0 row.cells (n.setAccepting s row.accepting)

/-- The automaton that is made row by row (what `parse` makes). -/
def entered (marker : String) (t : Table) : Nfa :=
  t.rows.foldl (enterRow (t.header.idxOf? marker)) (.new t.alphabet t.initial)

/-! ## What is entered -/

open Listing

variable {l : Listing} {x marker : String} {s : Nat} {column : Option Nat} {targets : List String}
variable {cells : List (List String)} {header front back : List String} {row : Row}

theorem closed_append_targets (hl : l.Closed) (hs : l.names.idOf? x = some s) :
    (l.append targets (targets.map (⟨x, column, ·⟩)) []).Closed := by
  refine hl.append (fun e he => ?_) (fun e he => ?_) (List.forall_mem_nil _)
  · obtain ⟨y, -, rfl⟩ := List.mem_map.1 he
    exact .inl (StateNames.mem_toList_iff.2 ⟨s, hs⟩)
  · obtain ⟨y, hy, rfl⟩ := List.mem_map.1 he
    exact .inr hy

/-- The targets of a set are mentioned, and each of them is that of a move. -/
theorem enterCell_toNfa (hl : l.Closed) (hs : l.names.idOf? x = some s)
    (hcolumn : l.toNfa.HasColumn column) :
    enterCell s column l.toNfa targets =
      (l.append targets (targets.map (⟨x, column, ·⟩)) []).toNfa := by
  induction targets generalizing l with
  | nil => rw [List.map_nil, append_nil, enterCell, List.foldl_nil]
  | cons y targets ih =>
    obtain ⟨t, hstate, ht⟩ := hl.stateNamed_toNfa y
    have hmove : (l.append [y] [] []).toNfa.addEdge s column t =
        (l.append [y] [⟨x, column, y⟩] []).toNfa := by
      rw [addEdge_toNfa (idOf?_append hs) ht hcolumn, append_append]
      rfl
    rw [enterCell, List.foldl_cons, hstate]
    show enterCell s column ((l.append [y] [] []).toNfa.addEdge s column t) targets = _
    have hclosed : (l.append [y] [⟨x, column, y⟩] []).Closed :=
      show (l.append [y] ([y].map (⟨x, column, ·⟩)) []).Closed from closed_append_targets hl hs
    rw [hmove, ih hclosed (idOf?_append hs) hcolumn, append_append]
    rfl

/-- The second counter is the column of the next symbol. -/
theorem idxOf?_eq_some_length {alphabet : Alphabet} {entry : String}
    (hsymbols : alphabet.symbols = (front ++ entry :: back).filter (· ≠ marker))
    (hentry : entry ≠ marker) :
    alphabet.idxOf? entry = some (front.filter (· ≠ marker)).length := by
  rw [← Alphabet.get?_eq_some_iff, Alphabet.get?, hsymbols, List.filter_append,
    List.filter_cons_of_pos (by simpa using hentry), List.getElem?_append_right (Nat.le_refl _),
    Nat.sub_self]
  rfl

/-- Both counters are moved behind the next entry of the header. -/
theorem enterCells_cons {n : Nfa} {alphabet : Alphabet} {entry : String}
    (hnodup : (front ++ entry :: back).Nodup)
    (hsymbols : alphabet.symbols = (front ++ entry :: back).filter (· ≠ marker)) :
    enterCells ((front ++ entry :: back).idxOf? marker) s front.length
        (front.filter (· ≠ marker)).length (targets :: cells) n =
      enterCells ((front ++ entry :: back).idxOf? marker) s (front ++ [entry]).length
        ((front ++ [entry]).filter (· ≠ marker)).length cells
        (enterCell s (alphabet.idxOf? entry) n targets) := by
  have hentry : (front ++ entry :: back)[front.length]? = some entry := by
    rw [List.getElem?_append_right (Nat.le_refl _), Nat.sub_self]
    rfl
  have hmarker : some front.length = (front ++ entry :: back).idxOf? marker ↔ entry = marker := by
    rw [eq_comm, idxOf?_eq_some_iff_getElem? hnodup, hentry, Option.some.injEq]
  rw [enterCells, List.length_append, List.length_singleton, List.filter_append]
  by_cases hm : entry = marker
  · have hcolumn : alphabet.idxOf? entry = none := by
      rw [Alphabet.idxOf?_eq_none_iff, Alphabet.mem_def, hsymbols]
      simp [hm]
    rw [if_pos (hmarker.2 hm), hcolumn, List.filter_cons_of_neg (by simpa using hm),
      List.filter_nil, List.append_nil]
  · rw [if_neg (mt hmarker.1 hm), idxOf?_eq_some_length hsymbols hm,
      List.filter_cons_of_pos (by simpa using hm), List.filter_nil, List.length_append,
      List.length_singleton]

/-- What a row lists in the columns behind those that have been gone through. -/
theorem enterCells_toNfa (hheader : header = front ++ back) (hnodup : header.Nodup)
    (hsymbols : l.alphabet.symbols = header.filter (· ≠ marker))
    (hlength : cells.length = back.length) (hl : l.Closed) (hs : l.names.idOf? x = some s) :
    enterCells (header.idxOf? marker) s front.length (front.filter (· ≠ marker)).length cells
        l.toNfa =
      (l.append cells.flatten
        ((back.zip cells).flatMap fun (entry, targets) =>
          targets.map (⟨x, l.alphabet.idxOf? entry, ·⟩)) []).toNfa := by
  induction cells generalizing front back l with
  | nil => rw [enterCells, List.zip_nil_right, List.flatten_nil, List.flatMap_nil, append_nil]
  | cons targets cells ih =>
    cases back with
    | nil => cases hlength
    | cons entry back =>
      have hcolumn : l.toNfa.HasColumn (l.alphabet.idxOf? entry) := fun c hc =>
        Alphabet.lt_size_of_idxOf? hc
      have hnext : header = front ++ [entry] ++ back := by
        rw [hheader, List.append_assoc, List.singleton_append]
      have hrest := ih (l := l.append targets (targets.map (⟨x, l.alphabet.idxOf? entry, ·⟩)) [])
        hnext hsymbols (Nat.succ.inj hlength) (closed_append_targets hl hs) (idOf?_append hs)
      subst hheader
      rw [enterCells_cons hnodup hsymbols, enterCell_toNfa hl hs hcolumn, hrest, append_append]
      rfl

/-- What a row says about the automaton of a listing. -/
def withRow (header : List String) (l : Listing) (row : Row) : Listing :=
  l.append (row.name :: row.cells.flatten) (row.edges l.alphabet header)
    (if row.accepting then [row.name] else [])

theorem closed_withRow (hl : l.Closed) : (withRow header l row).Closed := by
  refine hl.append (fun e he => .inr ?_) (fun e he => .inr ?_) fun x hx => .inr ?_
  · obtain ⟨_, _, _, -, -, hsource, -, -⟩ := Row.mem_edges.1 he
    exact hsource ▸ List.mem_cons_self
  · obtain ⟨_, _, targets, -, hcell, -, -, htarget⟩ := Row.mem_edges.1 he
    exact List.mem_cons_of_mem _
      (List.mem_flatten.2 ⟨targets, List.mem_of_getElem? hcell, htarget⟩)
  · split at hx
    · exact List.mem_singleton.1 hx ▸ List.mem_cons_self
    · cases hx

/-- A row of a new state is entered. -/
theorem enterRow_toNfa (hnodup : header.Nodup)
    (hsymbols : l.alphabet.symbols = header.filter (· ≠ marker))
    (hlength : row.cells.length = header.length) (hl : l.Closed)
    (hfresh : row.name ∉ l.accepting) :
    enterRow (header.idxOf? marker) l.toNfa row = (withRow header l row).toNfa := by
  obtain ⟨s, hstate, hs⟩ := hl.stateNamed_toNfa row.name
  have haccepting : (l.append [row.name] [] []).toNfa.setAccepting s row.accepting =
      (l.append [row.name] [] (if row.accepting then [row.name] else [])).toNfa := by
    have hfresh : row.name ∉ (l.append [row.name] [] []).accepting := by
      rwa [show (l.append [row.name] [] []).accepting = l.accepting from List.append_nil _]
    rw [setAccepting_toNfa hs fun _ => hfresh, append_append]
    rfl
  have hclosed : (l.append [row.name] [] (if row.accepting then [row.name] else [])).Closed := by
    refine hl.append (List.forall_mem_nil _) (List.forall_mem_nil _) fun x hx => .inr ?_
    split at hx
    · exact hx
    · cases hx
  have hmentioned : (l.append [row.name] [] (if row.accepting then [row.name] else [])).names.idOf?
      row.name = some s := hs
  have hcells := enterCells_toNfa (l := l.append _ _ _) (List.nil_append header).symm hnodup
    hsymbols hlength hclosed hmentioned
  rw [append_append] at hcells
  rw [enterRow, hstate]
  show enterCells _ s 0 0 row.cells ((l.append [row.name] [] []).toNfa.setAccepting s _) = _
  rw [haccepting]
  rw [List.nil_append, List.append_nil] at hcells
  exact hcells

/-- The rows are entered one after the other. -/
theorem foldl_enterRow_toNfa {rows : List Row} (hnodup : header.Nodup)
    (hsymbols : l.alphabet.symbols = header.filter (· ≠ marker))
    (hlength : ∀ row ∈ rows, row.cells.length = header.length) (hl : l.Closed)
    (hdistinct : (rows.map (·.name)).Nodup) (hfresh : ∀ row ∈ rows, row.name ∉ l.accepting) :
    rows.foldl (enterRow (header.idxOf? marker)) l.toNfa =
      (rows.foldl (withRow header) l).toNfa := by
  induction rows generalizing l with
  | nil => rfl
  | cons row rows ih =>
    obtain ⟨hcount, hlength⟩ := List.forall_mem_cons.1 hlength
    obtain ⟨hrow, hfresh⟩ := List.forall_mem_cons.1 hfresh
    rw [List.map_cons, List.nodup_cons] at hdistinct
    rw [List.foldl_cons, List.foldl_cons, enterRow_toNfa hnodup hsymbols hcount hl hrow]
    refine ih hsymbols hlength (closed_withRow hl) hdistinct.2 fun row' hrow' hmem => ?_
    rcases List.mem_append.1 hmem with hmem | hmem
    · exact hfresh row' hrow' hmem
    · split at hmem
      · exact hdistinct.1 (List.mem_map.2 ⟨row', hrow', List.mem_singleton.1 hmem⟩)
      · cases hmem

theorem foldl_withRow (rows : List Row) :
    rows.foldl (withRow header) l =
      l.append (rows.flatMap fun row => row.name :: row.cells.flatten)
        (rows.flatMap (·.edges l.alphabet header)) ((rows.filter (·.accepting)).map (·.name)) := by
  induction rows generalizing l with
  | nil => exact append_nil.symm
  | cons row rows ih =>
    have haccepting : ((row :: rows).filter (·.accepting)).map (·.name) =
        (if row.accepting then [row.name] else []) ++ (rows.filter (·.accepting)).map (·.name) := by
      rw [List.filter_cons]
      split <;> rfl
    rw [List.foldl_cons, ih, withRow, append_append, List.flatMap_cons, List.flatMap_cons,
      haccepting]
    rfl

/-- The automaton that is made row by row is that of the table. -/
theorem Sound.entered_eq_toNfa {initial : String} {rows : List Row}
    (h : Sound header initial rows) (marker : String) :
    entered marker (h.table marker) = (h.table marker).toNfa := by
  have hclosed : (Listing.mk (h.table marker).alphabet initial [] [] []).Closed :=
    ⟨List.forall_mem_nil _, List.forall_mem_nil _, List.forall_mem_nil _⟩
  have hrows := foldl_enterRow_toNfa h.distinct rfl h.columns hclosed h.nodup
    fun row _ => List.not_mem_nil
  rw [entered]
  show rows.foldl (enterRow (header.idxOf? marker)) (.new (h.table marker).alphabet initial) = _
  rw [new_eq_toNfa]
  refine hrows.trans ?_
  rw [foldl_withRow]
  rfl

end Table

end Acceptors
