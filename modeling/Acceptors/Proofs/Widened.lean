import Acceptors.Proofs.Dfa.Completed
import Acceptors.Proofs.Nfa.Shape

/-!
# Columns are moved one by one

For a wider alphabet the columns of a table are moved to where their symbols stand there. The loop
starts from a blank table, takes the symbols of the old alphabet in turn, and copies the cells of
each column row by row. A column of the new alphabet whose symbol is not an old one stays blank.

Every cell that is read or written must exist: the loop has no result where one does not, and none
where the new alphabet lacks an old symbol.

Results:
* `exists_foldlM_eq_some`: a loop whose steps have results has one, and keeps what they keep.
* `Grid.HasShape.recolumn?_eq`: the table that the loop makes.
* `Nfa.WellFormed.widened?_eq`, `Dfa.WellFormed.widened?_eq`: the automata that it makes.
-/

namespace Acceptors

/-- A loop of which every step has a result has one, and what each step keeps holds in the end. -/
theorem exists_foldlM_eq_some {α β : Type} {P : Nat → β → Prop} {f : β → α → Option β} {l : List α}
    {b : β} (h : P 0 b)
    (hstep : ∀ k a b, l[k]? = some a → P k b → ∃ b', f b a = some b' ∧ P (k + 1) b') :
    ∃ b', l.foldlM f b = some b' ∧ P l.length b' := by
  induction l generalizing P b with
  | nil => exact ⟨b, rfl, h⟩
  | cons a l ih =>
    obtain ⟨b', hfirst, hb'⟩ := hstep 0 a b rfl h
    obtain ⟨b'', hrest, hb''⟩ := @ih (fun k => P (k + 1)) b' hb' fun k => hstep (k + 1)
    refine ⟨b'', ?_, hb''⟩
    rw [List.foldlM_cons, hfirst]
    exact hrest

/-! ## Tables -/

namespace Grid

/-- Copies the cell of a row from one column of `g` to another one of `h`. -/
def copyCell? {α : Type} (g : Grid α) (source target : Nat) (h : Grid α) (row : Nat) :
    Option (Grid α) := do
  let x ← g.get? row source
  let _ ← h.get? row target
  return h.set row target x

/-- Copies a column of `g` to where its symbol stands in the new alphabet, if it has the symbol (the
    column loop of `with_alphabet`). -/
def copyColumn? {α : Type} (g : Grid α) (rows : Nat) (new : Alphabet) (h : Grid α) :
    String × Nat → Option (Grid α)
  | (symbol, source) =>
    match new.idxOf? symbol with
    | none => some h
    | some target => (List.range rows).foldlM (g.copyCell? source target) h

/-- A table with the columns of `g`, which belong to the symbols of the old alphabet, where these
    symbols stand in the new one. -/
def recolumn? {α : Type} (g : Grid α) (blank : α) (rows : Nat) (old new : Alphabet) :
    Option (Grid α) :=
  old.symbols.zipIdx.foldlM (g.copyColumn? rows new) (.ofFn rows new.size fun _ _ => blank)

variable {α : Type} {g h h' : Grid α} {blank : α} {rows source target k : Nat}
variable {old new : Alphabet} {symbol : String}

/-- The first `k` rows of a column are copied to the table `h`, and nothing else is changed. -/
structure CopiedRows (g h : Grid α) (rows source target k : Nat) (new : Alphabet) (h' : Grid α) :
    Prop where
  shape : h'.HasShape rows new.size
  get?_eq : ∀ s < rows, ∀ c,
    h'.get? s c = if c = target ∧ s < k then g.get? s source else h.get? s c

theorem CopiedRows.succ (hh : CopiedRows g h rows source target k new h')
    (hg : g.HasShape rows old.size) (hsource : source < old.size) (htarget : target < new.size)
    (hk : k < rows) :
    ∃ h'', g.copyCell? source target h' k = some h'' ∧
      CopiedRows g h rows source target (k + 1) new h'' := by
  obtain ⟨x, hx⟩ := Option.isSome_iff_exists.1 (hg.get?_isSome.2 ⟨hk, hsource⟩)
  obtain ⟨y, hy⟩ := Option.isSome_iff_exists.1 (hh.shape.get?_isSome.2 ⟨hk, htarget⟩)
  refine ⟨h'.set k target x, by rw [copyCell?, hx, hy]; rfl, hh.shape.set _ _ _, fun s hs c => ?_⟩
  rw [get?_set]
  by_cases hcell : s = k ∧ c = target
  · obtain ⟨rfl, rfl⟩ := hcell
    simp [hx, hy]
  · rw [if_neg hcell, hh.get?_eq s hs]
    have hiff : c = target ∧ s < k ↔ c = target ∧ s < k + 1 := by omega
    simp only [hiff]

/-- A column is copied if it is there in both tables. -/
theorem HasShape.exists_foldlM_copyCell? (hg : g.HasShape rows old.size)
    (hh : h.HasShape rows new.size) (hsource : source < old.size) (htarget : target < new.size) :
    ∃ h', (List.range rows).foldlM (g.copyCell? source target) h = some h' ∧
      CopiedRows g h rows source target rows new h' := by
  have hstart : CopiedRows g h rows source target 0 new h := ⟨hh, fun s _ c => by simp⟩
  obtain ⟨h', hloop, hcopied⟩ := exists_foldlM_eq_some (l := List.range rows)
    (P := fun k h' => CopiedRows g h rows source target k new h') hstart fun k row h' hrow hh => by
      obtain ⟨hk, rfl⟩ : k < rows ∧ k = row := by
        simpa [List.getElem?_eq_some_iff] using hrow
      exact hh.succ hg hsource htarget hk
  rw [List.length_range] at hcopied
  exact ⟨h', hloop, hcopied⟩

/-- The columns of the first `k` old symbols are where they belong, and the others are blank. -/
structure Recolumned (g : Grid α) (blank : α) (rows : Nat) (old new : Alphabet) (k : Nat)
    (h : Grid α) : Prop where
  shape : h.HasShape rows new.size
  moved : ∀ {symbol source target}, old.idxOf? symbol = some source → source < k →
    new.idxOf? symbol = some target → ∀ s < rows, h.get? s target = g.get? s source
  blank : ∀ {symbol target}, (∀ source < k, old.idxOf? symbol ≠ some source) →
    new.idxOf? symbol = some target → ∀ s < rows, h.get? s target = some blank

theorem Recolumned.zero :
    Recolumned g blank rows old new 0 (.ofFn rows new.size fun _ _ => blank) where
  shape := hasShape_ofFn
  moved _ hlt := absurd hlt (Nat.not_lt_zero _)
  blank _ htarget s hs := by
    rw [get?_ofFn, if_pos ⟨hs, Alphabet.lt_size_of_idxOf? htarget⟩]

theorem Recolumned.succ (hg : g.HasShape rows old.size) (hh : Recolumned g blank rows old new k h)
    (hsymbol : old.idxOf? symbol = some k) :
    ∃ h', g.copyColumn? rows new h (symbol, k) = some h' ∧
      Recolumned g blank rows old new (k + 1) h' := by
  rw [copyColumn?]
  cases hnew : new.idxOf? symbol with
  | none =>
    -- the column is passed over: its symbol is none of those that are asked about
    refine ⟨h, rfl, hh.shape, fun hsource hlt htarget => ?_, fun hnot htarget => ?_⟩
    · rcases Nat.lt_succ_iff_lt_or_eq.1 hlt with hlt | rfl
      · exact hh.moved hsource hlt htarget
      · rw [Alphabet.eq_of_idxOf? hsource hsymbol, hnew] at htarget
        cases htarget
    · exact hh.blank (fun source hlt => hnot source (Nat.lt_succ_of_lt hlt)) htarget
  | some target =>
    obtain ⟨h', hloop, hcopied⟩ := hg.exists_foldlM_copyCell? hh.shape
      (Alphabet.lt_size_of_idxOf? hsymbol) (Alphabet.lt_size_of_idxOf? hnew)
    have hcells : ∀ s < rows, ∀ c,
        h'.get? s c = if c = target then g.get? s k else h.get? s c := by
      intro s hs c
      rw [hcopied.get?_eq s hs]
      simp only [hs, and_true]
    -- distinct symbols have distinct columns, so that nothing moved before is overwritten
    have hother : ∀ {x c}, new.idxOf? x = some c → x ≠ symbol → c ≠ target := by
      rintro x c hx hne rfl
      exact hne (Alphabet.eq_of_idxOf? hx hnew)
    refine ⟨h', hloop, hcopied.shape, fun {x i c} hsource hlt htarget s hs => ?_,
      fun {x c} hnot htarget s hs => ?_⟩
    · rw [hcells s hs]
      rcases Nat.lt_succ_iff_lt_or_eq.1 hlt with hlt | rfl
      · have hne : x ≠ symbol := by
          rintro rfl
          rw [hsymbol, Option.some.injEq] at hsource
          omega
        rw [if_neg (hother htarget hne)]
        exact hh.moved hsource hlt htarget s hs
      · obtain rfl := Alphabet.eq_of_idxOf? hsource hsymbol
        rw [hnew, Option.some.injEq] at htarget
        rw [if_pos htarget.symm]
    · have hne : x ≠ symbol := by
        rintro rfl
        exact hnot k (Nat.lt_succ_self k) hsymbol
      rw [hcells s hs, if_neg (hother htarget hne)]
      exact hh.blank (fun source hlt => hnot source (Nat.lt_succ_of_lt hlt)) htarget s hs

/-- When all columns are moved, each cell is that of the symbol of its column. -/
theorem Recolumned.eq_ofFn (hh : Recolumned g blank rows old new old.size h) :
    h = .ofFn rows new.size fun s c =>
      ((new.columnsIn old)[c]?.join).elim blank fun i => (g.get? s i).getD blank := by
  refine hh.shape.eq_of_getD hasShape_ofFn blank fun s c => ?_
  rw [get?_ofFn]
  by_cases hin : s < rows ∧ c < new.size
  · obtain ⟨symbol, hsymbol⟩ := Alphabet.exists_idxOf?_eq_some hin.2
    rw [if_pos hin, Alphabet.columnsIn_of_idxOf? hsymbol, Option.getD_some]
    cases hold : old.idxOf? symbol with
    | none =>
      rw [hh.blank (fun source _ => by simp [hold]) hsymbol s hin.1]
      rfl
    | some i =>
      rw [hh.moved hold (Alphabet.lt_size_of_idxOf? hold) hsymbol s hin.1]
      rfl
  · rw [if_neg hin, Option.not_isSome_iff_eq_none.1 (mt hh.shape.get?_isSome.1 hin)]

/-- The loop has a result, whose cells are those of the symbols of their columns. -/
theorem HasShape.recolumn?_eq (hg : g.HasShape rows old.size) (blank : α) (new : Alphabet) :
    g.recolumn? blank rows old new = some (.ofFn rows new.size fun s c =>
      ((new.columnsIn old)[c]?.join).elim blank fun i => (g.get? s i).getD blank) := by
  obtain ⟨h, hloop, hh⟩ := exists_foldlM_eq_some (l := old.symbols.zipIdx)
    (P := Recolumned g blank rows old new) .zero fun k a h ha hh => by
      obtain ⟨symbol, source⟩ := a
      obtain ⟨hsymbol, rfl⟩ : old.symbols[k]? = some symbol ∧ k = source := by
        simpa [List.getElem?_zipIdx] using ha
      exact hh.succ hg (Alphabet.get?_eq_some_iff.1 hsymbol)
  rw [List.length_zipIdx] at hh
  rw [← hh.eq_ofFn]
  exact hloop

end Grid

/-! ## Automata -/

variable {alphabet : Alphabet}

namespace Nfa

/-- The automaton over a wider alphabet, its columns moved one by one (`with_alphabet`). -/
def widened? (n : Nfa) (alphabet : Alphabet) : Option Nfa := do
  guard (alphabet.isSupersetOf n.alphabet)
  let moves ← n.moves.recolumn? ∅ n.size n.alphabet alphabet
  return { n with alphabet := alphabet, moves := moves }

theorem WellFormed.widened?_eq {n : Nfa} (hn : n.WellFormed)
    (hsub : ∀ x ∈ n.alphabet, x ∈ alphabet) :
    n.widened? alphabet = some (n.widen alphabet) := by
  rw [widened?, Alphabet.isSupersetOf_iff.2 hsub, hn.shape.recolumn?_eq]
  rfl

end Nfa

namespace Dfa

/-- The automaton over a wider alphabet, its columns moved one by one (`with_alphabet`). -/
def widened? (d : Dfa) (alphabet : Alphabet) : Option Dfa := do
  guard (alphabet.isSupersetOf d.alphabet)
  let moves ← d.moves.recolumn? none d.size d.alphabet alphabet
  return { d with alphabet := alphabet, moves := moves }

theorem WellFormed.widened?_eq {d : Dfa} (hd : d.WellFormed)
    (hsub : ∀ x ∈ d.alphabet, x ∈ alphabet) :
    d.widened? alphabet = some (d.widen alphabet) := by
  rw [widened?, Alphabet.isSupersetOf_iff.2 hsub, hd.shape.recolumn?_eq]
  have hcell : ∀ s (column : Option Nat),
      column.elim none (fun c => (d.moves.get? s c).getD none) = column.bind (d.move s) := by
    rintro s (_ | c)
    · rfl
    · show (d.moves.get? s c).getD none = (d.moves.get? s c).join
      cases d.moves.get? s c <;> rfl
  simp only [hcell]
  rfl

end Dfa

end Acceptors
