import Acceptors.Proofs.Minimal.Separated

/-!
# Filling the table with a stack

Marks spread along the notes from a stack of pairs. A pair that is taken off and is marked already
is passed over; any other is marked, and what is noted with it is put on the stack. Notes may lead
round in circles, but every pair is marked once at most, so that the stack is empty in the end. The
table that is filled in this way is the one that tells apart the states that accept different words.

In a complete automaton every word over its symbols leads from every state to some state. States are
equivalent in the table exactly if no such word leads one of them to an accepting state and the
other to one that does not accept.

Results:
* `Search.exists_markWhile_eq`: the marking ends, whatever the notes are, and what it marks.
* `PairTable.Fits`, `PairTable.Fits.visit`: the pairs that are noted are pairs of the table.
* `PairTable.exists_filled_eq`: the whole table is filled.
* `PairTable.fill_exact`: which states are equivalent in it.
-/

namespace Acceptors

/-! ## The loop that marks -/

namespace Search

/-- Takes nodes off the stack until it is empty (`mark`). A node that is marked is passed over, any
    other is marked and its successors are put on the stack. There is no result if the steps do not
    suffice, or if a node has no mark. -/
def markWhile (next : Nat → List Nat) : (steps : Nat) → (marks : Array Bool) →
    (stack : List Nat) → Option (Array Bool)
  | _, marks, [] => some marks
  | 0, _, _ :: _ => none
  | steps + 1, marks, node :: stack =>
    match marks[node]? with
    | none => none
    | some true => markWhile next steps marks stack
    | some false => markWhile next steps (marks.setIfInBounds node true) (next node ++ stack)

variable {next : Nat → List Nat} {steps steps' fuel size node : Nat} {marks marks' : Array Bool}
variable {stack : List Nat}

/-- More steps change no result. -/
theorem markWhile_of_le (hle : steps ≤ steps')
    (h : markWhile next steps marks stack = some marks') :
    markWhile next steps' marks stack = some marks' := by
  fun_induction markWhile next steps marks stack generalizing steps' with
  | case1 => simpa [markWhile] using h
  | case2 => cases h
  | case3 steps marks node stack hnone => cases h
  | case4 steps marks node stack hmark ih =>
    obtain ⟨steps', rfl⟩ := Nat.exists_eq_add_of_lt hle
    rw [markWhile, hmark]
    exact ih (by omega) h
  | case5 steps marks node stack hmark ih =>
    obtain ⟨steps', rfl⟩ := Nat.exists_eq_add_of_lt hle
    rw [markWhile, hmark]
    exact ih (by omega) h

theorem mark_cons_of_isMarked (h : isMarked marks node = true) :
    mark next fuel marks (node :: stack) = mark next fuel marks stack := by
  cases fuel with
  | zero => rfl
  | succ fuel => rw [mark, mark, List.dropWhile_cons, if_pos h]

theorem mark_cons_of_not_isMarked (h : ¬ isMarked marks node = true) :
    mark next (fuel + 1) marks (node :: stack) =
      mark next fuel (marks.setIfInBounds node true) (next node ++ stack) := by
  rw [mark, List.dropWhile_cons, if_neg h]

/-- The loop ends, also where nodes lead round in circles, and marks what `mark` marks. -/
theorem exists_markWhile_eq (hnext : ∀ p < size, ∀ q ∈ next p, q < size)
    (hmarks : marks.size = size) (hstack : ∀ p ∈ stack, p < size)
    (hfuel : marks.count false ≤ fuel) :
    ∃ steps, markWhile next steps marks stack = some (mark next fuel marks stack) := by
  -- each step marks a node or makes the stack shorter: the induction is on the nodes to be marked
  -- and, as long as none of them is marked, on the stack
  induction hcount : marks.count false using Nat.strongRecOn generalizing marks stack fuel with
  | ind count ih =>
    induction stack with
    | nil =>
      refine ⟨0, ?_⟩
      cases fuel <;> rfl
    | cons node stack ihstack =>
      obtain ⟨hnode, hstack⟩ := List.forall_mem_cons.1 hstack
      have hget : marks[node]? = some marks[node] := Array.getElem?_eq_getElem (hmarks ▸ hnode)
      cases hmark : marks[node] with
      | true =>
        rw [hmark] at hget
        have hmarked : isMarked marks node = true := by rw [isMarked, hget]; rfl
        obtain ⟨steps, hsteps⟩ := ihstack hstack
        refine ⟨steps + 1, ?_⟩
        rw [markWhile, hget, mark_cons_of_isMarked hmarked]
        exact hsteps
      | false =>
        rw [hmark] at hget
        have hunmarked : ¬ isMarked marks node = true := by rw [isMarked, hget]; simp
        have hcount' := count_setIfInBounds hunmarked
        have hless : (marks.setIfInBounds node true).count false < count := by omega
        obtain ⟨fuel, rfl⟩ : ∃ k, fuel = k + 1 := ⟨fuel - 1, by omega⟩
        have hall : ∀ p ∈ next node ++ stack, p < size :=
          List.forall_mem_append.2 ⟨hnext node hnode, hstack⟩
        obtain ⟨steps, hsteps⟩ :=
          @ih _ hless fuel _ _ (Array.size_setIfInBounds.trans hmarks) hall (by omega) rfl
        refine ⟨steps + 1, ?_⟩
        rw [markWhile, hget, mark_cons_of_not_isMarked hunmarked]
        exact hsteps

end Search

/-! ## The loop over the pairs -/

namespace PairTable

/-- Visits a pair like `Filling.visit`, but marks with a stack, in at most the given number of steps
    (the second loop of `fill`). -/
def Filling.visitWhile (steps size : Nat) (moves : Array (List (Option Nat))) :
    Filling → Nat × Nat → Option Filling
  | ⟨marked, dependents⟩, (a, b) =>
    let pair := pairOf size a b
    if Search.isMarked marked pair then some ⟨marked, dependents⟩
    else
      let next := successorPairs size (moves[a]?.getD []) (moves[b]?.getD [])
      if next.any (Search.isMarked marked) then do
        let marked ← Search.markWhile (fun p => dependents[p]?.getD []) steps marked [pair]
        return ⟨marked, dependents⟩
      else some ⟨marked, next.foldl (fun noted p => noted.modify p (pair :: ·)) dependents⟩

/-- The table of an automaton, filled with a stack; each time it is emptied in at most the given
    number of steps (`fill`). -/
def filled (steps : Nat) (d : Dfa) : Option PairTable := do
  let f ← (pairs d.size).foldlM (Filling.visitWhile steps d.size (moveLists d)) (.initial d)
  return ⟨d.size, f.marked⟩

variable {d : Dfa} {f : Filling} {a b p q steps steps' : Nat} {l : List (Nat × Nat)}

/-! ## Pairs of the table -/

/-- The marks and the notes are those of a table of the given size, and what is noted are pairs of
    this table. -/
structure Fits (size : Nat) (f : Filling) : Prop where
  size_marked : f.marked.size = size * size
  noted_lt : ∀ p < size * size, ∀ q ∈ f.dependents[p]?.getD [], q < size * size

theorem Fits.initial : Fits d.size (.initial d) where
  size_marked := Array.size_ofFn
  noted_lt p hp q hq := by simp [Filling.initial, hp] at hq

theorem Fits.markFrom {size : Nat} (h : Fits size f) : Fits size (f.markFrom size p) where
  size_marked := Search.size_mark.trans h.size_marked
  noted_lt := h.noted_lt

theorem Fits.note {size : Nat} (h : Fits size f) (hp : p < size * size) (next : List Nat) :
    Fits size (f.note p next) where
  size_marked := h.size_marked
  noted_lt r hr q hq := by
    rcases Search.mem_foldl_modify.1 hq with hq | ⟨rfl, -, -⟩
    · exact h.noted_lt r hr q hq
    · exact hp

theorem Fits.visit (h : Fits d.size f) (ha : a < d.size) (hb : b < d.size) :
    Fits d.size (f.visit d.size (moveLists d) (a, b)) := by
  rcases visit_cases d f a b with ⟨-, hvisit⟩ | ⟨-, hvisit⟩ | ⟨-, hvisit⟩ <;> rw [hvisit]
  · exact h
  · exact h.markFrom
  · exact h.note (pairOf_lt ha hb) _

/-! ## The table is filled -/

/-- A visit is done with enough steps, and with any more. -/
theorem Fits.exists_visitWhile_eq (h : Fits d.size f) (ha : a < d.size) (hb : b < d.size) :
    ∃ enough, ∀ steps ≥ enough, f.visitWhile steps d.size (moveLists d) (a, b) =
      some (f.visit d.size (moveLists d) (a, b)) := by
  obtain ⟨marked, dependents⟩ := f
  have hfuel : marked.count false ≤ d.size * d.size := by
    rw [← h.size_marked]
    exact Array.count_le_size
  obtain ⟨enough, henough⟩ := Search.exists_markWhile_eq h.noted_lt h.size_marked
    (List.forall_mem_singleton.2 (pairOf_lt ha hb)) hfuel
  refine ⟨enough, fun steps hsteps => ?_⟩
  rw [Filling.visitWhile, Filling.visit, Search.markWhile_of_le hsteps henough]
  split
  · rfl
  dsimp only
  split
  · rfl
  · rfl

/-- All visits are done with enough steps. -/
theorem Fits.exists_foldlM_visitWhile_eq (h : Fits d.size f)
    (hl : ∀ a b, (a, b) ∈ l → a < d.size ∧ b < d.size) :
    ∃ enough, ∀ steps ≥ enough, l.foldlM (Filling.visitWhile steps d.size (moveLists d)) f =
      some (l.foldl (Filling.visit d.size (moveLists d)) f) := by
  induction l generalizing f with
  | nil => exact ⟨0, fun _ _ => rfl⟩
  | cons pair l ih =>
    obtain ⟨a, b⟩ := pair
    obtain ⟨ha, hb⟩ := hl a b List.mem_cons_self
    obtain ⟨first, hfirst⟩ := h.exists_visitWhile_eq ha hb
    obtain ⟨rest, hrest⟩ := ih (h.visit ha hb) fun a b hmem => hl a b (List.mem_cons_of_mem _ hmem)
    refine ⟨max first rest, fun steps hsteps => ?_⟩
    rw [List.foldlM_cons, hfirst steps (le_trans (le_max_left _ _) hsteps)]
    exact hrest steps (le_trans (le_max_right _ _) hsteps)

theorem exists_filled_eq (d : Dfa) :
    ∃ enough, ∀ steps ≥ enough, filled steps d = some (fill d) := by
  obtain ⟨enough, henough⟩ := (Fits.initial (d := d)).exists_foldlM_visitWhile_eq
    (l := pairs d.size) fun a b hmem => by
      obtain ⟨hab, hb⟩ := mem_pairs_iff.1 hmem
      exact ⟨Nat.lt_trans hab hb, hb⟩
  refine ⟨enough, fun steps hsteps => ?_⟩
  rw [filled, henough steps hsteps]
  rfl

end PairTable

/-! ## Runs of a complete automaton -/

namespace Dfa

variable {d : Dfa} {s t : Nat} {w : List String}

/-- In a complete automaton, every word over the alphabet leads somewhere. -/
theorem WellFormed.exists_run (hd : d.WellFormed) (hcomplete : d.isComplete = true)
    (hs : s < d.size) (hw : ∀ a ∈ w, a ∈ d.alphabet) : ∃ t, d.run s w = some t := by
  induction w generalizing s with
  | nil => exact ⟨s, rfl⟩
  | cons a w ih =>
    obtain ⟨ha, hw⟩ := List.forall_mem_cons.1 hw
    obtain ⟨r, hr⟩ := hd.exists_next hcomplete hs ha
    obtain ⟨t, ht⟩ := ih (hd.next_lt hr) hw
    exact ⟨t, by rw [run_cons, hr]; exact ht⟩

/-- In a complete automaton, states accept the same words if no word over the alphabet leads just
    one of them to acceptance. -/
theorem WellFormed.same_iff_run (hd : d.WellFormed) (hcomplete : d.isComplete = true)
    (hs : s < d.size) (ht : t < d.size) :
    d.Same s t ↔ ∀ w, (∀ a ∈ w, a ∈ d.alphabet) → ∃ q r, d.run s w = some q ∧
      d.run t w = some r ∧ d.isAccepting q = d.isAccepting r := by
  have hend : ∀ {s w q}, d.run s w = some q → d.acceptsFrom s w = d.isAccepting q := by
    intro s w q hq
    rw [acceptsFrom, hq]
    rfl
  constructor
  · intro h w hw
    obtain ⟨q, hq⟩ := hd.exists_run hcomplete hs hw
    obtain ⟨r, hr⟩ := hd.exists_run hcomplete ht hw
    exact ⟨q, r, hq, hr, by rw [← hend hq, ← hend hr, h w]⟩
  · intro h w
    by_cases hw : ∀ a ∈ w, a ∈ d.alphabet
    · obtain ⟨q, r, hq, hr, heq⟩ := h w hw
      rw [hend hq, hend hr, heq]
    · -- a word with another symbol is accepted by no state
      have hreject : ∀ s, d.acceptsFrom s w = false := fun s =>
        Bool.eq_false_iff.2 fun haccepts => hw (mem_alphabet_of_acceptsFrom haccepts)
      rw [hreject, hreject]

end Dfa

/-! ## What the table tells apart -/

namespace PairTable

/-- The marking ends from any stack, even where notes lead round in circles, and with it the filling
    of the table. In the table of a complete automaton two states are equivalent exactly if every
    word over the alphabet leads both to accepting states or both to states that do not accept,
    which is to say that they accept the same words. -/
theorem fill_exact {d : Dfa} (hd : d.WellFormed) (hcomplete : d.isComplete = true) :
    (∀ (notes : Nat → List Nat) (marks : Array Bool) (stack : List Nat),
      (∀ p < marks.size, ∀ q ∈ notes p, q < marks.size) → (∀ p ∈ stack, p < marks.size) →
      ∃ steps, Search.markWhile notes steps marks stack =
        some (Search.mark notes marks.size marks stack)) ∧
    (∃ enough, ∀ steps ≥ enough, filled steps d = some (fill d)) ∧
    ∀ a < d.size, ∀ b < d.size,
      ((fill d).equivalent a b = true ↔ ∀ w, (∀ x ∈ w, x ∈ d.alphabet) → ∃ q r,
        d.run a w = some q ∧ d.run b w = some r ∧ d.isAccepting q = d.isAccepting r) ∧
      ((fill d).equivalent a b = true ↔ ∀ w, d.acceptsFrom a w = d.acceptsFrom b w) := by
  refine ⟨fun notes marks stack hnotes hstack => ?_, exists_filled_eq d, fun a ha b hb => ?_⟩
  · exact Search.exists_markWhile_eq hnotes rfl hstack Array.count_le_size
  · have hsame := equivalent_fill_iff hd hcomplete ha hb
    exact ⟨hsame.trans (hd.same_iff_run hcomplete ha hb), hsame⟩

/-- Two pairs that are noted with each other, and an automaton of five states, of which the pair of
    the first two is noted with itself before a mark reaches it. -/
theorem fill_exact_circle :
    let notes : Nat → List Nat := fun p => [1 - p]
    let targets := [2, 0, 3, 1, 2, 0, 4, 1, 4, 4]
    let d := Dfa.ofFn ⟨["a", "b"], by decide⟩ (.ofList ["p", "q", "r", "s", "t"])
      (fun s c => targets[2 * s + c]?) 0 (.single 4)
    d.WellFormed ∧ d.isComplete = true ∧
      (∃ steps, Search.markWhile notes steps #[false, false] [0] = some #[true, true]) ∧
      (∃ enough, ∀ steps ≥ enough, filled steps d = some (fill d)) ∧
      (fill d).equivalent 0 2 = true ∧ (∀ w, d.acceptsFrom 0 w = d.acceptsFrom 2 w) ∧
      (fill d).equivalent 0 1 = false ∧ ¬ ∀ w, (∀ x ∈ w, x ∈ d.alphabet) → ∃ q r,
        d.run 0 w = some q ∧ d.run 1 w = some r ∧ d.isAccepting q = d.isAccepting r := by
  intro notes targets d
  have htargets : ∀ t ∈ targets, t < 5 := by decide
  have hd : d.WellFormed := .ofFn (by decide) (fun s hs => StateSet.mem_single.1 hs ▸ by decide)
    fun s c t _ ht => htargets t (List.mem_of_getElem? ht)
  have hcomplete : d.isComplete = true := by decide
  have hseparate : (fill d).equivalent 0 1 = false := by decide
  obtain ⟨hmark, hfilled, hequivalent⟩ := fill_exact hd hcomplete
  have hnotes : ∀ p < 2, ∀ q ∈ notes p, q < 2 := by decide
  refine ⟨hd, hcomplete, hmark notes #[false, false] [0] hnotes (by decide), hfilled, by decide,
    (hequivalent 0 (by decide) 2 (by decide)).2.1 (by decide), hseparate, fun h => ?_⟩
  rw [(hequivalent 0 (by decide) 1 (by decide)).1.2 h] at hseparate
  cases hseparate

end PairTable

end Acceptors
