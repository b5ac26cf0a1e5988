import Acceptors.Nfa.Basic
import Acceptors.Search

/-!
# Running a nondeterministic automaton

A run follows all moves at once: it keeps the set of the states in which the automaton could be.
Words are lists of symbols; a symbol that the alphabet lacks rejects the word.

Results:
* `Nfa.closures_eq`, `Nfa.getElem?_closures`: the closures of all states are the closures of the
  states one by one.
* `Nfa.stepRow_eq`: a step on all symbols at once is a step on each of them.
-/

namespace Acceptors

namespace Nfa

/-- The states that lead from the given ones through epsilon moves alone, these included
    (`epsilon_closure`). -/
def closure (n : Nfa) (X : StateSet) : StateSet :=
  Search.reach n.size (fun s => (n.epsilonTargets s).members) X.members

/-- The closure of each state (`epsilon_closures`). The lists of targets that the searches follow
    are made once for all of them. -/
def closures (n : Nfa) : Array StateSet :=
  let targets := (n.epsilon.toList.map StateSet.members).toArray
  Array.ofFn fun s : Fin n.size =>
    Search.reach n.size (fun s => targets[s]?.getD []) (StateSet.single s.val).members

theorem closures_eq (n : Nfa) :
    n.closures = Array.ofFn fun s : Fin n.size => n.closure (.single s.val) := by
  have h : (fun s => (n.epsilon.toList.map StateSet.members).toArray[s]?.getD []) =
      fun s : Nat => (n.epsilonTargets s).members := by
    funext s
    rw [List.getElem?_toArray, List.getElem?_map, Array.getElem?_toList, epsilonTargets]
    cases n.epsilon[s]? <;> rfl
  simp only [closures, closure, h]

theorem size_closures (n : Nfa) : n.closures.size = n.size := by
  rw [closures_eq, Array.size_ofFn]

theorem getElem?_closures {n : Nfa} {s : Nat} (hs : s < n.size) :
    n.closures[s]? = some (n.closure (.single s)) := by
  rw [closures_eq, Array.getElem?_ofFn, dif_pos hs]

/-- The targets of a set of states on the symbol of a column, epsilon moves left aside
    (`step_states`). -/
def step (n : Nfa) (X : StateSet) (column : Nat) : StateSet :=
  X.biUnion fun s => n.targets s column

/-- The moves of each state that have targets, with their columns. -/
def moveLists (n : Nfa) : Array (List (StateSet × Nat)) :=
  (n.moves.rows.toList.map fun row => row.toList.zipIdx.filter fun (X, _) => !X.isEmpty).toArray

/-- Puts the targets of listed moves into their columns. -/
def gather (row : Array StateSet) (moves : List (StateSet × Nat)) : Array StateSet :=
  moves.foldl (fun row (X, column) => row.modify column (·.union X)) row

/-- The targets of a set of states on all symbols, by column. The moves are looked up in the lists
that `moveLists` makes, so that empty cells cost nothing. -/
def stepRow (n : Nfa) (lists : Array (List (StateSet × Nat))) (X : StateSet) : Array StateSet :=
  X.members.foldl (fun row s => gather row (lists[s]?.getD []))
    (Array.replicate n.alphabet.size ∅)

theorem size_gather {row : Array StateSet} {moves : List (StateSet × Nat)} :
    (gather row moves).size = row.size := by
  induction moves generalizing row with
  | nil => rfl
  | cons m moves ih => rw [gather, List.foldl_cons, ← gather, ih, Array.size_modify]

theorem mem_gather {row : Array StateSet} {moves : List (StateSet × Nat)} {c t : Nat} :
    t ∈ (gather row moves)[c]?.getD ∅ ↔
      t ∈ row[c]?.getD ∅ ∨ c < row.size ∧ ∃ X, (X, c) ∈ moves ∧ t ∈ X := by
  induction moves generalizing row with
  | nil => simp [gather]
  | cons m moves ih =>
    obtain ⟨X, d⟩ := m
    rw [gather, List.foldl_cons, ← gather, ih, Array.size_modify, Array.getElem?_modify]
    by_cases hd : d = c
    · subst hd
      by_cases hlt : d < row.size
      · simp only [hlt, Array.getElem?_eq_getElem, if_true, Option.map_some, Option.getD_some,
          StateSet.mem_union, true_and, List.mem_cons, Prod.mk.injEq, and_true]
        constructor
        · rintro ((h | h) | ⟨Y, hY, h⟩)
          · exact .inl h
          · exact .inr ⟨X, .inl rfl, h⟩
          · exact .inr ⟨Y, .inr hY, h⟩
        · rintro (h | ⟨Y, rfl | hY, h⟩)
          · exact .inl (.inl h)
          · exact .inl (.inr h)
          · exact .inr ⟨Y, hY, h⟩
      · simp [hlt]
    · have hd' : ¬ c = d := fun e => hd e.symm
      simp [hd, hd']

theorem mem_moveLists {n : Nfa} {s c : Nat} {X : StateSet} :
    (X, c) ∈ n.moveLists[s]?.getD [] ↔ n.moves.get? s c = some X ∧ X.isEmpty = false := by
  rw [moveLists, List.getElem?_toArray, List.getElem?_map, Array.getElem?_toList, Grid.get?]
  cases n.moves.rows[s]? with
  | none => simp
  | some row => simp [List.mem_zipIdx_iff_getElem?]

/-- The row of a step holds the step on each symbol. -/
theorem stepRow_eq (n : Nfa) (X : StateSet) :
    n.stepRow n.moveLists X = Array.ofFn fun c : Fin n.alphabet.size => n.step X c := by
  have key : ∀ (l : List Nat) (row : Array StateSet),
      (l.foldl (fun row s => gather row (n.moveLists[s]?.getD [])) row).size = row.size ∧
        ∀ c t, t ∈ (l.foldl (fun row s => gather row (n.moveLists[s]?.getD [])) row)[c]?.getD ∅ ↔
          t ∈ row[c]?.getD ∅ ∨ c < row.size ∧ ∃ s ∈ l, t ∈ n.targets s c := by
    intro l
    induction l with
    | nil => simp
    | cons s l ih =>
      intro row
      rw [List.foldl_cons]
      refine ⟨by rw [(ih _).1, size_gather], fun c t => ?_⟩
      have hcell : (∃ X, (X, c) ∈ n.moveLists[s]?.getD [] ∧ t ∈ X) ↔ t ∈ n.targets s c := by
        simp only [mem_moveLists, targets]
        constructor
        · rintro ⟨X, ⟨hX, -⟩, h⟩
          rw [hX]
          exact h
        · intro h
          cases hX : n.moves.get? s c with
          | none =>
            rw [hX] at h
            exact absurd h (StateSet.not_mem_empty t)
          | some X =>
            rw [hX] at h
            refine ⟨X, ⟨rfl, ?_⟩, h⟩
            rw [Bool.eq_false_iff]
            exact fun he => StateSet.isEmpty_iff.1 he t h
      rw [(ih _).2, mem_gather, size_gather, hcell]
      simp only [List.mem_cons, exists_eq_or_imp]
      constructor
      · rintro ((h | ⟨hc, h⟩) | ⟨hc, h⟩)
        · exact .inl h
        · exact .inr ⟨hc, .inl h⟩
        · exact .inr ⟨hc, .inr h⟩
      · rintro (h | ⟨hc, h | h⟩)
        · exact .inl (.inl h)
        · exact .inl (.inr ⟨hc, h⟩)
        · exact .inr ⟨hc, h⟩
  obtain ⟨hsize, hmem⟩ := key X.members (Array.replicate n.alphabet.size ∅)
  rw [Array.size_replicate] at hsize hmem
  apply Array.ext
  · rw [stepRow, hsize, Array.size_ofFn]
  · intro c hc hc'
    rw [stepRow, hsize] at hc
    apply StateSet.ext
    intro t
    have := hmem c t
    rw [Array.getElem?_eq_getElem (by rw [hsize]; exact hc)] at this
    rw [Array.getElem_ofFn]
    simp only [stepRow, step, StateSet.mem_biUnion]
    refine this.trans ?_
    simp [hc, StateSet.not_mem_empty, StateSet.mem_members]

/-- Whether some state of the set accepts (`any_accepting`). -/
def anyAccepting (n : Nfa) (X : StateSet) : Bool := n.accepting.meets X

/-- Reads a word from a set of states that is closed under epsilon moves (the loop of `accepts`). -/
def acceptsFrom (n : Nfa) (X : StateSet) : List String → Bool
  | [] => n.anyAccepting X
  | symbol :: word =>
    match n.alphabet.idxOf? symbol with
    | none => false
    | some column => n.acceptsFrom (n.closure (n.step X column)) word

/-- Whether the automaton accepts a word (`accepts`). -/
def accepts (n : Nfa) (word : List String) : Bool :=
  n.acceptsFrom (n.closure (.single n.start)) word

end Nfa

end Acceptors
