import Acceptors.Minimal.PairTable
import Acceptors.Proofs.Dfa.Language

/-!
# States that a word tells apart

A word separates two states if it leads exactly one of them to acceptance. The table marks a pair
only if a word separates it: the empty word at first, and later a symbol before the word that
separates a successor pair. In the end it has marked all such pairs. A visited pair that is not
marked has been noted with its successor pairs, and marks are passed on to all that is noted; so
none of its successor pairs is marked either, and no word leads from it to a pair of which one state
accepts.

Results:
* `PairTable.Sound.visit`, `PairTable.Settled.visit`: what one visit preserves.
* `PairTable.equivalent_fill_iff`: states are equivalent when they accept the same words.
-/

namespace Acceptors

namespace Dfa

variable {d : Dfa} {s t q r : Nat} {a : String}

/-- The states accept the same words. -/
def Same (d : Dfa) (s t : Nat) : Prop := ∀ w, d.acceptsFrom s w = d.acceptsFrom t w

theorem Same.symm (h : d.Same s t) : d.Same t s := fun w => (h w).symm

theorem Same.trans {u : Nat} (h : d.Same s t) (h' : d.Same t u) : d.Same s u := fun w =>
  (h w).trans (h' w)

/-- A symbol leads states that accept the same words to such states. -/
theorem Same.next (h : d.Same s t) (hs : d.next s a = some q) (ht : d.next t a = some r) :
    d.Same q r := by
  intro w
  have hw := h (a :: w)
  rwa [acceptsFrom_cons, acceptsFrom_cons, hs, ht] at hw

/-- Some word leads exactly one of the states to acceptance. -/
def Separated (d : Dfa) (s t : Nat) : Prop := ∃ w, d.acceptsFrom s w ≠ d.acceptsFrom t w

theorem Separated.symm (h : d.Separated s t) : d.Separated t s := by
  obtain ⟨w, hw⟩ := h
  exact ⟨w, hw.symm⟩

theorem not_separated_iff : ¬ d.Separated s t ↔ d.Same s t := by
  simp only [Separated, Same, not_exists, not_not]

/-- States are separated if a symbol leads them to separated states. -/
theorem Separated.of_next (h : d.Separated q r) (hs : d.next s a = some q)
    (ht : d.next t a = some r) : d.Separated s t := by
  obtain ⟨w, hw⟩ := h
  refine ⟨a :: w, ?_⟩
  rw [acceptsFrom_cons, acceptsFrom_cons, hs, ht]
  exact hw

end Dfa

namespace PairTable

variable {d : Dfa} {size a b p q : Nat} {f : Filling} {visited : List (Nat × Nat)}

/-! ## Pairs and their numbers -/

theorem pairOf_comm : pairOf size a b = pairOf size b a := by
  rw [pairOf, pairOf, Nat.min_comm, Nat.max_comm]

theorem pairOf_of_lt (h : a < b) : pairOf size a b = a * size + b := by
  rw [pairOf, Nat.min_eq_left (Nat.le_of_lt h), Nat.max_eq_right (Nat.le_of_lt h)]

theorem pairOf_div (h : a < b) (hb : b < size) : pairOf size a b / size = a := by
  rw [pairOf_of_lt h, Nat.mul_comm, Nat.mul_add_div (by omega), Nat.div_eq_of_lt hb, Nat.add_zero]

theorem pairOf_mod (h : a < b) (hb : b < size) : pairOf size a b % size = b := by
  rw [pairOf_of_lt h, Nat.mul_comm, Nat.mul_add_mod, Nat.mod_eq_of_lt hb]

theorem pairOf_lt (ha : a < size) (hb : b < size) : pairOf size a b < size * size := by
  have hmin : min a b < size := by omega
  have hmax : max a b < size := by omega
  calc min a b * size + max a b < min a b * size + size := Nat.add_lt_add_left hmax _
    _ = (min a b + 1) * size := (Nat.succ_mul _ _).symm
    _ ≤ size * size := Nat.mul_le_mul_right _ hmin

theorem mem_pairs_iff : (a, b) ∈ pairs size ↔ a < b ∧ b < size := by
  simp only [pairs, List.mem_flatMap, List.mem_range, List.mem_map, List.mem_range', Prod.mk.injEq]
  constructor
  · rintro ⟨_, ha, _, ⟨i, hi, rfl⟩, rfl, rfl⟩
    omega
  · rintro ⟨hab, hb⟩
    exact ⟨a, by omega, b, ⟨b - (a + 1), by omega, by omega⟩, rfl, rfl⟩

/-- Some word separates the states of a pair. -/
def Apart (d : Dfa) (p : Nat) : Prop := d.Separated (p / d.size) (p % d.size)

theorem apart_pairOf_iff (ha : a < d.size) (hb : b < d.size) (hne : a ≠ b) :
    Apart d (pairOf d.size a b) ↔ d.Separated a b := by
  rcases Nat.lt_or_gt_of_ne hne with h | h
  · rw [Apart, pairOf_div h hb, pairOf_mod h hb]
  · rw [pairOf_comm, Apart, pairOf_div h ha, pairOf_mod h ha]
    exact ⟨.symm, .symm⟩

/-! ## Successor pairs -/

theorem exists_column_cons_iff {x y : Option Nat} {left right : List (Option Nat)}
    {P : Nat → Nat → Prop} :
    (∃ c : Nat, ∃ q r, (x :: left)[c]? = some (some q) ∧ (y :: right)[c]? = some (some r) ∧ P q r) ↔
      (∃ q r, x = some q ∧ y = some r ∧ P q r) ∨
        ∃ c : Nat, ∃ q r, left[c]? = some (some q) ∧ right[c]? = some (some r) ∧ P q r := by
  rw [← Nat.or_exists_add_one]
  simp only [List.getElem?_cons_zero, List.getElem?_cons_succ, Option.some.injEq]

theorem mem_successorPairs_iff {left right : List (Option Nat)} :
    p ∈ successorPairs size left right ↔
      ∃ c : Nat, ∃ q r, left[c]? = some (some q) ∧ right[c]? = some (some r) ∧ q ≠ r ∧
        p = pairOf size q r := by
  induction left generalizing right with
  | nil => simp [successorPairs]
  | cons x left ih =>
    cases right with
    | nil => simp [successorPairs]
    | cons y right =>
      rw [exists_column_cons_iff, ← ih]
      match x, y with
      | none, _ => simp [successorPairs]
      | some q, none => simp [successorPairs]
      | some q, some r =>
        rw [successorPairs]
        by_cases h : q = r <;> simp [h]

/-- The pairs of different states to which the symbols lead two states. -/
def nextPairs (d : Dfa) (a b : Nat) : List Nat :=
  successorPairs d.size ((moveLists d)[a]?.getD []) ((moveLists d)[b]?.getD [])

theorem getElem?_moveLists {c t : Nat} (hd : d.WellFormed) :
    ((moveLists d)[a]?.getD [])[c]? = some (some t) ↔ d.move a c = some t := by
  by_cases ha : a < d.size
  · by_cases hc : c < d.alphabet.size
    · simp [moveLists, ha, hc]
    · refine iff_of_false (by simp [moveLists, ha, hc]) fun h => hc (hd.lt_of_move h).2
  · refine iff_of_false (by simp [moveLists, ha]) fun h => ha (hd.lt_of_move h).1

theorem mem_nextPairs_iff (hd : d.WellFormed) :
    p ∈ nextPairs d a b ↔ ∃ x q r, d.next a x = some q ∧ d.next b x = some r ∧ q ≠ r ∧
      p = pairOf d.size q r := by
  simp only [nextPairs, mem_successorPairs_iff, getElem?_moveLists hd, Dfa.next_eq_some_iff]
  constructor
  · rintro ⟨c, q, r, hq, hr, h⟩
    obtain ⟨x, hx⟩ := Alphabet.exists_idxOf?_eq_some (hd.lt_of_move hq).2
    exact ⟨x, q, r, ⟨c, hx, hq⟩, ⟨c, hx, hr⟩, h⟩
  · rintro ⟨x, q, r, ⟨c, hx, hq⟩, ⟨c', hx', hr⟩, h⟩
    obtain rfl : c = c' := Option.some.inj (hx.symm.trans hx')
    exact ⟨c, q, r, hq, hr, h⟩

/-- A successor pair that can be told apart tells its pair apart. -/
theorem Apart.of_mem_nextPairs (hd : d.WellFormed) (ha : a < d.size) (hb : b < d.size)
    (hne : a ≠ b) (hp : p ∈ nextPairs d a b) (h : Apart d p) : Apart d (pairOf d.size a b) := by
  obtain ⟨x, q, r, hq, hr, hqr, rfl⟩ := (mem_nextPairs_iff hd).1 hp
  rw [apart_pairOf_iff (hd.next_lt hq) (hd.next_lt hr) hqr] at h
  exact (apart_pairOf_iff ha hb hne).2 (h.of_next hq hr)

theorem nextPairs_lt (hd : d.WellFormed) : ∀ p ∈ nextPairs d a b, p < d.size * d.size := by
  intro p hp
  obtain ⟨x, q, r, hq, hr, -, rfl⟩ := (mem_nextPairs_iff hd).1 hp
  exact pairOf_lt (hd.next_lt hq) (hd.next_lt hr)

/-! ## What a visit does -/

/-- Marks a pair, and all that is noted with a marked one. -/
def Filling.markFrom (size : Nat) (f : Filling) (pair : Nat) : Filling :=
  { f with
    marked := Search.mark (fun p => f.dependents[p]?.getD []) (size * size) f.marked [pair] }

/-- Notes a pair with others. -/
def Filling.note (f : Filling) (pair : Nat) (next : List Nat) : Filling :=
  { f with dependents := next.foldl (fun noted p => noted.modify p (pair :: ·)) f.dependents }

/-- A visit leaves a marked pair alone, marks a pair of which a successor pair is marked, and notes
    any other with its successor pairs. -/
theorem visit_cases (d : Dfa) (f : Filling) (a b : Nat) :
    (Search.isMarked f.marked (pairOf d.size a b) = true ∧
      f.visit d.size (moveLists d) (a, b) = f) ∨
    ((∃ p ∈ nextPairs d a b, Search.isMarked f.marked p = true) ∧
      f.visit d.size (moveLists d) (a, b) = f.markFrom d.size (pairOf d.size a b)) ∨
    ((∀ p ∈ nextPairs d a b, ¬ Search.isMarked f.marked p = true) ∧
      f.visit d.size (moveLists d) (a, b) = f.note (pairOf d.size a b) (nextPairs d a b)) := by
  obtain ⟨marked, dependents⟩ := f
  have hvisit : Filling.visit d.size (moveLists d) ⟨marked, dependents⟩ (a, b) =
      if Search.isMarked marked (pairOf d.size a b) then ⟨marked, dependents⟩
      else if (nextPairs d a b).any (Search.isMarked marked) then
        Filling.markFrom d.size ⟨marked, dependents⟩ (pairOf d.size a b)
      else Filling.note ⟨marked, dependents⟩ (pairOf d.size a b) (nextPairs d a b) := rfl
  rw [hvisit]
  split
  · next hmarked => exact .inl ⟨hmarked, rfl⟩
  split
  · next hany => exact .inr (.inl ⟨List.any_eq_true.1 hany, rfl⟩)
  · next hany =>
    exact .inr (.inr ⟨fun p hp hmarked => hany (List.any_eq_true.2 ⟨p, hp, hmarked⟩), rfl⟩)

/-! ## What is marked can be told apart -/

/-- Marks and notes are sound: what is marked can be told apart, and so can what is noted with a
    pair that can be. -/
structure Sound (d : Dfa) (f : Filling) : Prop where
  marked : ∀ p < d.size * d.size, Search.isMarked f.marked p = true → Apart d p
  dependents : ∀ p q, q ∈ f.dependents[p]?.getD [] → Apart d p → Apart d q

theorem Sound.initial : Sound d (.initial d) where
  marked p hp h := by
    rw [Search.isMarked, Filling.initial] at h
    simp only [Array.getElem?_ofFn, hp, dite_true, Option.getD_some, Bool.and_eq_true,
      bne_iff_ne] at h
    exact ⟨[], h.2⟩
  dependents p q hq := by
    have hnot : q ∉ (Array.replicate (d.size * d.size) ([] : List Nat))[p]?.getD [] := by
      by_cases hp : p < d.size * d.size <;> simp [hp]
    exact absurd hq hnot

/-- What a search along the notes marks can be told apart, if its first pair can be. -/
theorem Sound.of_leads (h : Sound d f) (hp : Apart d p)
    (hlead : Search.Leads (fun p => f.dependents[p]?.getD []) p q) : Apart d q :=
  hlead.mem_of_closed (fun p hp q hq => h.dependents p q hq hp) hp

/-- To mark a pair that can be told apart, and all that is noted with it, is sound. -/
theorem Sound.markFrom (h : Sound d f) (hp : Apart d p) : Sound d (f.markFrom d.size p) := by
  refine ⟨fun q hq hmarked => ?_, h.dependents⟩
  rcases Search.leads_of_isMarked_mark hmarked with hold | ⟨r, hr, hlead⟩
  · exact h.marked q hq hold
  · rw [List.mem_singleton.1 hr] at hlead
    exact h.of_leads hp hlead

/-- To note a pair with pairs that would tell its states apart is sound. -/
theorem Sound.note (h : Sound d f) {next : List Nat} (hnext : ∀ q ∈ next, Apart d q → Apart d p) :
    Sound d (f.note p next) := by
  refine ⟨h.marked, fun r q hq hr => ?_⟩
  rcases Search.mem_foldl_modify.1 hq with hq | ⟨rfl, hmem, -⟩
  · exact h.dependents r q hq hr
  · exact hnext r hmem hr

theorem Sound.visit (hd : d.WellFormed) (h : Sound d f) (hab : a < b) (hb : b < d.size) :
    Sound d (f.visit d.size (moveLists d) (a, b)) := by
  have hnext : ∀ q ∈ nextPairs d a b, Apart d q → Apart d (pairOf d.size a b) := fun q hq hapart =>
    hapart.of_mem_nextPairs hd (Nat.lt_trans hab hb) hb (Nat.ne_of_lt hab) hq
  rcases visit_cases d f a b with ⟨-, hvisit⟩ | ⟨⟨q, hq, hmarked⟩, hvisit⟩ | ⟨-, hvisit⟩ <;>
    rw [hvisit]
  · exact h
  · exact h.markFrom (hnext q hq (h.marked q (nextPairs_lt hd q hq) hmarked))
  · exact h.note hnext

/-! ## What can be told apart is marked -/

/-- Marks and notes are as complete as the visits so far make them: a pair of which one state
    accepts is marked, marks are passed on to all that is noted, and a visited pair that is not
    marked is noted with its successor pairs. -/
structure Settled (d : Dfa) (visited : List (Nat × Nat)) (f : Filling) : Prop where
  size_marked : f.marked.size = d.size * d.size
  size_dependents : f.dependents.size = d.size * d.size
  accepting : ∀ a < d.size, ∀ b < d.size, d.isAccepting a ≠ d.isAccepting b →
    Search.isMarked f.marked (pairOf d.size a b) = true
  closed : ∀ p, Search.isMarked f.marked p = true → ∀ q ∈ f.dependents[p]?.getD [],
    Search.isMarked f.marked q = true
  noted : ∀ pair ∈ visited, ¬ Search.isMarked f.marked (pairOf d.size pair.1 pair.2) = true →
    ∀ p ∈ nextPairs d pair.1 pair.2, pairOf d.size pair.1 pair.2 ∈ f.dependents[p]?.getD []

theorem Settled.initial : Settled d [] (.initial d) where
  size_marked := Array.size_ofFn
  size_dependents := Array.size_replicate
  accepting := by
    have hlt : ∀ a b, a < b → b < d.size → d.isAccepting a ≠ d.isAccepting b →
        Search.isMarked (Filling.initial d).marked (pairOf d.size a b) = true := by
      intro a b hab hb hne
      have hp : pairOf d.size a b < d.size * d.size := pairOf_lt (Nat.lt_trans hab hb) hb
      simp only [Search.isMarked, Filling.initial, Array.getElem?_ofFn, hp, dite_true,
        Option.getD_some, pairOf_div hab hb, pairOf_mod hab hb, hab, decide_true, Bool.true_and]
      exact bne_iff_ne.2 hne
    intro a ha b hb hne
    rcases Nat.lt_trichotomy a b with h | rfl | h
    · exact hlt a b h hb hne
    · exact absurd rfl hne
    · rw [pairOf_comm]
      exact hlt b a h ha hne.symm
  closed p _ q hq := by
    have hnot : q ∉ (Array.replicate (d.size * d.size) ([] : List Nat))[p]?.getD [] := by
      by_cases hp : p < d.size * d.size <;> simp [hp]
    exact absurd hq hnot
  noted pair h := absurd h List.not_mem_nil

/-- All that is marked together with a visited pair is marked in the end. -/
theorem Settled.markFrom (h : Settled d visited f) :
    Settled d ((a, b) :: visited) (f.markFrom d.size (pairOf d.size a b)) := by
  have hsteps : f.marked.count false ≤ d.size * d.size := by
    rw [← h.size_marked]
    exact Array.count_le_size
  obtain ⟨hroot, hclosed⟩ := @Search.closed_mark (fun p => f.dependents[p]?.getD []) _ f.marked
    [pairOf d.size a b] hsteps
  have hkept : ∀ p, Search.isMarked f.marked p = true →
      Search.isMarked (f.markFrom d.size (pairOf d.size a b)).marked p = true :=
    fun _ => Search.isMarked_mark_of_isMarked
  refine ⟨Search.size_mark.trans h.size_marked, h.size_dependents, ?_, ?_, ?_⟩
  · exact fun a' ha' b' hb' hne => hkept _ (h.accepting a' ha' b' hb' hne)
  · intro p hp q hq
    by_cases hold : Search.isMarked f.marked p = true
    · exact hkept q (h.closed p hold q hq)
    · exact hclosed p hp hold q hq
  · refine List.forall_mem_cons.2 ⟨fun hnot => ?_, fun pair hmem hnot => ?_⟩
    · exact absurd (hroot _ (List.mem_singleton_self _)) hnot
    · exact h.noted pair hmem fun hold => hnot (hkept _ hold)

/-- A pair may be noted with successor pairs that are not marked. -/
theorem Settled.note (hd : d.WellFormed) (h : Settled d visited f)
    (hnext : ∀ p ∈ nextPairs d a b, ¬ Search.isMarked f.marked p = true) :
    Settled d ((a, b) :: visited) (f.note (pairOf d.size a b) (nextPairs d a b)) := by
  refine ⟨h.size_marked, Search.size_foldl_modify.trans h.size_dependents, h.accepting, ?_, ?_⟩
  · intro p hp q hq
    rcases Search.mem_foldl_modify.1 hq with hq | ⟨-, hmem, -⟩
    · exact h.closed p hp q hq
    · exact absurd hp (hnext p hmem)
  · refine List.forall_mem_cons.2 ⟨fun _ p hp => ?_, fun pair hmem hnot p hp => ?_⟩
    · exact Search.mem_foldl_modify.2
        (.inr ⟨rfl, hp, h.size_dependents.symm ▸ nextPairs_lt hd p hp⟩)
    · exact Search.mem_foldl_modify.2 (.inl (h.noted pair hmem hnot p hp))

theorem Settled.visit (hd : d.WellFormed) (h : Settled d visited f) :
    Settled d ((a, b) :: visited) (f.visit d.size (moveLists d) (a, b)) := by
  rcases visit_cases d f a b with ⟨hmarked, hvisit⟩ | ⟨-, hvisit⟩ | ⟨hnext, hvisit⟩ <;> rw [hvisit]
  · exact { h with noted := List.forall_mem_cons.2 ⟨fun hnot => absurd hmarked hnot, h.noted⟩ }
  · exact h.markFrom
  · exact h.note hd hnext

/-- The successor pairs of a visited pair that is not marked are not marked. -/
theorem Settled.not_isMarked_of_mem_nextPairs (h : Settled d visited f) (hmem : (a, b) ∈ visited)
    (hnot : ¬ Search.isMarked f.marked (pairOf d.size a b) = true) :
    ∀ p ∈ nextPairs d a b, ¬ Search.isMarked f.marked p = true := fun p hp hmarked =>
  hnot (h.closed p hmarked _ (h.noted (a, b) hmem hnot p hp))

/-! ## The whole table -/

/-- The filling after all pairs of a list have been visited. -/
theorem visit_all (hd : d.WellFormed) {l : List (Nat × Nat)}
    (hl : ∀ a b, (a, b) ∈ l → a < b ∧ b < d.size) (hsound : Sound d f)
    (hsettled : Settled d visited f) :
    Sound d (l.foldl (Filling.visit d.size (moveLists d)) f) ∧
      Settled d (l.reverse ++ visited) (l.foldl (Filling.visit d.size (moveLists d)) f) := by
  induction l generalizing f visited with
  | nil => exact ⟨hsound, hsettled⟩
  | cons pair l ih =>
    obtain ⟨a, b⟩ := pair
    obtain ⟨hab, hb⟩ := hl a b List.mem_cons_self
    rw [List.reverse_cons, List.append_assoc]
    exact ih (fun a b h => hl a b (List.mem_cons_of_mem _ h)) (hsound.visit hd hab hb)
      (hsettled.visit hd)

theorem mem_nextPairs_comm (hd : d.WellFormed) : p ∈ nextPairs d a b ↔ p ∈ nextPairs d b a := by
  have hflip : ∀ {a b}, p ∈ nextPairs d a b → p ∈ nextPairs d b a := by
    intro a b h
    obtain ⟨x, q, r, hq, hr, hne, rfl⟩ := (mem_nextPairs_iff hd).1 h
    exact (mem_nextPairs_iff hd).2 ⟨x, r, q, hr, hq, hne.symm, pairOf_comm⟩
  exact ⟨hflip, hflip⟩

theorem sound_fill (hd : d.WellFormed) (ha : a < d.size) (hb : b < d.size) (hne : a ≠ b)
    (h : Search.isMarked (fill d).marked (pairOf d.size a b) = true) : d.Separated a b := by
  obtain ⟨hsound, -⟩ := visit_all hd (l := pairs d.size) (fun _ _ => mem_pairs_iff.1) .initial
    .initial
  exact (apart_pairOf_iff ha hb hne).1 (hsound.marked _ (pairOf_lt ha hb) h)

/-- States that are not marked as different accept alike, and so do all that words lead them to. -/
theorem settled_fill (hd : d.WellFormed) (ha : a < d.size) (hb : b < d.size) (hne : a ≠ b)
    (h : ¬ Search.isMarked (fill d).marked (pairOf d.size a b) = true) :
    d.isAccepting a = d.isAccepting b ∧
      ∀ p ∈ nextPairs d a b, ¬ Search.isMarked (fill d).marked p = true := by
  obtain ⟨-, hsettled⟩ := visit_all hd (l := pairs d.size) (fun _ _ => mem_pairs_iff.1) .initial
    .initial
  have hvisited : ∀ {a b}, a < b → b < d.size → (a, b) ∈ (pairs d.size).reverse ++ [] := by
    intro a b hab hb
    rw [List.append_nil, List.mem_reverse]
    exact mem_pairs_iff.2 ⟨hab, hb⟩
  refine ⟨by_contra fun hdiffer => h (hsettled.accepting a ha b hb hdiffer), fun p hp => ?_⟩
  rcases Nat.lt_or_gt_of_ne hne with hab | hba
  · exact hsettled.not_isMarked_of_mem_nextPairs (hvisited hab hb) h p hp
  · rw [pairOf_comm] at h
    exact hsettled.not_isMarked_of_mem_nextPairs (hvisited hba ha) h p
      ((mem_nextPairs_comm hd).1 hp)

theorem equivalent_iff {table : PairTable} :
    table.equivalent a b = true ↔
      a = b ∨ ¬ Search.isMarked table.marked (pairOf table.size a b) = true := by
  rw [equivalent, Bool.or_eq_true, beq_iff_eq, Bool.not_eq_true', Bool.not_eq_true]

/-- States are equivalent in the table when they accept the same words. -/
theorem equivalent_fill_iff (hd : d.WellFormed) (hcomplete : d.isComplete = true) (ha : a < d.size)
    (hb : b < d.size) :
    (fill d).equivalent a b = true ↔ d.Same a b := by
  rw [equivalent_iff]
  constructor
  · intro h w
    refine Dfa.acceptsFrom_eq_of_simulation (R := fun a b => a < d.size ∧ b < d.size ∧
      (a = b ∨ ¬ Search.isMarked (fill d).marked (pairOf d.size a b) = true)) ?_ ?_ ⟨ha, hb, h⟩
    · rintro a b ⟨ha, hb, rfl | h⟩
      · rfl
      · by_cases hab : a = b
        · rw [hab]
        · exact (settled_fill hd ha hb hab h).1
    · rintro a b ⟨ha, hb, h⟩ x
      by_cases hx : x ∈ d.alphabet
      · obtain ⟨q, hq⟩ := hd.exists_next hcomplete ha hx
        obtain ⟨r, hr⟩ := hd.exists_next hcomplete hb hx
        refine .inl ⟨q, r, hq, hr, hd.next_lt hq, hd.next_lt hr, ?_⟩
        by_cases hqr : q = r
        · exact .inl hqr
        right
        have hab : a ≠ b := by
          rintro rfl
          exact hqr (Option.some.inj (hq.symm.trans hr))
        exact (settled_fill hd ha hb hab (h.resolve_left hab)).2 _
          ((mem_nextPairs_iff hd).2 ⟨x, q, r, hq, hr, hqr, rfl⟩)
      · have hnone : ∀ s t, d.next s x ≠ some t := fun s t ht => hx (Dfa.mem_alphabet_of_next ht)
        exact .inr ⟨fun t ht => absurd ht (hnone a t), fun t ht => absurd ht (hnone b t)⟩
  · intro h
    by_cases hab : a = b
    · exact .inl hab
    · exact .inr fun hmarked =>
        Dfa.not_separated_iff.2 h (sound_fill hd ha hb hab hmarked)

end PairTable

end Acceptors
