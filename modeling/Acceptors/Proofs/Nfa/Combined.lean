import Acceptors.Proofs.Nfa.Joined

/-!
# The languages of combined automata

Union, concatenation and star of automata have the union, the product and the Kleene star of the
languages of their operands. Each of the three adds epsilon moves to a larger automaton, and each
equation is proved by two inductions over moves: one carries a word of an operand into the
combination, the other says for every state of the combination what its words are.

Results:
* `Nfa.WellFormed.language_union`, `Nfa.WellFormed.language_concat`,
  `Nfa.WellFormed.language_star`: the languages.
* `Nfa.WellFormed.union`, `Nfa.WellFormed.concat`, `Nfa.WellFormed.star`: combinations are
  well-formed.
-/

namespace Acceptors

namespace Nfa

open scoped Computability

variable {config : Config} {n l r : Nfa} {s t : Nat} {a : String} {w : List String}

/-! ## Union -/

theorem WellFormed.union (hl : l.WellFormed) (hr : r.WellFormed) :
    (l.union config r).WellFormed := by
  have hboth := ((hl.join hr).addState config.startName).addState config.finalName
  have hl' := hl.start_lt
  have hr' := hr.start_lt
  apply hboth.linked <;> simp only [size_addState, size_join]
  · intro s t ht
    split at ht
    · rcases List.mem_cons.1 (StateSet.mem_ofList.1 ht) with rfl | ht
      · omega
      · rw [List.mem_singleton.1 ht]
        omega
    · split at ht
      · rw [StateSet.mem_single.1 ht]
        omega
      · exact absurd ht (StateSet.not_mem_empty t)
  · omega
  · intro s hs
    rw [StateSet.mem_single.1 hs]
    omega

theorem WellFormed.moves_union (hl : l.WellFormed) (hr : r.WellFormed) :
    (l.union config r).Moves s a t ↔ (l.join r).Moves s a t := by
  have hboth := hl.join hr
  rw [← moves_addState hboth config.startName,
    ← moves_addState (hboth.addState _) config.finalName]
  exact Iff.rfl

/-- The epsilon moves that a union adds: from the new start state to those of the operands, and from
    their accepting states to the new one. -/
def unionLinks (l r : Nfa) (s : Nat) : StateSet :=
  if s = (l.join r).size then .ofList [l.start, r.start + l.size]
  else if s ∈ l.accepting.union (r.accepting.shift l.size) then .single ((l.join r).size + 1)
  else ∅

theorem mem_unionLinks (hl : l.WellFormed) (hr : r.WellFormed) :
    t ∈ unionLinks l r s ↔
      s = l.size + r.size ∧ (t = l.start ∨ t = r.start + l.size) ∨
        (s ∈ l.accepting ∨ l.size ≤ s ∧ s - l.size ∈ r.accepting) ∧ t = l.size + r.size + 1 := by
  rw [unionLinks, size_join]
  have hlt : s ∈ l.accepting ∨ l.size ≤ s ∧ s - l.size ∈ r.accepting → s ≠ l.size + r.size := by
    rintro (hs | ⟨hle, hs⟩)
    · have := hl.accepting_lt s hs
      omega
    · have := hr.accepting_lt _ hs
      omega
  split
  · next hs =>
    have hno : ¬ (s ∈ l.accepting ∨ l.size ≤ s ∧ s - l.size ∈ r.accepting) := fun h => hlt h hs
    simp only [hno, false_and, or_false, StateSet.mem_ofList, List.mem_cons, List.not_mem_nil]
    exact (and_iff_right hs).symm
  · next hs =>
    rw [← StateSet.mem_shift, ← StateSet.mem_union]
    split
    · next hs' => simp [hs, hs', StateSet.mem_single]
    · next hs' => simp [hs, hs', StateSet.not_mem_empty]

theorem mem_epsilonTargets_union (config : Config) (hl : l.WellFormed) (hr : r.WellFormed) :
    t ∈ (l.union config r).epsilonTargets s ↔
      t ∈ (l.join r).epsilonTargets s ∨
        s = l.size + r.size ∧ (t = l.start ∨ t = r.start + l.size) ∨
        (s ∈ l.accepting ∨ l.size ≤ s ∧ s - l.size ∈ r.accepting) ∧ t = l.size + r.size + 1 := by
  have hlinked : (l.union config r).epsilonTargets s =
      ((((l.join r).addState config.startName).addState config.finalName).addEpsilons
        (unionLinks l r)).epsilonTargets s := rfl
  rw [hlinked, mem_epsilonTargets_addEpsilons, size_addState, size_addState,
    epsilonTargets_addState, epsilonTargets_addState, size_join, ← mem_unionLinks hl hr,
    and_iff_right_iff_imp]
  rintro (ht | ht)
  · have := (hl.join hr).lt_of_mem_epsilonTargets ht
    rw [size_join] at this
    omega
  · rcases (mem_unionLinks hl hr).1 ht with ⟨rfl, -⟩ | ⟨hs | ⟨hle, hs⟩, -⟩
    · omega
    · have := hl.accepting_lt s hs
      omega
    · have := hr.accepting_lt _ hs
      omega

theorem start_union : (l.union config r).start = l.size + r.size := size_join

theorem accepting_union :
    (l.union config r).accepting = .single (l.size + r.size + 1) := by
  show StateSet.single ((l.join r).size + 1) = _
  rw [size_join]

theorem size_union : (l.union config r).size = l.size + r.size + 2 := by
  show (((l.join r).addState config.startName).addState config.finalName).size = _
  rw [size_addState, size_addState, size_join]

/-- No move leaves the accepting state of a union. -/
theorem WellFormed.not_mem_targets_union_final (hl : l.WellFormed) (hr : r.WellFormed)
    (config : Config) (c t : Nat) :
    t ∉ (l.union config r).targets (l.size + r.size + 1) c := by
  have hboth := hl.join hr
  have htargets : (l.union config r).targets (l.size + r.size + 1) c =
      (((l.join r).addState config.startName).addState config.finalName).targets
        (l.size + r.size + 1) c := rfl
  rw [htargets, targets_addState (hboth.addState _), targets_addState hboth]
  intro ht
  have hlt := (hboth.lt_of_mem_targets ht).1
  rw [size_join] at hlt
  omega

/-- No epsilon move leaves the accepting state of a union. -/
theorem WellFormed.not_mem_epsilonTargets_union_final (hl : l.WellFormed) (hr : r.WellFormed)
    (config : Config) (t : Nat) :
    t ∉ (l.union config r).epsilonTargets (l.size + r.size + 1) := by
  rw [mem_epsilonTargets_union config hl hr]
  rintro (ht | ⟨hs, -⟩ | ⟨hs | ⟨-, hs⟩, -⟩)
  · have hlt := (hl.join hr).lt_of_mem_epsilonTargets ht
    rw [size_join] at hlt
    omega
  · omega
  · have hlt := hl.accepting_lt _ hs
    omega
  · have hlt := hr.accepting_lt _ hs
    omega

theorem recognizesFrom_union_final :
    (l.union config r).RecognizesFrom (l.size + r.size + 1) [] := by
  apply RecognizesFrom.nil
  rw [accepting_union, StateSet.mem_single]

/-- A union recognizes from a state of its left operand what this recognizes from it. -/
theorem RecognizesFrom.union_left (hl : l.WellFormed) (hr : r.WellFormed)
    (h : l.RecognizesFrom s w) : (l.union config r).RecognizesFrom s w := by
  have hword := h.append (m := l.union config r) (f := id) (v := []) ?_ ?_ ?_
  · rwa [List.append_nil] at hword
  · intro s hs
    exact recognizesFrom_union_final.epsilon
      ((mem_epsilonTargets_union config hl hr).2 (.inr (.inr ⟨.inl hs, rfl⟩)))
  · intro s t ht
    exact (mem_epsilonTargets_union config hl hr).2 (.inl (hl.mem_epsilonTargets_join_left ht))
  · intro s a t ht
    exact (hl.moves_union hr).2 (hl.moves_join_of_left ht)

/-- A union recognizes from a state of its right operand what this recognizes from it. -/
theorem RecognizesFrom.union_right (hl : l.WellFormed) (hr : r.WellFormed)
    (h : r.RecognizesFrom s w) : (l.union config r).RecognizesFrom (s + l.size) w := by
  have hword := h.append (m := l.union config r) (f := (· + l.size)) (v := []) ?_ ?_ ?_
  · rwa [List.append_nil] at hword
  · intro s hs
    rw [← Nat.add_sub_cancel s l.size] at hs
    exact recognizesFrom_union_final.epsilon ((mem_epsilonTargets_union config hl hr).2
      (.inr (.inr ⟨.inr ⟨Nat.le_add_left _ _, hs⟩, rfl⟩)))
  · intro s t ht
    exact (mem_epsilonTargets_union config hl hr).2 (.inl (hl.mem_epsilonTargets_join_right ht))
  · intro s a t ht
    exact (hl.moves_union hr).2 (hl.moves_join_of_right hr ht)

/-- The words of each state of a union: those of the operand for the states of an operand, those of
    both operands for the start state, and the empty word for the accepting state. -/
theorem recognizesFrom_union (hl : l.WellFormed) (hr : r.WellFormed)
    (h : (l.union config r).RecognizesFrom s w) :
    (s < l.size → l.RecognizesFrom s w) ∧
      (l.size ≤ s → s < l.size + r.size → r.RecognizesFrom (s - l.size) w) ∧
      (s = l.size + r.size → w ∈ l.language + r.language) ∧
      (s = l.size + r.size + 1 → w = []) := by
  have hl' := hl.start_lt
  have hr' := hr.start_lt
  refine h.induct (P := fun s w => (s < l.size → l.RecognizesFrom s w) ∧
      (l.size ≤ s → s < l.size + r.size → r.RecognizesFrom (s - l.size) w) ∧
      (s = l.size + r.size → w ∈ l.language + r.language) ∧
      (s = l.size + r.size + 1 → w = [])) ?_ ?_ ?_
  · intro s hs
    rw [accepting_union, StateSet.mem_single] at hs
    refine ⟨?_, ?_, ?_, fun _ => rfl⟩ <;> omega
  · rintro s t w ht ⟨ihl, ihr, -, ihf⟩
    rcases (mem_epsilonTargets_union config hl hr).1 ht with ht | ⟨rfl, rfl | rfl⟩ | ⟨hs, rfl⟩
    · -- a move within an operand
      rcases Nat.lt_or_ge s l.size with hs | hs
      · rw [hl.epsilonTargets_join_left hs] at ht
        have ht' := hl.epsilonTargets_lt s t ht
        exact ⟨fun _ => (ihl ht').epsilon ht, by omega, by omega, by omega⟩
      · rw [hl.epsilonTargets_join_right hs] at ht
        obtain ⟨hle, ht⟩ := StateSet.mem_shift.1 ht
        have hs' := hr.lt_of_mem_epsilonTargets ht
        have ht' := hr.epsilonTargets_lt _ _ ht
        exact ⟨by omega, fun _ _ => (ihr hle (by omega)).epsilon ht, by omega, by omega⟩
    · -- from the start state to that of the left operand
      exact ⟨by omega, by omega, fun _ => .inl (ihl hl'), by omega⟩
    · -- from the start state to that of the right operand
      have h := ihr (by omega) (by omega)
      rw [Nat.add_sub_cancel] at h
      exact ⟨by omega, by omega, fun _ => .inr h, by omega⟩
    · -- from an accepting state of an operand to the new one
      obtain rfl := ihf rfl
      rcases hs with hs | ⟨hle, hs⟩
      · have hlt := hl.accepting_lt s hs
        exact ⟨fun _ => .nil hs, by omega, by omega, by omega⟩
      · have hlt := hr.accepting_lt _ hs
        exact ⟨by omega, fun _ _ => .nil hs, by omega, by omega⟩
  · rintro s a t w ht ⟨ihl, ihr, -, -⟩
    rw [hl.moves_union hr] at ht
    rcases Nat.lt_or_ge s l.size with hs | hs
    · rw [hl.moves_join_left hs] at ht
      exact ⟨fun _ => (ihl (hl.moves_lt ht)).cons ht, by omega, by omega, by omega⟩
    · rw [hl.moves_join_right hr hs] at ht
      obtain ⟨hle, ht⟩ := ht
      have hs' := hr.lt_of_moves ht
      have ht' := hr.moves_lt ht
      exact ⟨by omega, fun _ _ => (ihr hle (by omega)).cons ht, by omega, by omega⟩

/-- A union recognizes the words of either operand. -/
theorem WellFormed.language_union (hl : l.WellFormed) (hr : r.WellFormed) :
    (l.union config r).language = l.language + r.language := by
  ext w
  rw [mem_language, start_union]
  constructor
  · intro h
    exact (recognizesFrom_union hl hr h).2.2.1 rfl
  · rintro (h | h)
    · have ht := (mem_epsilonTargets_union config hl hr).2
        (.inr (.inl ⟨rfl, .inl rfl⟩))
      exact (RecognizesFrom.union_left hl hr h).epsilon ht
    · have ht := (mem_epsilonTargets_union config hl hr).2
        (.inr (.inl ⟨rfl, .inr rfl⟩))
      exact (RecognizesFrom.union_right hl hr h).epsilon ht

/-! ## Concatenation -/

theorem WellFormed.concat (hl : l.WellFormed) (hr : r.WellFormed) : (l.concat r).WellFormed := by
  have hl' := hl.start_lt
  have hr' := hr.start_lt
  apply (hl.join hr).linked <;> rw [size_join]
  · intro s t ht
    split at ht
    · rw [StateSet.mem_single.1 ht]
      omega
    · exact absurd ht (StateSet.not_mem_empty t)
  · show l.start < _
    omega
  · intro s hs
    obtain ⟨hle, hs⟩ := StateSet.mem_shift.1 hs
    have := hr.accepting_lt _ hs
    omega

theorem moves_concat : (l.concat r).Moves s a t ↔ (l.join r).Moves s a t := Iff.rfl

theorem start_concat : (l.concat r).start = l.start := rfl

theorem mem_accepting_concat : s ∈ (l.concat r).accepting ↔ l.size ≤ s ∧ s - l.size ∈ r.accepting :=
  StateSet.mem_shift

theorem mem_epsilonTargets_concat (hl : l.WellFormed) (hr : r.WellFormed) :
    t ∈ (l.concat r).epsilonTargets s ↔
      t ∈ (l.join r).epsilonTargets s ∨ s ∈ l.accepting ∧ t = r.start + l.size := by
  have hlinked : (l.concat r).epsilonTargets s = ((l.join r).addEpsilons fun s =>
      if s ∈ l.accepting then .single (r.start + l.size) else ∅).epsilonTargets s := rfl
  have hlink : (t ∈ if s ∈ l.accepting then StateSet.single (r.start + l.size) else ∅) ↔
      s ∈ l.accepting ∧ t = r.start + l.size := by
    split
    · next hs => simp [hs, StateSet.mem_single]
    · next hs => simp [hs, StateSet.not_mem_empty]
  rw [hlinked, mem_epsilonTargets_addEpsilons, size_join, hlink, and_iff_right_iff_imp]
  rintro (ht | ⟨hs, -⟩)
  · have := (hl.join hr).lt_of_mem_epsilonTargets ht
    rwa [size_join] at this
  · exact Nat.lt_add_right _ (hl.accepting_lt s hs)

/-- A concatenation recognizes from a state of its right operand what this recognizes from it. -/
theorem RecognizesFrom.concat_right (hl : l.WellFormed) (hr : r.WellFormed)
    (h : r.RecognizesFrom s w) : (l.concat r).RecognizesFrom (s + l.size) w := by
  have hword := h.append (m := l.concat r) (f := (· + l.size)) (v := []) ?_ ?_ ?_
  · rwa [List.append_nil] at hword
  · intro s hs
    exact .nil (mem_accepting_concat.2 ⟨Nat.le_add_left _ _, by rwa [Nat.add_sub_cancel]⟩)
  · intro s t ht
    exact (mem_epsilonTargets_concat hl hr).2 (.inl (hl.mem_epsilonTargets_join_right ht))
  · intro s a t ht
    exact moves_concat.2 (hl.moves_join_of_right hr ht)

/-- A concatenation recognizes from a state of its left operand what this recognizes from it, with
    any word of the right operand after it. -/
theorem RecognizesFrom.concat_left (hl : l.WellFormed) (hr : r.WellFormed) {v : List String}
    (hv : v ∈ r.language) (h : l.RecognizesFrom s w) : (l.concat r).RecognizesFrom s (w ++ v) := by
  refine h.append (m := l.concat r) (f := id) ?_ ?_ ?_
  · intro s hs
    exact (RecognizesFrom.concat_right hl hr hv).epsilon
      ((mem_epsilonTargets_concat hl hr).2 (.inr ⟨hs, rfl⟩))
  · intro s t ht
    exact (mem_epsilonTargets_concat hl hr).2 (.inl (hl.mem_epsilonTargets_join_left ht))
  · intro s a t ht
    exact moves_concat.2 (hl.moves_join_of_left ht)

/-- The words of each state of a concatenation: a word of the left operand followed by one of the
    right, or what is left of the latter. -/
theorem recognizesFrom_concat (hl : l.WellFormed) (hr : r.WellFormed)
    (h : (l.concat r).RecognizesFrom s w) :
    (s < l.size → ∃ u v, l.RecognizesFrom s u ∧ v ∈ r.language ∧ u ++ v = w) ∧
      (l.size ≤ s → r.RecognizesFrom (s - l.size) w) := by
  have hr' := hr.start_lt
  refine h.induct (P := fun s w =>
      (s < l.size → ∃ u v, l.RecognizesFrom s u ∧ v ∈ r.language ∧ u ++ v = w) ∧
      (l.size ≤ s → r.RecognizesFrom (s - l.size) w)) ?_ ?_ ?_
  · intro s hs
    obtain ⟨hle, hs⟩ := mem_accepting_concat.1 hs
    exact ⟨by omega, fun _ => .nil hs⟩
  · rintro s t w ht ⟨ihl, ihr⟩
    rcases (mem_epsilonTargets_concat hl hr).1 ht with ht | ⟨hs, rfl⟩
    · rcases Nat.lt_or_ge s l.size with hs | hs
      · rw [hl.epsilonTargets_join_left hs] at ht
        obtain ⟨u, v, hu, hv, rfl⟩ := ihl (hl.epsilonTargets_lt s t ht)
        exact ⟨fun _ => ⟨u, v, hu.epsilon ht, hv, rfl⟩, by omega⟩
      · rw [hl.epsilonTargets_join_right hs] at ht
        obtain ⟨hle, ht⟩ := StateSet.mem_shift.1 ht
        exact ⟨by omega, fun _ => (ihr hle).epsilon ht⟩
    · -- the left operand is left
      have hlt := hl.accepting_lt s hs
      have h := ihr (Nat.le_add_left _ _)
      rw [Nat.add_sub_cancel] at h
      exact ⟨fun _ => ⟨[], w, .nil hs, h, rfl⟩, by omega⟩
  · rintro s a t w ht ⟨ihl, ihr⟩
    rw [moves_concat] at ht
    rcases Nat.lt_or_ge s l.size with hs | hs
    · rw [hl.moves_join_left hs] at ht
      obtain ⟨u, v, hu, hv, rfl⟩ := ihl (hl.moves_lt ht)
      exact ⟨fun _ => ⟨a :: u, v, hu.cons ht, hv, rfl⟩, by omega⟩
    · rw [hl.moves_join_right hr hs] at ht
      exact ⟨by omega, fun _ => (ihr ht.1).cons ht.2⟩

/-- A concatenation recognizes a word of the left operand followed by one of the right. -/
theorem WellFormed.language_concat (hl : l.WellFormed) (hr : r.WellFormed) :
    (l.concat r).language = l.language * r.language := by
  ext w
  rw [mem_language, start_concat, Language.mem_mul]
  constructor
  · intro h
    obtain ⟨u, v, hu, hv, rfl⟩ := (recognizesFrom_concat hl hr h).1 hl.start_lt
    exact ⟨u, hu, v, hv, rfl⟩
  · rintro ⟨u, hu, v, hv, rfl⟩
    exact RecognizesFrom.concat_left hl hr hv hu

/-! ## Star -/

theorem WellFormed.star (hn : n.WellFormed) : (n.star config).WellFormed := by
  have hn' := hn.start_lt
  have hboth := (hn.addState config.startName).addState config.finalName
  apply hboth.linked <;> simp only [size_addState]
  · intro s t ht
    split at ht
    · rcases List.mem_cons.1 (StateSet.mem_ofList.1 ht) with rfl | ht
      · omega
      · rw [List.mem_singleton.1 ht]
        omega
    · exact absurd ht (StateSet.not_mem_empty t)
  · omega
  · intro s hs
    rw [StateSet.mem_single.1 hs]
    omega

theorem WellFormed.moves_star (hn : n.WellFormed) :
    (n.star config).Moves s a t ↔ n.Moves s a t := by
  rw [← moves_addState hn config.startName, ← moves_addState (hn.addState _) config.finalName]
  exact Iff.rfl

theorem start_star : (n.star config).start = n.size := rfl

theorem mem_accepting_star : s ∈ (n.star config).accepting ↔ s = n.size + 1 := StateSet.mem_single

theorem mem_epsilonTargets_star (config : Config) (hn : n.WellFormed) :
    t ∈ (n.star config).epsilonTargets s ↔
      t ∈ n.epsilonTargets s ∨
        (s = n.size ∨ s ∈ n.accepting) ∧ (t = n.start ∨ t = n.size + 1) := by
  have hlinked : (n.star config).epsilonTargets s =
      (((n.addState config.startName).addState config.finalName).addEpsilons fun s =>
        if s = n.size ∨ s ∈ n.accepting then .ofList [n.start, n.size + 1]
        else ∅).epsilonTargets s := rfl
  have hlink : (t ∈ if s = n.size ∨ s ∈ n.accepting then StateSet.ofList [n.start, n.size + 1]
      else ∅) ↔ (s = n.size ∨ s ∈ n.accepting) ∧ (t = n.start ∨ t = n.size + 1) := by
    split
    · next hs => simp [hs, StateSet.mem_ofList]
    · next hs => simp [hs, StateSet.not_mem_empty]
  rw [hlinked, mem_epsilonTargets_addEpsilons, size_addState, size_addState,
    epsilonTargets_addState, epsilonTargets_addState, hlink, and_iff_right_iff_imp]
  rintro (ht | ⟨rfl | hs, -⟩)
  · have := hn.lt_of_mem_epsilonTargets ht
    omega
  · omega
  · have := hn.accepting_lt s hs
    omega

/-- A star recognizes from a state of its operand what this recognizes from it, with any word of the
    star after it. -/
theorem RecognizesFrom.star_append (hn : n.WellFormed) {v : List String}
    (hv : (n.star config).RecognizesFrom n.size v) (h : n.RecognizesFrom s w) :
    (n.star config).RecognizesFrom s (w ++ v) := by
  -- the start state has only epsilon moves, which the accepting states of the operand have as well
  have hback : ∀ s ∈ n.accepting, (n.star config).RecognizesFrom s v := by
    intro s hs
    obtain ⟨u, hu, hpath⟩ := hv
    cases hpath with
    | refl =>
      have := mem_accepting_star.1 hu
      omega
    | epsilon ht hpath =>
      rcases (mem_epsilonTargets_star config hn).1 ht with ht | ⟨-, ht⟩
      · have := hn.lt_of_mem_epsilonTargets ht
        omega
      · exact ⟨u, hu, .epsilon ((mem_epsilonTargets_star config hn).2 (.inr ⟨.inr hs, ht⟩)) hpath⟩
    | symbol hc ht _ =>
      have := hn.lt_of_moves (hn.moves_star.1 ⟨_, hc, ht⟩)
      omega
  refine h.append (m := n.star config) (f := id) hback ?_ ?_
  · intro s t ht
    exact (mem_epsilonTargets_star config hn).2 (.inl ht)
  · intro s a t ht
    exact hn.moves_star.2 ht

/-- The words of each state of a star: a word of the operand followed by words of it for its states,
    any number of its words for the start state, and the empty word for the accepting state. -/
theorem recognizesFrom_star (hn : n.WellFormed) (h : (n.star config).RecognizesFrom s w) :
    (s < n.size → ∃ u v, n.RecognizesFrom s u ∧ v ∈ n.language∗ ∧ u ++ v = w) ∧
      (s = n.size → w ∈ n.language∗) ∧ (s = n.size + 1 → w = []) := by
  have hn' := hn.start_lt
  refine h.induct (P := fun s w =>
      (s < n.size → ∃ u v, n.RecognizesFrom s u ∧ v ∈ n.language∗ ∧ u ++ v = w) ∧
      (s = n.size → w ∈ n.language∗) ∧ (s = n.size + 1 → w = [])) ?_ ?_ ?_
  · intro s hs
    rw [mem_accepting_star] at hs
    exact ⟨by omega, by omega, fun _ => rfl⟩
  · rintro s t w ht ⟨ihn, -, ihf⟩
    rcases (mem_epsilonTargets_star config hn).1 ht with ht | ⟨hs, ht⟩
    · have hs := hn.lt_of_mem_epsilonTargets ht
      obtain ⟨u, v, hu, hv, rfl⟩ := ihn (hn.epsilonTargets_lt s t ht)
      exact ⟨fun _ => ⟨u, v, hu.epsilon ht, hv, rfl⟩, by omega, by omega⟩
    · have hw : w ∈ n.language∗ := by
        rcases ht with rfl | rfl
        · obtain ⟨u, v, hu, hv, rfl⟩ := ihn hn'
          rw [← Language.one_add_self_mul_kstar_eq_kstar]
          exact .inr (Language.append_mem_mul hu hv)
        · rw [ihf rfl]
          exact Language.nil_mem_kstar _
      rcases hs with rfl | hs
      · exact ⟨by omega, fun _ => hw, by omega⟩
      · have hlt := hn.accepting_lt s hs
        exact ⟨fun _ => ⟨[], w, .nil hs, hw, rfl⟩, by omega, by omega⟩
  · rintro s a t w ht ⟨ihn, -, -⟩
    rw [hn.moves_star] at ht
    have hs := hn.lt_of_moves ht
    obtain ⟨u, v, hu, hv, rfl⟩ := ihn (hn.moves_lt ht)
    exact ⟨fun _ => ⟨a :: u, v, hu.cons ht, hv, rfl⟩, by omega, by omega⟩

/-- A star recognizes any number of words of its operand one after the other. -/
theorem WellFormed.language_star (hn : n.WellFormed) :
    (n.star config).language = n.language∗ := by
  ext w
  rw [mem_language, start_star]
  constructor
  · intro h
    exact (recognizesFrom_star hn h).2.1 rfl
  · intro h
    obtain ⟨words, rfl, hwords⟩ := Language.mem_kstar.1 h
    clear h
    induction words with
    | nil =>
      have hfinal : (n.star config).RecognizesFrom (n.size + 1) [] :=
        .nil (mem_accepting_star.2 rfl)
      exact hfinal.epsilon ((mem_epsilonTargets_star config hn).2 (.inr ⟨.inl rfl, .inr rfl⟩))
    | cons u words ih =>
      have hu := hwords u (by simp)
      have hv := ih fun v hv => hwords v (by simp [hv])
      have ht := (mem_epsilonTargets_star config hn).2 (.inr ⟨.inl rfl, .inl rfl⟩)
      exact (RecognizesFrom.star_append hn hv hu).epsilon ht

end Nfa

end Acceptors
