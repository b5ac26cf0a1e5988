import Mathlib.Data.List.Shortlex
import Acceptors.Proofs.Dfa.Subsets

/-!
# The order in which subsets are found

The search for subsets goes breadth first and takes the symbols in column order. So each set is
found along the least of the words that lead to it, shorter words coming before longer ones and
words of the same length in the order of their columns. The sets are numbered in the order of these
words.

Results:
* `Alphabet.Precedes`: the order of words.
* `Nfa.setAfter`: the set to which a word leads.
* `Nfa.Discovery.expand`: what one step of the search keeps.
* `Nfa.Discovery.exists_replaces`: at the end no word leads to a set that is not found along a word
  that is at least as early.
* `Nfa.WellFormed.exists_discovery`: the words along which the subsets are found.
-/

namespace Acceptors

/-! ## The order of words -/

namespace Alphabet

variable {alphabet : Alphabet} {u v w : List String} {a b : String}

/-- Shorter words come first, and words of the same length in the order of the columns of their
    symbols. -/
def Precedes (alphabet : Alphabet) : List String → List String → Prop :=
  List.Shortlex fun a b => alphabet.symbols.idxOf a < alphabet.symbols.idxOf b

theorem Precedes.trans (huv : alphabet.Precedes u v) (hvw : alphabet.Precedes v w) :
    alphabet.Precedes u w := by
  rcases List.shortlex_def.1 huv with huv | ⟨huv, huv'⟩ <;>
    rcases List.shortlex_def.1 hvw with hvw | ⟨hvw, hvw'⟩
  · exact .of_length_lt (huv.trans hvw)
  · exact .of_length_lt (hvw ▸ huv)
  · exact .of_length_lt (huv ▸ hvw)
  · exact .of_lex (huv.trans hvw) (List.lex_trans Nat.lt_trans huv' hvw')

theorem Precedes.asymm (h : alphabet.Precedes u v) : ¬ alphabet.Precedes v u :=
  have : Std.Asymm fun a b => alphabet.symbols.idxOf a < alphabet.symbols.idxOf b :=
    ⟨fun _ _ => Nat.lt_asymm⟩
  Std.Asymm.asymm (r := List.Shortlex _) _ _ h

/-- The empty word comes first. -/
theorem precedes_nil_concat : alphabet.Precedes [] (v ++ [a]) := .of_length_lt (by simp)

/-- One more symbol leaves words in their order. -/
theorem Precedes.concat (h : alphabet.Precedes u v) (a b : String) :
    alphabet.Precedes (u ++ [a]) (v ++ [b]) := by
  rcases List.shortlex_def.1 h with hlt | ⟨hlength, hlex⟩
  · exact .of_length_lt (by simpa using hlt)
  · refine .of_lex (by simpa using hlength) ?_
    clear h
    induction hlex with
    | nil => cases hlength
    | cons _ ih => exact .cons (ih (Nat.succ.inj hlength))
    | rel hlt => exact .rel hlt

theorem precedes_concat_concat (h : alphabet.symbols.idxOf a < alphabet.symbols.idxOf b) :
    alphabet.Precedes (v ++ [a]) (v ++ [b]) :=
  .append_left ((List.shortlex_singleton_iff a b).2 h) v

theorem pairwise_idxOf_lt (alphabet : Alphabet) :
    alphabet.symbols.Pairwise fun a b =>
      alphabet.symbols.idxOf a < alphabet.symbols.idxOf b := by
  rw [List.pairwise_iff_getElem]
  intro i j hi hj hij
  rwa [alphabet.nodup.idxOf_getElem, alphabet.nodup.idxOf_getElem]

end Alphabet

namespace Nfa

variable {n : Nfa} {X : StateSet} {i : Nat} {u v w : List String} {a : String}
variable {found : Numbering StateSet} {words : List (List String)}

/-! ## Sets that words lead to -/

/-- The states to which the members of a set have moves on the symbol `a`. -/
def nextSet (n : Nfa) (X : StateSet) (a : String) : StateSet :=
  match n.alphabet.idxOf? a with
  | none => ∅
  | some c => n.step X c

/-- The states to which a word leads from the start state by moves alone. -/
def setAfter (n : Nfa) (w : List String) : StateSet := w.foldl n.nextSet (.single n.start)

theorem setAfter_concat : n.setAfter (w ++ [a]) = n.nextSet (n.setAfter w) a :=
  List.foldl_concat _ _ _ _

theorem nextSet_of_idxOf? {c : Nat} (hc : n.alphabet.idxOf? a = some c) :
    n.nextSet X a = n.step X c := by
  rw [nextSet, hc]

theorem mem_alphabet_of_nextSet (h : (n.nextSet X a).isEmpty = false) : a ∈ n.alphabet := by
  rw [nextSet] at h
  split at h
  · cases h
  · next c hc => exact Alphabet.mem_of_idxOf? hc

theorem mem_nextSet {t : Nat} : t ∈ n.nextSet X a ↔ ∃ s ∈ X, n.Moves s a t := by
  rw [nextSet]
  cases hc : n.alphabet.idxOf? a with
  | none =>
    refine iff_of_false (StateSet.not_mem_empty t) ?_
    rintro ⟨s, -, c, hc', -⟩
    rw [hc] at hc'
    cases hc'
  | some c => simp only [step, StateSet.mem_biUnion, Moves, hc, Option.some.injEq, exists_eq_left']

/-- No symbol leads from the empty set to a state. -/
theorem isEmpty_nextSet (hX : X.isEmpty = true) : (n.nextSet X a).isEmpty = true := by
  rw [StateSet.isEmpty_iff] at hX ⊢
  intro t ht
  obtain ⟨s, hs, -⟩ := mem_nextSet.1 ht
  exact hX s hs

/-- A set is expanded symbol by symbol. -/
theorem expansion_eq (n : Nfa) (X : StateSet) :
    expansion (n.stepRow n.moveLists) X =
      (n.alphabet.symbols.map (n.nextSet X)).filter (!·.isEmpty) := by
  rw [expansion, stepRow_eq]
  congr 1
  apply List.ext_getElem
  · rw [Array.length_toList, Array.size_ofFn, List.length_map]
    rfl
  · intro c hc hc'
    have hlt : c < n.alphabet.symbols.length := by rwa [List.length_map] at hc'
    rw [Array.getElem_toList, Array.getElem_ofFn, List.getElem_map]
    exact (nextSet_of_idxOf? (Alphabet.get?_eq_some_iff.1 (List.getElem?_eq_getElem hlt))).symm

/-! ## Words that replace others -/

/-- `u` leads to the same set as `w` and does not come after it. -/
def Replaces (n : Nfa) (u w : List String) : Prop :=
  n.setAfter u = n.setAfter w ∧ (u = w ∨ n.alphabet.Precedes u w)

theorem Replaces.trans (huv : n.Replaces u v) (hvw : n.Replaces v w) : n.Replaces u w := by
  refine ⟨huv.1.trans hvw.1, ?_⟩
  rcases huv.2 with rfl | huv
  · exact hvw.2
  · rcases hvw.2 with rfl | hvw
    · exact .inr huv
    · exact .inr (huv.trans hvw)

theorem Replaces.concat (h : n.Replaces u w) (a : String) :
    n.Replaces (u ++ [a]) (w ++ [a]) := by
  refine ⟨by rw [setAfter_concat, setAfter_concat, h.1], ?_⟩
  rcases h.2 with rfl | h
  · exact .inl rfl
  · exact .inr (h.concat a a)

/-! ## The words of a search -/

/-- The words along which the sets have been found when those below `i` have been expanded. They
    come in their order, each but the empty one continues that of an expanded set, and they replace
    all other words that do so. -/
structure Discovery (n : Nfa) (i : Nat) (words : List (List String)) : Prop where
  nil_mem : [] ∈ words
  increasing : words.Pairwise n.alphabet.Precedes
  origin : ∀ u ∈ words, u = [] ∨ ∃ k < i, ∃ v a, words[k]? = some v ∧ u = v ++ [a]
  covered : ∀ k < i, ∀ v, words[k]? = some v → ∀ a, (n.setAfter (v ++ [a])).isEmpty = false →
    ∃ u ∈ words, n.Replaces u (v ++ [a])

/-- What has been found so far comes before every word that is tried next. -/
theorem Discovery.precedes (h : n.Discovery i words) (hv : words[i]? = some v) (hu : u ∈ words)
    (a : String) : n.alphabet.Precedes u (v ++ [a]) := by
  rcases h.origin u hu with rfl | ⟨k, hk, u', b, hu', rfl⟩
  · exact Alphabet.precedes_nil_concat
  · obtain ⟨hi, rfl⟩ := List.getElem?_eq_some_iff.1 hv
    obtain ⟨hk', rfl⟩ := List.getElem?_eq_some_iff.1 hu'
    exact (List.pairwise_iff_getElem.1 h.increasing k i hk' hi hk).concat b a

/-- The symbols that are still to be tried on the set of `v` add its continuations in their order,
    if all that was found before comes before them. -/
theorem exists_words_of_foldl {symbols : List String}
    (hfound : found.toList = words.map n.setAfter)
    (hsymbols : symbols.Pairwise fun a b =>
      n.alphabet.symbols.idxOf a < n.alphabet.symbols.idxOf b)
    (hincreasing : words.Pairwise n.alphabet.Precedes)
    (hbefore : ∀ u ∈ words, ∀ a ∈ symbols, n.alphabet.Precedes u (v ++ [a])) :
    ∃ more, (((symbols.map (n.nextSet (n.setAfter v))).filter (!·.isEmpty)).foldl
        .insert found).toList = (words ++ more).map n.setAfter ∧
      (words ++ more).Pairwise n.alphabet.Precedes ∧ (∀ u ∈ more, ∃ a, u = v ++ [a]) ∧
      ∀ a ∈ symbols, (n.setAfter (v ++ [a])).isEmpty = false →
        ∃ u ∈ words ++ more, n.Replaces u (v ++ [a]) := by
  induction symbols generalizing found words with
  | nil => exact ⟨[], by simpa using hfound, by simpa using hincreasing, by simp, by simp⟩
  | cons a symbols ih =>
    obtain ⟨ha, hsymbols⟩ := List.pairwise_cons.1 hsymbols
    rw [List.map_cons, ← setAfter_concat]
    have hrest : ∀ u ∈ words, ∀ b ∈ symbols, n.alphabet.Precedes u (v ++ [b]) :=
      fun u hu b hb => hbefore u hu b (List.mem_cons_of_mem a hb)
    cases hempty : (n.setAfter (v ++ [a])).isEmpty with
    | true =>
      obtain ⟨more, hmore, hinc, horigin, hcover⟩ := ih hfound hsymbols hincreasing hrest
      rw [List.filter_cons_of_neg (by rw [hempty]; decide)]
      refine ⟨more, hmore, hinc, horigin, List.forall_mem_cons.2 ⟨fun h => ?_, hcover⟩⟩
      rw [hempty] at h
      cases h
    | false =>
      rw [List.filter_cons_of_pos (by rw [hempty]; rfl), List.foldl_cons]
      by_cases hmem : n.setAfter (v ++ [a]) ∈ found.toList
      · -- An earlier word leads to the same set.
        have hfound' := (Numbering.toList_insert_of_mem hmem).trans hfound
        obtain ⟨more, hmore, hinc, horigin, hcover⟩ := ih hfound' hsymbols hincreasing hrest
        refine ⟨more, hmore, hinc, horigin, List.forall_mem_cons.2 ⟨fun _ => ?_, hcover⟩⟩
        obtain ⟨u, hu, hset⟩ := List.mem_map.1 (hfound ▸ hmem)
        exact ⟨u, List.mem_append_left _ hu, hset,
          .inr (hbefore u hu a List.mem_cons_self)⟩
      · have hfound' : (found.insert (n.setAfter (v ++ [a]))).toList =
            (words ++ [v ++ [a]]).map n.setAfter := by
          rw [Numbering.toList_insert_of_not_mem hmem, hfound, List.map_append]
          rfl
        have hincreasing' : (words ++ [v ++ [a]]).Pairwise n.alphabet.Precedes := by
          rw [List.pairwise_append]
          refine ⟨hincreasing, List.pairwise_singleton _ _, fun u hu w hw => ?_⟩
          rw [List.mem_singleton.1 hw]
          exact hbefore u hu a List.mem_cons_self
        have hbefore' : ∀ u ∈ words ++ [v ++ [a]], ∀ b ∈ symbols,
            n.alphabet.Precedes u (v ++ [b]) := by
          intro u hu b hb
          rcases List.mem_append.1 hu with hu | hu
          · exact hrest u hu b hb
          · rw [List.mem_singleton.1 hu]
            exact Alphabet.precedes_concat_concat (ha b hb)
        obtain ⟨more, hmore, hinc, horigin, hcover⟩ :=
          ih hfound' hsymbols hincreasing' hbefore'
        rw [List.append_assoc] at hmore hinc hcover
        refine ⟨(v ++ [a]) :: more, hmore, hinc, List.forall_mem_cons.2 ⟨⟨a, rfl⟩, horigin⟩,
          List.forall_mem_cons.2 ⟨fun _ => ?_, hcover⟩⟩
        exact ⟨v ++ [a], by simp, rfl, .inl rfl⟩

/-- One step of the search adds words that continue the discovery. -/
theorem Discovery.expand (h : n.Discovery i words) (hfound : found.toList = words.map n.setAfter)
    (hX : found.get? i = some X) :
    ∃ more, ((expansion (n.stepRow n.moveLists) X).foldl .insert found).toList =
        (words ++ more).map n.setAfter ∧ n.Discovery (i + 1) (words ++ more) := by
  rw [← Numbering.getElem?_toList, hfound, List.getElem?_map] at hX
  obtain ⟨v, hv, rfl⟩ := Option.map_eq_some_iff.1 hX
  obtain ⟨more, hmore, hincreasing, horigin, hcovered⟩ :=
    exists_words_of_foldl hfound n.alphabet.pairwise_idxOf_lt h.increasing
      fun u hu a _ => h.precedes hv hu a
  have hkeep : ∀ {k u}, words[k]? = some u → (words ++ more)[k]? = some u := fun hk =>
    (List.getElem?_append_left (List.getElem?_eq_some_iff.1 hk).1).trans hk
  have hlt : ∀ {k}, k ≤ i → k < words.length := fun hk =>
    Nat.lt_of_le_of_lt hk (List.getElem?_eq_some_iff.1 hv).1
  refine ⟨more, by rw [expansion_eq, hmore], ?_⟩
  refine ⟨List.mem_append_left _ h.nil_mem, hincreasing, fun u hu => ?_, fun k hk w hw a ha => ?_⟩
  · rcases List.mem_append.1 hu with hu | hu
    · exact (h.origin u hu).imp_right fun ⟨k, hk, w, a, hw, hu⟩ =>
        ⟨k, Nat.lt_succ_of_lt hk, w, a, hkeep hw, hu⟩
    · obtain ⟨a, rfl⟩ := horigin u hu
      exact .inr ⟨i, Nat.lt_succ_self i, v, a, hkeep hv, rfl⟩
  · -- The sets below `i` were covered before, and that of `v` by what it has just been expanded to.
    rw [List.getElem?_append_left (hlt (Nat.le_of_lt_succ hk))] at hw
    rcases Nat.lt_succ_iff_lt_or_eq.1 hk with hk | rfl
    · obtain ⟨u, hu, hreplaces⟩ := h.covered k hk w hw a ha
      exact ⟨u, List.mem_append_left _ hu, hreplaces⟩
    · obtain rfl : v = w := Option.some.inj (hv.symm.trans hw)
      rw [setAfter_concat] at ha
      exact hcovered a (mem_alphabet_of_nextSet ha) (by rwa [setAfter_concat])

/-- When all sets have been expanded, every word that leads to a state is replaced. -/
theorem Discovery.exists_replaces (h : n.Discovery i words) (hlength : words.length ≤ i)
    (hw : (n.setAfter w).isEmpty = false) : ∃ u ∈ words, n.Replaces u w := by
  -- The word without its last symbol is replaced by one whose set was expanded on that symbol.
  induction w using List.reverseRecOn with
  | nil => exact ⟨[], h.nil_mem, rfl, .inl rfl⟩
  | append_singleton w a ih =>
    have hprefix : (n.setAfter w).isEmpty = false := by
      rw [setAfter_concat] at hw
      exact Bool.eq_false_iff.2 fun hempty =>
        Bool.eq_false_iff.1 hw (isEmpty_nextSet hempty)
    obtain ⟨v, hv, hreplaces⟩ := ih hprefix
    obtain ⟨k, hk⟩ := List.mem_iff_getElem?.1 hv
    have hlt : k < i := Nat.lt_of_lt_of_le (List.getElem?_eq_some_iff.1 hk).1 hlength
    have hconcat := hreplaces.concat a
    obtain ⟨u, hu, h'⟩ := h.covered k hlt v hk a (by rwa [hconcat.1])
    exact ⟨u, hu, h'.trans hconcat⟩

/-- The first set is found along the empty word. -/
theorem discovery_start : n.Discovery 0 [[]] where
  nil_mem := List.mem_singleton_self _
  increasing := List.pairwise_singleton _ _
  origin _ hu := .inl (List.mem_singleton.1 hu)
  covered k hk := absurd hk (Nat.not_lt_zero k)

/-- The words along which the subsets are found: they come in their order and replace all words that
    lead to a state. -/
theorem WellFormed.exists_discovery (hn : n.WellFormed) :
    ∃ words : List (List String), n.subsets.toList = words.map n.setAfter ∧
      words.Pairwise n.alphabet.Precedes ∧
      ∀ w, (n.setAfter w).isEmpty = false → ∃ u ∈ words, n.Replaces u w := by
  let I := fun i (found : Numbering StateSet) => (∀ X ∈ found.toList, ∀ s ∈ X, s < n.size) ∧
    ∃ words, found.toList = words.map n.setAfter ∧ n.Discovery i words
  have hstep : ∀ {i found X}, I i found → found.get? i = some X →
      I (i + 1) ((expansion (n.stepRow n.moveLists) X).foldl .insert found) := by
    rintro i found X ⟨hlt, words, hfound, h⟩ hX
    obtain ⟨more, hmore, h'⟩ := h.expand hfound hX
    exact ⟨forall_mem_step (fun _ _ => hn.lt_of_mem_expansion) hlt hX, words ++ more, hmore, h'⟩
  have hbound : ∀ {i found}, I i found → found.size ≤ 2 ^ n.size := fun {_ found} h =>
    found.length_toList ▸ StateSet.length_le_of_nodup found.nodup_toList h.1
  obtain ⟨i, hsize, -, words, hfound, h⟩ :=
    exists_size_le_of_discover hstep hbound (Nat.le_of_eq (Nat.one_shiftLeft n.size).symm)
      (i := 0) ⟨hn.lt_of_mem_first, [[]], rfl, discovery_start⟩
  change n.subsets.toList = words.map n.setAfter at hfound
  change n.subsets.size ≤ i at hsize
  rw [← Numbering.length_toList, hfound, List.length_map] at hsize
  exact ⟨words, hfound, h.increasing, fun w hw => h.exists_replaces hsize hw⟩

end Nfa

end Acceptors
