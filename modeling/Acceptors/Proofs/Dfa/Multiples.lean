import Mathlib.Data.Nat.Digits.Lemmas
import Acceptors.Dfa.Multiples
import Acceptors.Proofs.Dfa.Copied
import Acceptors.Proofs.Loaded

/-!
# Remainders and the values of numerals

A numeral is read from its most significant digit. Each further digit multiplies the value by the
base and adds to it, so that the remainder of the value is known from the remainder so far: the
state that a numeral leads to is the remainder of its value.

The targets of the table are computed in words of 64 bits from numbers of 32 bits, which is wide
enough: nothing is cut off, neither in the product nor when the target becomes the number of a
state. The table that is filled in this way, cell by cell, is that of the remainders.

Results:
* `Dfa.toNat_nextRemainder`: words of 64 bits are wide enough.
* `Dfa.remaindersFilled_eq`: the table that is filled cell by cell.
* `Dfa.run_remainders`: where a numeral leads.
* `Dfa.multiplesOf_accepts_iff_dvd`: what is accepted, and how the table is computed.
-/

namespace Acceptors

/-! ## Numerals -/

/-- The value of a digit is its place among the digits. -/
def digitValue (x : String) : Nat := digits.idxOf x

/-- The value of a numeral in a base, the most significant digit first. -/
def numeralValue (base : Nat) (w : List String) : Nat :=
  Nat.ofDigits base (w.reverse.map digitValue)

variable {base c : Nat} {x : String} {w : List String}

theorem numeralValue_nil : numeralValue base [] = 0 := rfl

/-- The first digit of a numeral counts most. -/
theorem numeralValue_cons :
    numeralValue base (x :: w) = digitValue x * base ^ w.length + numeralValue base w := by
  have hlength : (w.reverse.map digitValue).length = w.length := by simp
  rw [numeralValue, List.reverse_cons, List.map_append, List.map_singleton, Nat.ofDigits_append,
    Nat.ofDigits_singleton, hlength, ← numeralValue, Nat.mul_comm, Nat.add_comm]

/-- In the alphabet of a base, the column of a digit is its value. -/
theorem Alphabet.idxOf?_digits_eq_some_iff :
    (Alphabet.digits base).idxOf? x = some c ↔ x ∈ Alphabet.digits base ∧ digitValue x = c := by
  have hplace : ∀ {c}, (Alphabet.digits base).idxOf? x = some c → digitValue x = c := by
    intro c h
    have hget : (Acceptors.digits.take base)[c]? = some x := Alphabet.get?_eq_some_iff.2 h
    rw [List.getElem?_take, Option.ite_none_right_eq_some] at hget
    obtain ⟨hlt, hx⟩ := List.getElem?_eq_some_iff.1 hget.2
    rw [digitValue, ← hx]
    exact List.Nodup.idxOf_getElem (by decide) c hlt
  constructor
  · exact fun h => ⟨Alphabet.mem_of_idxOf? h, hplace h⟩
  · rintro ⟨hmem, rfl⟩
    obtain ⟨c, hc⟩ := Alphabet.exists_idxOf?_of_mem hmem
    rw [hc, hplace hc]

theorem Alphabet.size_digits (h : base ≤ 16) : (Alphabet.digits base).size = base := by
  have hlength : Acceptors.digits.length = 16 := rfl
  rw [Alphabet.size, Alphabet.digits, List.length_take, hlength, Nat.min_eq_left h]

namespace Dfa

/-! ## Computing with words -/

/-- The target of a remainder on a digit, computed in words of 64 bits and then made the number of
    a state. -/
def nextRemainder (number base remainder digit : UInt32) : USize :=
  ((remainder.toUInt64 * base.toUInt64 + digit.toUInt64) % number.toUInt64).toUSize

/-- The numbers below `n`, in order. -/
def below (n : UInt32) : List UInt32 := (List.range n.toNat).map UInt32.ofNat

theorem foldl_below {α : Type} {n : UInt32} {f : α → UInt32 → α} {a : α} :
    (below n).foldl f a = (List.range n.toNat).foldl (fun a i => f a (UInt32.ofNat i)) a := by
  rw [below, List.foldl_map]

/-- Enters the target of a remainder on a digit (the inner loop of `multiples_of`). -/
def enterRemainder (number base remainder : UInt32) (d : Dfa) (digit : UInt32) : Dfa :=
  d.setMove remainder.toUSize.toNat digit.toUSize.toNat
    (some (nextRemainder number base remainder digit).toNat)

/-- The automaton of the remainders, made state by state and move by move (`multiples_of`). -/
def remaindersFilled (number base : UInt32) : Dfa :=
  let states := ((below number).drop 1).foldl (fun d remainder => d.addState s!"S{remainder}")
    (new (Alphabet.digits base.toNat) "S0")
  let moves := (below number).foldl
    (fun d remainder => (below base).foldl (enterRemainder number base remainder) d) states
  moves.setAccepting 0 true

section Words

variable {number base remainder digit : UInt32}

/-- The product of a remainder and the base, with a digit added to it, fits into 64 bits. -/
theorem product_lt (hremainder : remainder < number) (hdigit : digit < base) :
    remainder.toNat * base.toNat + digit.toNat < UInt64.size := by
  have hr : remainder.toNat + 1 ≤ number.toNat := UInt32.lt_iff_toNat_lt.1 hremainder
  have hd : digit.toNat < base.toNat := UInt32.lt_iff_toNat_lt.1 hdigit
  have hnumber : number.toNat ≤ 2 ^ 32 := Nat.le_of_lt number.toNat_lt
  have hbase : base.toNat ≤ 2 ^ 32 - 1 := Nat.le_pred_of_lt base.toNat_lt
  calc remainder.toNat * base.toNat + digit.toNat
      < remainder.toNat * base.toNat + base.toNat := by omega
    _ = (remainder.toNat + 1) * base.toNat := (Nat.succ_mul _ _).symm
    _ ≤ 2 ^ 32 * (2 ^ 32 - 1) := Nat.mul_le_mul (hr.trans hnumber) hbase
    _ < UInt64.size := by decide

/-- Words of 64 bits are wide enough, and the target fits into the number of a state. -/
theorem toNat_nextRemainder (hremainder : remainder < number) (hdigit : digit < base) :
    (nextRemainder number base remainder digit).toNat =
      (remainder.toNat * base.toNat + digit.toNat) % number.toNat := by
  have hproduct := product_lt hremainder hdigit
  have hnumber : 0 < number.toNat :=
    Nat.zero_lt_of_lt (UInt32.lt_iff_toNat_lt.1 hremainder)
  have hword : ((remainder.toUInt64 * base.toUInt64 + digit.toUInt64) % number.toUInt64).toNat =
      (remainder.toNat * base.toNat + digit.toNat) % number.toNat := by
    rw [UInt64.toNat_mod, UInt64.toNat_add, UInt64.toNat_mul]
    simp only [UInt32.toNat_toUInt64, Nat.mod_add_mod]
    rw [Nat.mod_eq_of_lt hproduct]
  have hsmall : (remainder.toNat * base.toNat + digit.toNat) % number.toNat < USize.size :=
    calc _ < number.toNat := Nat.mod_lt _ hnumber
      _ < 2 ^ 32 := number.toNat_lt
      _ ≤ USize.size := USize.le_size
  rw [nextRemainder, UInt64.toNat_toUSize, hword]
  exact Nat.mod_eq_of_lt hsmall

theorem toNat_ofNat_of_lt {n : UInt32} {i : Nat} (h : i < n.toNat) :
    (UInt32.ofNat i).toNat = i :=
  UInt32.toNat_ofNat_of_lt' (h.trans n.toNat_lt)

/-- The target of a remainder on a digit, read from the table. -/
theorem move_remainders {number base s c : Nat} (hs : s < number) (hc : c < base)
    (hbase : base ≤ 16) :
    (remainders number base).move s c = some ((s * base + c) % number) := by
  rw [remainders, move_ofFn, StateNames.size_numbered, Alphabet.size_digits hbase,
    if_pos ⟨hs, hc⟩]

/-- What is entered for a remainder and a digit is the target in the table. -/
theorem enterRemainder_eq (hbase : base.toNat ≤ 16) {d : Dfa} {s c : Nat} (hs : s < number.toNat)
    (hc : c < base.toNat) :
    enterRemainder number base (UInt32.ofNat s) d (UInt32.ofNat c) =
      d.setMove s c ((remainders number.toNat base.toNat).move s c) := by
  have hs' := toNat_ofNat_of_lt hs
  have hc' := toNat_ofNat_of_lt hc
  have htarget := @toNat_nextRemainder number base (UInt32.ofNat s) (UInt32.ofNat c)
    (UInt32.lt_iff_toNat_lt.2 (hs'.symm ▸ hs)) (UInt32.lt_iff_toNat_lt.2 (hc'.symm ▸ hc))
  rw [enterRemainder, htarget, UInt32.toNat_toUSize, UInt32.toNat_toUSize, hs', hc',
    move_remainders hs hc hbase]

/-- Before any move is entered, there are the states alone. -/
theorem addStates_eq_ofNames (hnumber : 0 < number.toNat) :
    ((below number).drop 1).foldl (fun d remainder => d.addState s!"S{remainder}")
        (new (Alphabet.digits base.toNat) "S0") =
      ofNames (Alphabet.digits base.toNat) (.numbered "S" number.toNat) := by
  have hzero : (StateNames.numbered "S" number.toNat).name 0 = "S0" :=
    StateNames.name_numbered hnumber
  rw [below, ← List.map_drop, List.foldl_map, ofNames, StateNames.size_numbered, hzero]
  refine List.foldl_ext _ _ _ fun d s hs => congrArg d.addState ?_
  have hlt := List.mem_range.1 (List.mem_of_mem_drop hs)
  rw [StateNames.name_numbered hlt, ← congrArg toString (toNat_ofNat_of_lt hlt)]
  rfl

/-- All that is entered are the moves of the table, state by state. -/
theorem enterRemainders_eq (hbase : base.toNat ≤ 16) (d : Dfa) :
    (below number).foldl
        (fun d remainder => (below base).foldl (enterRemainder number base remainder) d) d =
      (List.range number.toNat).foldl (fun d s => (List.range base.toNat).foldl
        (fun d c => d.setMove s c ((remainders number.toNat base.toNat).move s c)) d) d := by
  rw [foldl_below]
  refine List.foldl_ext _ _ _ fun d s hs => ?_
  rw [foldl_below]
  refine List.foldl_ext _ _ _ fun d c hc => ?_
  exact enterRemainder_eq hbase (List.mem_range.1 hs) (List.mem_range.1 hc)

end Words

/-- The states and the moves of an automaton, entered one after the other. -/
theorem WellFormed.copiedTo_moves {d : Dfa} (hd : d.WellFormed) :
    let e := (List.range d.size).foldl (fun e s => (List.range d.alphabet.size).foldl
      (fun e c => e.setMove s c (d.move s c)) e) (ofNames d.alphabet d.names)
    e.WellFormed ∧ e.start = 0 ∧
      d.toNfa.CopiedTo {x | x.1 < d.size ∧ x.2 < d.alphabet.size} ∅ e.toNfa := by
  have hstart : (ofNames d.alphabet d.names).start = 0 :=
    List.foldlRecOn (motive := fun e : Dfa => e.start = 0) _ _ rfl fun _ h _ _ => h
  obtain ⟨hnames, hcopied⟩ := hd.copiedTo_toNfa_ofNames
  exact foldl_table
    (P := fun cells _ (e : Dfa) => e.WellFormed ∧ e.start = 0 ∧ d.toNfa.CopiedTo cells ∅ e.toNfa)
    ⟨hnames, hstart, hcopied⟩
    (fun _ _ _ _ _ hs hc h =>
      have hset := setMove_copiedTo h.1 h.2.2 hd hs hc
      ⟨hset.1, h.2.1, hset.2⟩)
    fun _ _ _ _ _ h => h

/-- The table that is filled cell by cell is that of the remainders. -/
theorem remaindersFilled_eq {number base : UInt32} (hnumber : 0 < number.toNat)
    (hbase : base.toNat ≤ 16) :
    remaindersFilled number base = remainders number.toNat base.toNat := by
  have hmoves := @enterRemainders_eq number base hbase
  rw [remaindersFilled, addStates_eq_ofNames hnumber, hmoves]
  generalize hd : remainders number.toNat base.toNat = d
  have hwell : d.WellFormed := hd ▸ wellFormed_remainders hnumber
  have hsize : d.size = number.toNat := hd ▸ StateNames.size_numbered _ _
  have hcolumns : d.alphabet.size = base.toNat := hd ▸ Alphabet.size_digits hbase
  have hstates : ofNames (Alphabet.digits base.toNat) (.numbered "S" number.toNat) =
      ofNames d.alphabet d.names := hd ▸ rfl
  have haccepting : d.accepting = .single 0 := hd ▸ rfl
  have hstart : d.start = 0 := hd ▸ rfl
  obtain ⟨he, hzero, hcopied⟩ := hwell.copiedTo_moves
  rw [hstates, ← hsize, ← hcolumns]
  generalize (List.range d.size).foldl _ (ofNames d.alphabet d.names) = e at he hzero hcopied ⊢
  have hlt : 0 < e.size := by
    have hsame : e.size = d.size := hcopied.size_eq
    omega
  refine (he.setAccepting hlt true).eq_of_move hwell hcopied.alphabet_eq hcopied.names_eq
    (fun s c t => ?_) (hzero.trans hstart.symm) (StateSet.ext fun s => ?_)
  · have hcell := hcopied.mem_targets s c t
    rw [mem_targets_toNfa he, mem_targets_toNfa hwell] at hcell
    exact hcell.trans (and_iff_right_of_imp hwell.lt_of_move)
  · have hnone : s ∉ e.accepting := fun hs => ((hcopied.mem_accepting s).1 hs).1
    show s ∈ e.accepting.insert 0 ↔ _
    rw [haccepting, StateSet.mem_insert, StateSet.mem_single, or_iff_right hnone]

/-! ## Where a numeral leads -/

variable {number s : Nat}

theorem next_remainders (hbase : base ≤ 16) (hs : s < number) (hx : x ∈ Alphabet.digits base) :
    (remainders number base).next s x = some ((s * base + digitValue x) % number) := by
  have hcolumn := Alphabet.idxOf?_digits_eq_some_iff.2 ⟨hx, rfl⟩
  have hlt : digitValue x < base := Alphabet.size_digits hbase ▸ Alphabet.lt_size_of_idxOf? hcolumn
  exact next_eq_some_iff.2 ⟨_, hcolumn, move_remainders hs hlt hbase⟩

/-- A numeral that is read on leads to the remainder of the value of all that was read. -/
theorem run_remainders (hbase : base ≤ 16) (hs : s < number)
    (hw : ∀ x ∈ w, x ∈ Alphabet.digits base) :
    (remainders number base).run s w =
      some ((s * base ^ w.length + numeralValue base w) % number) := by
  induction w generalizing s with
  | nil =>
    rw [numeralValue_nil, List.length_nil, pow_zero, mul_one, add_zero, Nat.mod_eq_of_lt hs]
    rfl
  | cons x w ih =>
    obtain ⟨hx, hw⟩ := List.forall_mem_cons.1 hw
    have hnumber : 0 < number := Nat.zero_lt_of_lt hs
    have hvalue : (s * base + digitValue x) * base ^ w.length + numeralValue base w =
        s * base ^ (x :: w).length + numeralValue base (x :: w) := by
      rw [numeralValue_cons, List.length_cons]
      ring
    rw [run_cons, next_remainders hbase hs hx, Option.bind_some, ih (Nat.mod_lt _ hnumber) hw,
      ← hvalue]
    exact congrArg some (((Nat.mod_modEq _ _).mul_right _).add_right _)

theorem isAccepting_remainders : (remainders number base).isAccepting s = true ↔ s = 0 :=
  StateSet.mem_single

/-- A numeral is accepted if it denotes a multiple of the number. -/
theorem acceptsFrom_remainders_iff (hbase : base ≤ 16) (hs : s < number)
    (hw : ∀ x ∈ w, x ∈ Alphabet.digits base) :
    (remainders number base).acceptsFrom s w = true ↔
      number ∣ s * base ^ w.length + numeralValue base w := by
  rw [acceptsFrom_iff, run_remainders hbase hs hw, Nat.dvd_iff_mod_eq_zero]
  constructor
  · rintro ⟨t, ht, hzero⟩
    rw [Option.some.inj ht]
    exact isAccepting_remainders.1 hzero
  · exact fun h => ⟨_, rfl, isAccepting_remainders.2 h⟩

theorem multiplesOf_eq_ok (hnumber : 1 ≤ number) (hlow : 2 ≤ base) (hhigh : base ≤ 16) :
    multiplesOf number base = .ok (remainders number base) := by
  rw [multiplesOf, if_neg (by omega), if_neg (by omega)]

/-- The automaton of the multiples of a number accepts the numerals that denote one of them, and no
    other words. It is the automaton that is filled cell by cell: no product exceeds 64 bits, and
    the targets are states. -/
theorem multiplesOf_accepts_iff_dvd {number base : UInt32} (hnumber : 1 ≤ number) (hlow : 2 ≤ base)
    (hhigh : base ≤ 16) :
    ∃ d, multiplesOf number.toNat base.toNat = .ok d ∧
      (∀ w, (∀ x ∈ w, x ∈ Alphabet.digits base.toNat) →
        (d.accepts w = true ↔ number.toNat ∣ numeralValue base.toNat w)) ∧
      (∀ w, (∃ x ∈ w, x ∉ Alphabet.digits base.toNat) → d.accepts w = false) ∧
      remaindersFilled number base = d ∧ d.size = number.toNat ∧
      ∀ remainder < number, ∀ digit < base,
        remainder.toNat * base.toNat + digit.toNat < UInt64.size ∧
        (nextRemainder number base remainder digit).toNat =
          (remainder.toNat * base.toNat + digit.toNat) % number.toNat ∧
        (nextRemainder number base remainder digit).toNat < d.size := by
  have hnumber : 1 ≤ number.toNat := UInt32.le_iff_toNat_le.1 hnumber
  have hlow : 2 ≤ base.toNat := UInt32.le_iff_toNat_le.1 hlow
  have hhigh : base.toNat ≤ 16 := UInt32.le_iff_toNat_le.1 hhigh
  have hsize : (remainders number.toNat base.toNat).size = number.toNat :=
    StateNames.size_numbered _ _
  refine ⟨_, multiplesOf_eq_ok hnumber hlow hhigh, fun w hw => ?_, fun w ⟨x, hx, hnot⟩ => ?_,
    remaindersFilled_eq hnumber hhigh, hsize, fun remainder hremainder digit hdigit => ?_⟩
  · have haccepts := acceptsFrom_remainders_iff hhigh hnumber hw
    rwa [Nat.zero_mul, Nat.zero_add] at haccepts
  · exact Bool.eq_false_iff.2 fun haccepts => hnot (mem_alphabet_of_acceptsFrom haccepts x hx)
  · refine ⟨product_lt hremainder hdigit, toNat_nextRemainder hremainder hdigit, ?_⟩
    rw [toNat_nextRemainder hremainder hdigit, hsize]
    exact Nat.mod_lt _ hnumber

/-- The largest number in the largest base: a numeral with a leading zero that denotes twice the
    number, and one that denotes one more. -/
theorem multiplesOf_accepts_iff_dvd_largest :
    ∃ d, multiplesOf 4294967295 16 = .ok d ∧
      d.accepts ["0", "1", "F", "F", "F", "F", "F", "F", "F", "E"] = true ∧
      d.accepts ["1", "F", "F", "F", "F", "F", "F", "F", "F"] = false ∧
      d.accepts ["g"] = false ∧ (nextRemainder 4294967295 16 4294967294 15).toNat = 4294967294 := by
  obtain ⟨d, hd, hnumerals, hothers, -, -, hcells⟩ :=
    @multiplesOf_accepts_iff_dvd 4294967295 16 (by decide) (by decide) (by decide)
  have hdigits : ∀ w : List String, (∀ x ∈ w, x ∈ digits) → ∀ x ∈ w, x ∈ Alphabet.digits 16 :=
    fun _ h => h
  refine ⟨d, hd, (hnumerals _ (hdigits _ (by decide))).2 (by decide), ?_,
    hothers _ ⟨"g", List.mem_singleton_self _, show "g" ∉ digits by decide⟩, ?_⟩
  · refine Bool.eq_false_iff.2 fun h => ?_
    exact absurd ((hnumerals _ (hdigits _ (by decide))).1 h) (by decide)
  · exact (hcells 4294967294 (by decide) 15 (by decide)).2.1

end Dfa

end Acceptors
