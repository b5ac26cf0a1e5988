import Mathlib.Data.List.Chain
import Mathlib.Data.List.Forall2
import Acceptors.StateNames
import Acceptors.Proofs.Text.Trimmed

/-!
# Names made from names

The names of the states that an operation makes are made from names that are there: they are written
one after the other, numbers are put behind them, and a name that is taken gets rename suffixes.
What is made from names in this way can be written in a table, as no blank and no delimiter arises.
It may be impossible to write it in a grammar: the end of one name and the beginning of the next may
form an arrow. Numbers and suffixes form none.

Results:
* `Text.isName_join`, `Text.isGrammarName_join_iff`: names one after the other.
* `Text.isName_append_toString`, `Text.isGrammarName_append_toString`: names with numbers.
* `StateNames.Renamed.isName`, `StateNames.Renamed.isGrammarName_iff`: names with suffixes.
* `StateNames.leastRenamed_fresh`, `StateNames.givenInTurn_ofList`: names in a table are those that
  were wanted, with as few suffixes as possible.
-/

namespace Acceptors

namespace Text

variable {cs : List Char} {names : List String} {x y : String}

/-! ## Names one after the other -/

/-- Two characters, one after the other, that are not an arrow. -/
def Apart (c d : Char) : Prop := ¬ (c = '-' ∧ d = '>')

/-- An arrow arises where the second name is written after the first. -/
def FormArrow (x y : String) : Prop :=
  x.toList.getLast? = some '-' ∧ y.toList.head? = some '>'

/-- A text has no arrow in it if no two neighbours are an arrow. -/
theorem not_infix_arrow_iff : ¬ ['-', '>'] <:+: cs ↔ cs.IsChain Apart := by
  rw [List.isChain_iff_forall_rel_of_append_cons_cons]
  constructor
  · rintro hnot c d front back rfl ⟨rfl, rfl⟩
    exact hnot ⟨front, back, by simp⟩
  · rintro h ⟨front, back, rfl⟩
    exact h (List.append_assoc front _ back) ⟨rfl, rfl⟩

theorem isGrammarName_iff_isChain :
    isGrammarName x = true ↔ isName x = true ∧ x.toList.IsChain Apart := by
  rw [isGrammarName_iff, not_infix_arrow_iff]

theorem not_formArrow_iff :
    ¬ FormArrow x y ↔ ∀ c ∈ x.toList.getLast?, ∀ d ∈ y.toList.head?, Apart c d := by
  constructor
  · rintro h c hc d hd ⟨rfl, rfl⟩
    exact h ⟨hc, hd⟩
  · rintro h ⟨hx, hy⟩
    exact h _ hx _ hy ⟨rfl, rfl⟩

/-- Names one after the other are a name. -/
theorem isName_join (hne : names ≠ []) (h : ∀ x ∈ names, isName x = true) :
    isName (String.join names) = true := by
  rw [isName_iff, String.toList_join]
  constructor
  · obtain ⟨x, hx⟩ := List.exists_mem_of_ne_nil names hne
    intro hnil
    exact (isName_iff.1 (h x hx)).1 (List.flatMap_eq_nil_iff.1 hnil x hx)
  · intro c hc
    obtain ⟨x, hx, hc⟩ := List.mem_flatMap.1 hc
    exact (isName_iff.1 (h x hx)).2 c hc

/-- Names without arrows, one after the other, are a name without arrows if no arrow arises where
    two of them meet. -/
theorem isGrammarName_join_iff (hne : names ≠ []) (h : ∀ x ∈ names, isGrammarName x = true) :
    isGrammarName (String.join names) = true ↔ names.IsChain fun x y => ¬ FormArrow x y := by
  have hparts : ∀ x ∈ names, isName x = true ∧ x.toList.IsChain Apart := fun x hx =>
    isGrammarName_iff_isChain.1 (h x hx)
  have hnil : [] ∉ names.map String.toList := by
    intro hmem
    obtain ⟨x, hx, hempty⟩ := List.mem_map.1 hmem
    exact (isName_iff.1 (hparts x hx).1).1 hempty
  have hchains : ∀ cs ∈ names.map String.toList, cs.IsChain Apart :=
    List.forall_mem_map.2 fun x hx => (hparts x hx).2
  rw [isGrammarName_iff_isChain, and_iff_right (isName_join hne fun x hx => (hparts x hx).1),
    String.toList_join, List.flatMap_def, List.isChain_flatten hnil, and_iff_right hchains,
    List.isChain_map]
  simp only [not_formArrow_iff]

/-! ## Suffixes -/

theorem toList_append_suffix : (x ++ renameSuffix).toList = x.toList ++ ['\''] :=
  String.toList_append

theorem isName_append_suffix (h : isName x = true) : isName (x ++ renameSuffix) = true := by
  obtain ⟨hne, hall⟩ := isName_iff.1 h
  rw [isName_iff, toList_append_suffix]
  refine ⟨List.append_ne_nil_of_left_ne_nil hne _, List.forall_mem_append.2 ⟨hall, ?_⟩⟩
  exact List.forall_mem_singleton.2 (by decide)

/-- A suffix neither makes an arrow nor breaks one. -/
theorem isGrammarName_append_suffix_iff (h : isName x = true) :
    isGrammarName (x ++ renameSuffix) = true ↔ isGrammarName x = true := by
  have hquote : ∀ c ∈ x.toList.getLast?, ∀ d ∈ ['\''].head?, Apart c d := by
    rintro c - d hd ⟨-, rfl⟩
    cases hd
  rw [isGrammarName_iff_isChain, isGrammarName_iff_isChain, and_iff_right h,
    and_iff_right (isName_append_suffix h), toList_append_suffix, List.isChain_append]
  exact and_iff_left ⟨List.isChain_singleton _, hquote⟩

/-! ## Numbers -/

/-- A digit is no blank, no delimiter and no part of an arrow. -/
theorem plain_of_isDigit {c : Char} (h : c.isDigit = true) :
    (isBlank c = false ∧ isDelimiter c = false) ∧ c ≠ '-' ∧ c ≠ '>' := by
  have hbounds : 48 ≤ c.toNat ∧ c.toNat ≤ 57 := by
    simpa [Char.isDigit, UInt32.le_iff_toNat_le] using h
  have hne : ∀ d : Char, d.toNat < 48 ∨ 57 < d.toNat → c ≠ d := by
    rintro d hd rfl
    omega
  have hdelimiters : ∀ d ∈ [',', '\x7b', '\x7d', '[', ']', '(', ')'],
      d.toNat < 48 ∨ 57 < d.toNat := by simp
  refine ⟨⟨?_, ?_⟩, hne '-' (by decide), hne '>' (by decide)⟩
  · simp only [isBlank, Bool.or_eq_false_iff, Bool.and_eq_false_iff, decide_eq_false_iff_not,
      beq_eq_false_iff_ne]
    omega
  · exact Bool.eq_false_iff.2 fun hmem => hne c (hdelimiters c (List.contains_iff_mem.1 hmem)) rfl

theorem toList_toString (i : Nat) : (toString i).toList = Nat.toDigits 10 i := by
  simp [toString, Nat.repr]

theorem toList_toString_ne_nil (i : Nat) : (toString i).toList ≠ [] := by
  rw [toList_toString]
  exact Nat.toDigits_ne_nil

theorem isDigit_of_mem_toString {i : Nat} {c : Char} (h : c ∈ (toString i).toList) :
    c.isDigit = true := by
  rw [toList_toString] at h
  exact Nat.isDigit_of_mem_toDigits (by decide) (by decide) h

/-- A number is a name, alone or behind another. -/
theorem isName_append_toString (h : x = "" ∨ isName x = true) (i : Nat) :
    isName (x ++ toString i) = true := by
  have hx : ∀ c ∈ x.toList, isBlank c = false ∧ isDelimiter c = false := by
    rcases h with rfl | h
    · exact nofun
    · exact (isName_iff.1 h).2
  rw [isName_iff, String.toList_append]
  exact ⟨List.append_ne_nil_of_right_ne_nil _ (toList_toString_ne_nil i),
    List.forall_mem_append.2 ⟨hx, fun c hc => (plain_of_isDigit (isDigit_of_mem_toString hc)).1⟩⟩

/-- A number is a name without arrows, alone or behind another. -/
theorem isGrammarName_append_toString (h : x = "" ∨ isGrammarName x = true) (i : Nat) :
    isGrammarName (x ++ toString i) = true := by
  have hname : isName (x ++ toString i) = true :=
    isName_append_toString (h.imp_right isName_of_isGrammarName) i
  have hx : x.toList.IsChain Apart := by
    rcases h with rfl | h
    · exact .nil
    · exact (isGrammarName_iff_isChain.1 h).2
  have hapart : ∀ c, ∀ d ∈ (toString i).toList, Apart c d := by
    rintro c d hd ⟨-, rfl⟩
    exact (plain_of_isDigit (isDigit_of_mem_toString hd)).2.2 rfl
  rw [isGrammarName_iff_isChain, String.toList_append]
  refine ⟨hname, hx.append ?_ ?_⟩
  · exact (List.pairwise_of_forall_mem_list fun c _ d hd => hapart c d hd).isChain
  · exact fun c _ d hd => hapart c d (List.mem_of_mem_head? hd)

/-- No arrow arises behind a number. -/
theorem not_formArrow_append_toString (i : Nat) (y : String) :
    ¬ FormArrow (x ++ toString i) y := by
  rintro ⟨hlast, -⟩
  rw [String.toList_append, List.getLast?_append_of_ne_nil _ (toList_toString_ne_nil i)] at hlast
  exact (plain_of_isDigit (isDigit_of_mem_toString (List.mem_of_getLast? hlast))).2.1 rfl

end Text

namespace StateNames

variable {names : List String} {x y z : String}

/-- A name with any number of rename suffixes behind it. -/
inductive Renamed (x : String) : String → Prop
  | refl : Renamed x x
  | suffix {y : String} : Renamed x y → Renamed x (y ++ renameSuffix)

theorem Renamed.isName (h : Renamed x y) (hx : Text.isName x = true) : Text.isName y = true := by
  induction h with
  | refl => exact hx
  | suffix _ ih => exact Text.isName_append_suffix ih

theorem Renamed.isGrammarName_iff (h : Renamed x y) (hx : Text.isName x = true) :
    Text.isGrammarName y = true ↔ Text.isGrammarName x = true := by
  induction h with
  | refl => exact Iff.rfl
  | suffix h ih => exact (Text.isGrammarName_append_suffix_iff (h.isName hx)).trans ih

theorem Renamed.isGrammarName (h : Renamed x y) (hx : Text.isGrammarName x = true) :
    Text.isGrammarName y = true :=
  (h.isGrammarName_iff (Text.isName_of_isGrammarName hx)).2 hx

/-! ## As few suffixes as possible -/

/-- A name with so many rename suffixes behind it. -/
def suffixed (x : String) : Nat → String
  | 0 => x
  | k + 1 => suffixed x k ++ renameSuffix

/-- The name `y` is `x` with as few rename suffixes as make it differ from the names that are
    taken. -/
def LeastRenamed (taken : List String) (x y : String) : Prop :=
  ∃ k, y = suffixed x k ∧ y ∉ taken ∧ ∀ j < k, suffixed x j ∈ taken

/-- The names that are given if names are wanted in turn: each with as few suffixes as make it
    differ from those that are taken by then. -/
inductive GivenInTurn : (taken wanted given : List String) → Prop
  | nil {taken : List String} : GivenInTurn taken [] []
  | cons {taken wanted given : List String} {x y : String} : LeastRenamed taken x y →
      GivenInTurn (taken ++ [y]) wanted given → GivenInTurn taken (x :: wanted) (y :: given)

variable {taken wanted given given' : List String}

theorem renamed_suffixed (x : String) (k : Nat) : Renamed x (suffixed x k) := by
  induction k with
  | zero => exact .refl
  | succ k ih => exact ih.suffix

theorem LeastRenamed.renamed (h : LeastRenamed taken x y) : Renamed x y := by
  obtain ⟨k, rfl, -⟩ := h
  exact renamed_suffixed x k

/-- There is one smallest number of suffixes. -/
theorem LeastRenamed.unique (hy : LeastRenamed taken x y) (hz : LeastRenamed taken x z) :
    y = z := by
  obtain ⟨k, rfl, hk, hbelow⟩ := hy
  obtain ⟨l, rfl, hl, hbelow'⟩ := hz
  rcases Nat.lt_trichotomy k l with hlt | rfl | hlt
  · exact absurd (hbelow' k hlt) hk
  · rfl
  · exact absurd (hbelow l hlt) hl

/-- What is wanted and what is taken determine what is given. -/
theorem GivenInTurn.unique (h : GivenInTurn taken wanted given)
    (h' : GivenInTurn taken wanted given') : given = given' := by
  induction h generalizing given' with
  | nil =>
    cases h'
    rfl
  | cons hx _ ih =>
    cases h' with
    | cons hx' hrest =>
      obtain rfl := hx.unique hx'
      rw [ih hrest]

theorem GivenInTurn.forall₂_renamed (h : GivenInTurn taken wanted given) :
    List.Forall₂ Renamed wanted given := by
  induction h with
  | nil => exact .nil
  | cons hx _ ih => exact .cons hx.renamed ih

/-! ## Names in a table -/

variable {t : StateNames}

theorem suffixed_append (x : String) (k : Nat) :
    suffixed (x ++ renameSuffix) k = suffixed x (k + 1) := by
  induction k with
  | zero => rfl
  | succ k ih => exact congrArg (· ++ renameSuffix) ih

/-- The search passes names that are taken. -/
theorem exists_firstFree_eq (t : StateNames) (tries : Nat) (x : String) :
    ∃ k, t.firstFree tries x = suffixed x k ∧ ∀ j < k, suffixed x j ∈ t.toList := by
  induction tries generalizing x with
  | zero => exact ⟨0, rfl, nofun⟩
  | succ tries ih =>
    rw [firstFree]
    split
    · next htaken =>
      obtain ⟨k, hk, hbelow⟩ := ih (x ++ renameSuffix)
      refine ⟨k + 1, hk.trans (suffixed_append x k), fun j hj => ?_⟩
      cases j with
      | zero => exact contains_iff_mem.1 htaken
      | succ j =>
        rw [← suffixed_append]
        exact hbelow j (Nat.lt_of_succ_lt_succ hj)
    · exact ⟨0, rfl, nofun⟩

theorem leastRenamed_fresh (t : StateNames) (x : String) :
    LeastRenamed t.toList x (t.fresh x) := by
  obtain ⟨k, hk, hbelow⟩ := t.exists_firstFree_eq t.size x
  exact ⟨k, hk, t.fresh_not_mem x, hbelow⟩

theorem renamed_fresh (t : StateNames) (x : String) : Renamed x (t.fresh x) :=
  (t.leastRenamed_fresh x).renamed

/-- The names that are added to a table are given in turn. -/
theorem exists_toList_insertAll (t : StateNames) (wanted : List String) :
    ∃ given, GivenInTurn t.toList wanted given ∧
      (t.insertAll wanted).toList = t.toList ++ given := by
  induction wanted generalizing t with
  | nil => exact ⟨[], .nil, (List.append_nil _).symm⟩
  | cons x wanted ih =>
    obtain ⟨given, hgiven, hlist⟩ := ih (t.insert x)
    rw [toList_insert] at hgiven hlist
    refine ⟨t.fresh x :: given, .cons (t.leastRenamed_fresh x) hgiven, ?_⟩
    rw [insertAll, List.foldl_cons, ← insertAll, hlist, List.append_assoc]
    rfl

theorem givenInTurn_ofList (wanted : List String) :
    GivenInTurn [] wanted (ofList wanted).toList := by
  obtain ⟨given, hgiven, hlist⟩ := exists_toList_insertAll empty wanted
  have hempty : (ofList wanted).toList = given := hlist
  rwa [hempty]

end StateNames

end Acceptors
