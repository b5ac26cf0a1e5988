import Mathlib.Algebra.Ring.Parity
import Mathlib.Data.List.DropRight
import Acceptors.Proofs.Pattern.Parentheses

/-!
# Places in the text of a pattern

A character is escaped if an odd number of backslashes stands right before it. So a text is read to
its end unless it ends in an odd number of backslashes, and every token stands at a place that an
even number of backslashes leads up to.

Two parentheses of a text belong together if neither of them is escaped and every group that begins
or ends between them does both there. What is left alone when the tokens are read belongs to no
other parenthesis of the text: the tokens between two that belong together leave nothing alone, so
that the second takes the first off the stack.

Results:
* `Pattern.exists_tokensFrom_iff`, `Pattern.tokenize_eq_error_iff`: which texts have tokens.
* `Pattern.exists_text_of_mem`: where a token stands.
* `Pattern.Partners`, `Pattern.LeftAlone`: parentheses that belong together, and one that is left
  alone.
* `Pattern.leftAlone_of_mem_unpaired`: what is left alone among the tokens is so in the text.
-/

namespace Acceptors

namespace Pattern

variable {cs : List Char} {tokens : List (Placed Token)} {t : Placed Token} {offset q l r : Nat}

/-! ## Backslashes -/

/-- The number of backslashes in which a text ends. -/
def trailingBackslashes (cs : List Char) : Nat := (cs.rtakeWhile (· = '\\')).length

theorem trailingBackslashes_le (cs : List Char) : trailingBackslashes cs ≤ cs.length :=
  (List.rtakeWhile_suffix _ _).length_le

theorem trailingBackslashes_cons (c : Char) (cs : List Char) :
    trailingBackslashes (c :: cs) = trailingBackslashes cs +
      if trailingBackslashes cs = cs.length ∧ c = '\\' then 1 else 0 := by
  have hlength : ∀ cs : List Char,
      trailingBackslashes cs = (cs.reverse.takeWhile (· = '\\')).length := fun cs => by
    rw [trailingBackslashes, List.rtakeWhile, List.length_reverse]
  rw [hlength, hlength cs, List.reverse_cons, List.takeWhile_append, List.length_reverse]
  split
  · next h =>
    rw [List.length_append, List.length_reverse, h]
    by_cases hc : c = '\\' <;> simp [hc]
  · next h => rw [if_neg fun h' => h h'.1, Nat.add_zero]

theorem trailingBackslashes_plain {c : Char} (hc : c ≠ '\\') (cs : List Char) :
    trailingBackslashes (c :: cs) = trailingBackslashes cs := by
  rw [trailingBackslashes_cons, if_neg fun h => hc h.2, Nat.add_zero]

/-- A backslash and what it escapes do not count. -/
theorem even_trailingBackslashes_escaped (c : Char) (cs : List Char) :
    Even (trailingBackslashes ('\\' :: c :: cs)) ↔ Even (trailingBackslashes cs) := by
  have hle := trailingBackslashes_le cs
  rw [trailingBackslashes_cons, trailingBackslashes_cons, List.length_cons]
  by_cases h : trailingBackslashes cs = cs.length ∧ c = '\\'
  · rw [if_pos h, h.1]
    simp [Nat.even_add_one]
  · rw [if_neg h, Nat.add_zero, if_neg fun h' => ?_, Nat.add_zero]
    have := h'.1
    omega

/-! ## Places of tokens -/

/-- A text has tokens unless it ends in an odd number of backslashes. -/
theorem exists_tokensFrom_iff :
    (∃ tokens, tokensFrom offset cs = .ok tokens) ↔ Even (trailingBackslashes cs) := by
  fun_induction tokensFrom offset cs with
  | case1 => exact iff_of_true ⟨[], rfl⟩ Even.zero
  | case2 offset =>
    refine iff_of_false ?_ (by decide)
    rintro ⟨tokens, h⟩
    cases h
  | case3 offset c rest ih =>
    rw [even_trailingBackslashes_escaped, ← ih]
    simp only [Except.bind_eq_ok_iff]
    constructor
    · rintro ⟨_, tokens, h, -⟩
      exact ⟨tokens, h⟩
    · rintro ⟨tokens, h⟩
      exact ⟨_, tokens, h, rfl⟩
  | case4 offset c rest hlast hescaped ih =>
    rw [trailingBackslashes_plain (ne_backslash_of_tokensFrom hlast hescaped), ← ih]
    simp only [Except.bind_eq_ok_iff]
    constructor
    · rintro ⟨_, tokens, h, -⟩
      exact ⟨tokens, h⟩
    · rintro ⟨tokens, h⟩
      exact ⟨_, tokens, h, rfl⟩

/-- A text without tokens is refused for its last character. -/
theorem tokensFrom_eq_error {e : Error} (h : tokensFrom offset cs = .error e) :
    ∃ q, e = .danglingEscape q ∧ q + 1 = offset + cs.length := by
  fun_induction tokensFrom offset cs with
  | case1 => cases h
  | case2 offset =>
    cases h
    exact ⟨offset, rfl, rfl⟩
  | case3 offset c rest ih =>
    rcases Except.bind_eq_error_iff.1 h with h | ⟨tokens, -, h⟩
    · obtain ⟨q, he, hq⟩ := ih h
      refine ⟨q, he, ?_⟩
      rw [hq, List.length_cons, List.length_cons]
      omega
    · cases h
  | case4 offset c rest hlast hescaped ih =>
    rcases Except.bind_eq_error_iff.1 h with h | ⟨tokens, -, h⟩
    · obtain ⟨q, he, hq⟩ := ih h
      refine ⟨q, he, ?_⟩
      rw [hq, List.length_cons]
      omega
    · cases h

/-- A pattern without tokens ends in a backslash that escapes nothing. -/
theorem tokenize_eq_error_iff {pattern : String} {e : Error} :
    tokenize pattern = .error e ↔ ∃ q, e = .danglingEscape q ∧
      Odd (trailingBackslashes pattern.toList) ∧ q + 1 = pattern.length := by
  have hlast : ∀ {e}, tokenize pattern = .error e →
      ∃ q, e = .danglingEscape q ∧ q + 1 = pattern.length := by
    intro e h
    obtain ⟨q, he, hq⟩ := tokensFrom_eq_error h
    rw [Nat.zero_add, String.length_toList] at hq
    exact ⟨q, he, hq⟩
  have hodd : Odd (trailingBackslashes pattern.toList) ↔
      ¬ ∃ tokens, tokenize pattern = .ok tokens := by
    rw [← Nat.not_even_iff_odd, ← exists_tokensFrom_iff]
    rfl
  rw [hodd]
  constructor
  · intro h
    obtain ⟨q, he, hq⟩ := hlast h
    refine ⟨q, he, ?_, hq⟩
    rintro ⟨tokens, htokens⟩
    rw [htokens] at h
    cases h
  · rintro ⟨q, rfl, hnone, hq⟩
    cases htokens : tokenize pattern with
    | ok tokens => exact absurd ⟨tokens, htokens⟩ hnone
    | error e =>
      obtain ⟨q', rfl, hq'⟩ := hlast htokens
      obtain rfl : q' = q := by omega
      rfl

/-- Where a token stands: the place is not escaped, and unless it is an escaped symbol the token is
    the one of the character there. -/
theorem exists_text_of_mem (h : tokensFrom offset cs = .ok tokens) (ht : t ∈ tokens) :
    ∃ front c back, cs = front ++ c :: back ∧ t.offset = offset + front.length ∧
      Even (trailingBackslashes front) ∧ (t.value = .ofChar c ∨ ∃ d, t.value = .symbol d) := by
  fun_induction tokensFrom offset cs generalizing tokens with
  | case1 =>
    cases h
    cases ht
  | case2 => cases h
  | case3 offset c rest ih =>
    obtain ⟨more, hmore, h⟩ := Except.bind_eq_ok_iff.1 h
    cases h
    rcases List.mem_cons.1 ht with rfl | ht
    · exact ⟨[], '\\', c :: rest, rfl, rfl, Even.zero, .inr ⟨c, rfl⟩⟩
    · obtain ⟨front, d, back, rfl, hoffset, heven, hvalue⟩ := ih hmore ht
      refine ⟨'\\' :: c :: front, d, back, rfl, ?_, ?_, hvalue⟩
      · rw [hoffset, List.length_cons, List.length_cons]
        omega
      · rwa [even_trailingBackslashes_escaped]
  | case4 offset c rest hlast hescaped ih =>
    have hc := ne_backslash_of_tokensFrom hlast hescaped
    obtain ⟨more, hmore, h⟩ := Except.bind_eq_ok_iff.1 h
    cases h
    rcases List.mem_cons.1 ht with rfl | ht
    · exact ⟨[], c, rest, rfl, rfl, Even.zero, .inl rfl⟩
    · obtain ⟨front, d, back, rfl, hoffset, heven, hvalue⟩ := ih hmore ht
      refine ⟨c :: front, d, back, rfl, ?_, ?_, hvalue⟩
      · rw [hoffset, List.length_cons]
        omega
      · rwa [trailingBackslashes_plain hc]

theorem offset_of_mem (h : tokensFrom offset cs = .ok tokens) (ht : t ∈ tokens) :
    offset ≤ t.offset ∧ t.offset < offset + cs.length := by
  obtain ⟨front, c, back, rfl, hoffset, -⟩ := exists_text_of_mem h ht
  rw [hoffset, List.length_append, List.length_cons]
  omega

/-! ## Parentheses that belong together -/

/-- Every group that begins or ends in the text does both there. -/
inductive Balanced : List Char → Prop
  | nil : Balanced []
  | plain {c : Char} {cs : List Char} : c ∉ ['\\', '(', ')'] → Balanced cs → Balanced (c :: cs)
  | escaped (c : Char) {cs : List Char} : Balanced cs → Balanced ('\\' :: c :: cs)
  | group {cs ds : List Char} : Balanced cs → Balanced ds → Balanced ('(' :: (cs ++ ')' :: ds))

/-- The parentheses at the places `l` and `r` belong together: neither is escaped, and the groups
    between them are closed. -/
def Partners (text : List Char) (l r : Nat) : Prop :=
  ∃ front inside back, text = front ++ '(' :: (inside ++ ')' :: back) ∧ l = front.length ∧
    r = l + 1 + inside.length ∧ Even (trailingBackslashes front) ∧ Balanced inside

/-- At the place `q` stands a parenthesis that is not escaped and belongs to no other. -/
structure LeftAlone (text : List Char) (q : Nat) : Prop where
  paren : text[q]? = some '(' ∨ text[q]? = some ')'
  unescaped : Even (trailingBackslashes (text.take q))
  alone : ∀ l r, Partners text l r → q ≠ l ∧ q ≠ r

theorem role_ofChar_eq_opening_iff {c : Char} : (Token.ofChar c).role = .opening ↔ c = '(' := by
  rw [Token.ofChar]
  split_ifs <;> simp_all [Token.role]

theorem role_ofChar_eq_closing_iff {c : Char} : (Token.ofChar c).role = .closing ↔ c = ')' := by
  rw [Token.ofChar]
  split_ifs <;> simp_all [Token.role]

/-- The tokens of a balanced text leave no parenthesis alone. -/
theorem Balanced.exists_spells (h : Balanced cs) :
    ∃ ts, Spells cs ts ∧ ∀ tokens : List (Placed Token), tokens.map (·.value) = ts →
      ∀ s, readParens Token.role s tokens = s := by
  induction h with
  | nil =>
    refine ⟨[], spells_nil, fun tokens htokens s => ?_⟩
    obtain rfl := List.map_eq_nil_iff.1 htokens
    rfl
  | @plain c cs hc _ ih =>
    obtain ⟨ts, hspells, hread⟩ := ih
    simp only [List.mem_cons, List.not_mem_nil, or_false, not_or] at hc
    refine ⟨.ofChar c :: ts, (spells_plain hc.1).append hspells, fun tokens htokens s => ?_⟩
    obtain ⟨t, rest, rfl, ht, hrest⟩ := List.map_eq_cons_iff.1 htokens
    have hopening : t.value.role ≠ .opening := fun h =>
      hc.2.1 (role_ofChar_eq_opening_iff.1 (ht ▸ h))
    have hclosing : t.value.role ≠ .closing := fun h =>
      hc.2.2 (role_ofChar_eq_closing_iff.1 (ht ▸ h))
    rw [readParens_cons, Parens.step_of_ne hopening hclosing, hread rest hrest]
  | @escaped c cs _ ih =>
    obtain ⟨ts, hspells, hread⟩ := ih
    refine ⟨.symbol c :: ts, (spells_escaped c).append hspells, fun tokens htokens s => ?_⟩
    obtain ⟨t, rest, rfl, ht, hrest⟩ := List.map_eq_cons_iff.1 htokens
    rw [readParens_cons, ht, hread rest hrest]
    rfl
  | @group cs ds _ _ ih ih' =>
    obtain ⟨ts, hspells, hread⟩ := ih
    obtain ⟨us, hspells', hread'⟩ := ih'
    refine ⟨.leftParen :: (ts ++ .rightParen :: us), ?_, fun tokens htokens s => ?_⟩
    · exact (spells_plain (c := '(') (by decide)).append
        (hspells.append ((spells_plain (c := ')') (by decide)).append hspells'))
    · obtain ⟨t, rest, rfl, ht, hrest⟩ := List.map_eq_cons_iff.1 htokens
      obtain ⟨inside, more, rfl, hinside, hmore⟩ := List.map_eq_append_iff.1 hrest
      obtain ⟨u, back, rfl, hu, hback⟩ := List.map_eq_cons_iff.1 hmore
      rw [readParens_cons, readParens_append, hread inside hinside, readParens_cons,
        hread' back hback, ht, hu]
      rfl

/-- Wherever a text stands that has tokens, it is read as these. -/
theorem spells_of_tokensFrom (h : tokensFrom offset cs = .ok tokens) :
    Spells cs (tokens.map (·.value)) := by
  fun_induction tokensFrom offset cs generalizing tokens with
  | case1 =>
    cases h
    exact spells_nil
  | case2 => cases h
  | case3 offset c rest ih =>
    obtain ⟨more, hmore, h⟩ := Except.bind_eq_ok_iff.1 h
    cases h
    exact (spells_escaped c).append (ih hmore)
  | case4 offset c rest hlast hescaped ih =>
    obtain ⟨more, hmore, h⟩ := Except.bind_eq_ok_iff.1 h
    cases h
    exact (spells_plain (ne_backslash_of_tokensFrom hlast hescaped)).append (ih hmore)

theorem Partners.lt {text : List Char} (h : Partners text l r) : l < r := by
  obtain ⟨front, inside, back, -, -, rfl, -⟩ := h
  omega

/-- Parentheses that belong together are tokens between which nothing is left alone. -/
theorem Partners.exists_tokens {text : List Char} (h : Partners text l r)
    (htokens : tokensFrom 0 text = .ok tokens) :
    ∃ front inside back, tokens = front ++ ⟨.leftParen, l⟩ :: (inside ++ ⟨.rightParen, r⟩ :: back) ∧
      (∀ t ∈ front, t.offset < l) ∧ (∀ s, readParens Token.role s inside = s) ∧
      (∀ t ∈ back, r < t.offset) := by
  obtain ⟨front, inside, back, rfl, rfl, rfl, heven, hbalanced⟩ := h
  obtain ⟨ts, htokens'⟩ : ∃ ts, tokensFrom 0 front = .ok ts := exists_tokensFrom_iff.2 heven
  obtain ⟨before, -, hbefore⟩ := spells_of_tokensFrom htokens' 0
  obtain ⟨us, hspells, hread⟩ := hbalanced.exists_spells
  obtain ⟨between, hbetween, hinside⟩ := hspells (front.length + 1)
  rw [hbefore, Nat.zero_add] at htokens
  obtain ⟨fromLeft, hleft, rfl⟩ := Except.map_eq_ok_iff.1 htokens
  rw [tokensFrom_plain (by decide), hinside] at hleft
  obtain ⟨_, hmore, rfl⟩ := Except.map_eq_ok_iff.1 hleft
  obtain ⟨fromRight, hright, rfl⟩ := Except.map_eq_ok_iff.1 hmore
  rw [tokensFrom_plain (by decide)] at hright
  obtain ⟨after, hafter, rfl⟩ := Except.map_eq_ok_iff.1 hright
  refine ⟨before, between, after, rfl, fun t ht => ?_, hread between hbetween, fun t ht => ?_⟩
  · have hfront := hbefore []
    rw [List.append_nil] at hfront
    obtain ⟨hle, hlt⟩ := offset_of_mem hfront (List.mem_append_left _ ht)
    rwa [Nat.zero_add] at hlt
  · exact Nat.lt_of_succ_le (offset_of_mem hafter ht).1

/-- A parenthesis that is left alone when the tokens are read is left alone in the text. -/
theorem leftAlone_of_mem_unpaired (htokens : tokensFrom 0 cs = .ok tokens)
    (h : q ∈ unpaired Token.role tokens) : LeftAlone cs q := by
  have hread := exists_of_mem_readParens (List.mem_append.1 h)
  obtain ⟨t, ht, rfl, hrole⟩ := hread.resolve_left (by simp)
  obtain ⟨front, c, back, rfl, hoffset, heven, hvalue⟩ := exists_text_of_mem htokens ht
  rw [Nat.zero_add] at hoffset
  have hparen : c = '(' ∨ c = ')' := by
    rcases hvalue with hvalue | ⟨d, hvalue⟩
    · rw [hvalue] at hrole
      exact hrole.imp role_ofChar_eq_opening_iff.1 role_ofChar_eq_closing_iff.1
    · rw [hvalue] at hrole
      rcases hrole with hrole | hrole <;> cases hrole
  refine ⟨?_, ?_, fun l r hlr => ?_⟩
  · rw [hoffset, List.getElem?_append_right (Nat.le_refl _), Nat.sub_self]
    exact hparen.imp (congrArg some) (congrArg some)
  · rwa [hoffset, List.take_left]
  · obtain ⟨before, between, after, rfl, hbefore, hbetween, hafter⟩ := hlr.exists_tokens htokens
    have hlt := hlr.lt
    have hskip : readParens Token.role {}
        (before ++ ⟨.leftParen, l⟩ :: (between ++ ⟨.rightParen, r⟩ :: after)) =
        readParens Token.role (readParens Token.role {} before) after := by
      rw [readParens_append, readParens_cons, readParens_append, hbetween, readParens_cons]
      rfl
    rw [unpaired, hskip, List.mem_append] at h
    rcases exists_of_mem_readParens h with h | ⟨x, hx, hxt, -⟩
    · obtain ⟨x, hx, hxt, -⟩ := (exists_of_mem_readParens h).resolve_left (by simp)
      have := hbefore x hx
      omega
    · have := hafter x hx
      omega

end Pattern

end Acceptors
