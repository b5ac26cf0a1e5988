import Acceptors.Proofs.Pattern.Expanded

/-!
# From the text of a pattern to its tokens

Every character of a pattern is a token, but for a backslash, which takes the next character with
it. A text that does not end within such a pair spells its tokens wherever it stands, so that the
tokens of a pattern are those of its parts one after the other.

Results:
* `Pattern.Spells.append`: texts side by side spell their tokens side by side.
* `Pattern.Writes.reads`: a way to write an expression spells tokens that are read as it.
* `Pattern.Spells.tokenize`: a whole pattern is read as the tokens it spells.
-/

namespace Acceptors

namespace Pattern

/-- `Spells cs ts`: wherever the text `cs` stands, it is read as the tokens `ts`, and reading goes
    on after it. -/
def Spells (cs : List Char) (ts : List Token) : Prop :=
  ∀ offset, ∃ tokens : List (Placed Token), tokens.map (·.value) = ts ∧
    ∀ rest, tokensFrom offset (cs ++ rest) =
      (tokensFrom (offset + cs.length) rest).map (tokens ++ ·)

variable {cs ds : List Char} {ts us : List Token} {level : Level} {r : Regex}

theorem spells_nil : Spells [] [] := fun offset =>
  ⟨[], rfl, fun rest => by
    show tokensFrom offset rest = (tokensFrom offset rest).map id
    rw [Except.map_id]
    rfl⟩

/-- A character that is read as it stands is no backslash, by the cases in which tokens are
    read. -/
theorem ne_backslash_of_tokensFrom {c : Char} (hlast : c = '\\' → cs = [] → False)
    (hescaped : ∀ d rest, c = '\\' → cs = d :: rest → False) : c ≠ '\\' := by
  intro hc
  cases cs with
  | nil => exact hlast hc rfl
  | cons d rest => exact hescaped d rest hc rfl

theorem tokensFrom_plain {c : Char} (h : c ≠ '\\') (offset : Nat) (cs : List Char) :
    tokensFrom offset (c :: cs) =
      (tokensFrom (offset + 1) cs).map (⟨.ofChar c, offset⟩ :: ·) := by
  rw [tokensFrom.eq_4 _ _ _ (fun h' => absurd h' h) fun _ _ h' => absurd h' h]
  rfl

theorem spells_plain {c : Char} (h : c ≠ '\\') : Spells [c] [.ofChar c] := fun offset =>
  ⟨[⟨.ofChar c, offset⟩], rfl, fun rest => tokensFrom_plain h offset rest⟩

theorem spells_escaped (c : Char) : Spells ['\\', c] [.symbol c] := fun offset =>
  ⟨[⟨.symbol c, offset⟩], rfl, fun _ => rfl⟩

theorem Spells.append (h : Spells cs ts) (h' : Spells ds us) : Spells (cs ++ ds) (ts ++ us) := by
  intro offset
  obtain ⟨front, rfl, hfront⟩ := h offset
  obtain ⟨back, rfl, hback⟩ := h' (offset + cs.length)
  refine ⟨front ++ back, List.map_append, fun rest => ?_⟩
  rw [List.append_assoc, hfront, hback, List.length_append, ← Nat.add_assoc]
  cases tokensFrom (offset + cs.length + ds.length) rest with
  | error e => rfl
  | ok tokens => exact congrArg Except.ok (List.append_assoc _ _ _).symm

theorem spells_postfixChar (op : Postfix) : Spells [op.char] [op.token] := by
  cases op with
  | star => exact spells_plain (by decide)
  | plus => exact spells_plain (by decide)

theorem spells_postfixes (ops : List Postfix) :
    Spells (ops.map Postfix.char) (ops.map Postfix.token) := by
  induction ops with
  | nil => exact spells_nil
  | cons op ops ih => exact (spells_postfixChar op).append ih

/-- A text in parentheses. -/
theorem Spells.group (h : Spells cs ts) :
    Spells ('(' :: cs ++ [')']) (.leftParen :: ts ++ [.rightParen]) :=
  ((spells_plain (c := '(') (by decide)).append h).append (spells_plain (c := ')') (by decide))

/-- A way to write an expression is a text whose tokens are read as the expression. -/
theorem Writes.reads (h : Writes level r cs) : ∃ L ts, Spells cs ts ∧ Reads level r L ts := by
  induction h with
  | plain hc hplain =>
    have hspells := spells_plain hc
    rw [Token.ofChar_eq_symbol_iff.2 hplain] at hspells
    exact ⟨_, _, hspells, .symbol _⟩
  | escaped c => exact ⟨_, _, spells_escaped c, .symbol c⟩
  | group _ ih =>
    obtain ⟨L, ts, hcs, hts⟩ := ih
    exact ⟨L, _, hcs.group, hts.group⟩
  | ofAtom _ ih =>
    obtain ⟨L, ts, hcs, hts⟩ := ih
    exact ⟨L, ts ++ [], by rwa [List.append_nil], hts.run []⟩
  | star _ ih =>
    obtain ⟨L, ts, hcs, hts⟩ := ih
    obtain ⟨M, hts⟩ := hts.postfixOp .star
    exact ⟨M, _, hcs.append (spells_postfixChar .star), hts⟩
  | plus _ ih =>
    obtain ⟨L, ts, hcs, hts⟩ := ih
    obtain ⟨M, hts⟩ := hts.postfixOp .plus
    exact ⟨M, _, hcs.append (spells_postfixChar .plus), hts⟩
  | ofRepeated _ ih =>
    obtain ⟨L, ts, hcs, hts⟩ := ih
    exact ⟨L, ts, hcs, hts.ofRepeated⟩
  | append _ _ ih ih' =>
    obtain ⟨L, ts, hcs, hts⟩ := ih
    obtain ⟨M, us, hds, hus⟩ := ih'
    exact ⟨L * M, ts ++ us, hcs.append hds, hts.append hus⟩
  | ofSequence _ ih =>
    obtain ⟨L, ts, hcs, hts⟩ := ih
    exact ⟨L, ts, hcs, hts.ofSequence⟩
  | bar _ _ ih ih' =>
    obtain ⟨L, ts, hcs, hts⟩ := ih
    obtain ⟨M, us, hds, hus⟩ := ih'
    exact ⟨L + M, _, hcs.append ((spells_plain (c := '|') (by decide)).append hds), hts.bar hus⟩

/-- A whole pattern is read as the tokens it spells. -/
theorem Spells.tokenize {pattern : String} (h : Spells pattern.toList ts) :
    ∃ tokens, tokenize pattern = .ok tokens ∧ tokens.map (·.value) = ts := by
  obtain ⟨tokens, htokens, hread⟩ := h 0
  refine ⟨tokens, ?_, htokens⟩
  have hread := hread []
  rw [List.append_nil] at hread
  rw [Pattern.tokenize, hread]
  exact congrArg Except.ok (List.append_nil tokens)

end Pattern

end Acceptors
