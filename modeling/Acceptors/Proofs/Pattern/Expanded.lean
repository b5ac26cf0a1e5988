import Acceptors.Proofs.Pattern.Postfix
import Acceptors.Proofs.Pattern.Printed

/-!
# Patterns with pluses written out

A plus is written out as a copy of its operand and the star of another copy. The operand is what
stands right before the plus, with the stars after it; what an earlier plus has written is one more
factor to the left and no part of the operand. So a run of stars and pluses comes to no more than
its first operator: after a star the operand is a star already, and after a plus the last factor is
a star, whose further stars and pluses change nothing.

Results:
* `Pattern.Reads`: the expressions that token lists write, and the languages they are compiled to.
* `Pattern.Reads.language_eq`: when the two agree.
* `Pattern.Prints.operandBefore`: the operand of a plus is the last factor.
* `Pattern.Prints.expands_applyRun`: what a run of operators is written out as.
* `Pattern.Reads.expandPlus`: after the pluses are written out, a token list prints an expression of
  its language.
-/

namespace Acceptors

namespace Pattern

open scoped Computability

/-- `Reads level r L ts`: on the given level, the tokens `ts` are a way to write the expression `r`,
    and what is compiled from them is the language `L`. -/
inductive Reads : Level → Regex → Language String → List Token → Prop
  | symbol (c : Char) : Reads .atom (.symbol c) {[String.singleton c]} [.symbol c]
  | group {r : Regex} {L : Language String} {ts : List Token} :
      Reads .alternatives r L ts → Reads .atom r L (.leftParen :: ts ++ [.rightParen])
  | run {r : Regex} {L : Language String} {ts : List Token} (ops : List Postfix) :
      Reads .atom r L ts →
        Reads .repeated (ops.foldl (fun s op => op.regex s) r) (Postfix.applyRun ops L)
          (ts ++ ops.map Postfix.token)
  | ofRepeated {r : Regex} {L : Language String} {ts : List Token} :
      Reads .repeated r L ts → Reads .sequence r L ts
  | append {r s : Regex} {L M : Language String} {ts us : List Token} :
      Reads .sequence r L ts → Reads .repeated s M us →
        Reads .sequence (.concat r s) (L * M) (ts ++ us)
  | ofSequence {r : Regex} {L : Language String} {ts : List Token} :
      Reads .sequence r L ts → Reads .alternatives r L ts
  | bar {r s : Regex} {L M : Language String} {ts us : List Token} :
      Reads .alternatives r L ts → Reads .sequence s M us →
        Reads .alternatives (.union r s) (L + M) (ts ++ .bar :: us)

variable {level : Level} {r f : Regex} {L : Language String} {ts : List Token}
variable {ps qs : List (Placed Piece)}

theorem Reads.ne_nil (h : Reads level r L ts) : ts ≠ [] := by
  induction h with
  | symbol | group | bar => simp
  | run ops _ ih => simp [ih]
  | ofRepeated _ ih | ofSequence _ ih => exact ih
  | append _ _ ih _ => simp [ih]

theorem Reads.isPostfix_head? (h : Reads level r L ts) : ∀ t ∈ ts.head?, t.isPostfix = false := by
  induction h with
  | symbol => simp [Token.isPostfix]
  | group => simp [Token.isPostfix]
  | run ops h ih => rwa [List.head?_append_of_ne_nil _ h.ne_nil]
  | ofRepeated _ ih | ofSequence _ ih => exact ih
  | append h _ ih _ => rwa [List.head?_append_of_ne_nil _ h.ne_nil]
  | bar h _ ih _ => rwa [List.head?_append_of_ne_nil _ h.ne_nil]

theorem Reads.isPostfix_getLast? (h : Reads .atom r L ts) :
    ∀ t ∈ ts.getLast?, t.isPostfix = false := by
  cases h with
  | symbol => simp [Token.isPostfix]
  | group =>
    rw [List.getLast?_concat]
    rintro t ⟨⟩
    rfl

/-- A star or a plus can follow wherever one can be. -/
theorem Reads.postfixOp (h : Reads .repeated r L ts) (op : Postfix) :
    ∃ M, Reads .repeated (op.regex r) M (ts ++ [op.token]) := by
  cases h with
  | @run r L ts ops h =>
    refine ⟨Postfix.applyRun (ops ++ [op]) L, ?_⟩
    have h := h.run (ops ++ [op])
    rwa [List.foldl_append, List.map_append, ← List.append_assoc] at h

/-- What is compiled is what is meant, unless a run that begins with a plus contains a star. -/
theorem Reads.language_eq (h : Reads level r L ts) (hruns : PlusRunsPure ts) : r.language = L := by
  induction h with
  | symbol => exact Regex.language_symbol
  | @group r L ts h ih =>
    have hruns : PlusRunsPure ([.leftParen] ++ ts ++ [.rightParen]) := hruns
    rw [plusRunsPure_append (.inr (by simp [Token.isPostfix])),
      plusRunsPure_append (.inr h.isPostfix_head?)] at hruns
    exact ih hruns.1.2
  | @run r L ts ops h ih =>
    rw [plusRunsPure_append (.inl h.isPostfix_getLast?), plusRunsPure_map_token] at hruns
    rw [Postfix.language_foldl_regex, ih hruns.1]
    exact (Postfix.applyRun_eq_foldl_iff.2 fun hmixed => absurd hmixed hruns.2).symm
  | ofRepeated _ ih | ofSequence _ ih => exact ih hruns
  | append _ h' ih ih' =>
    rw [plusRunsPure_append (.inr h'.isPostfix_head?)] at hruns
    rw [Regex.language_concat, ih hruns.1, ih' hruns.2]
  | @bar r s L M ts us _ h' ih ih' =>
    rw [plusRunsPure_append (.inr (by simp [Token.isPostfix]))] at hruns
    have hright : PlusRunsPure ([.bar] ++ us) := hruns.2
    rw [plusRunsPure_append (.inr h'.isPostfix_head?)] at hright
    rw [Regex.language_union, ih hruns.1, ih' hright.2]

/-! ## The operand of a plus -/

theorem reverse_group (left right : Nat) (ps : List (Placed Piece)) :
    (⟨.leftParen, left⟩ :: ps ++ [⟨.rightParen, right⟩] : List (Placed Piece)).reverse =
      ⟨.rightParen, right⟩ :: (ps.reverse ++ [⟨.leftParen, left⟩]) := by
  simp

/-- Within a printed part every group is closed, so that reading backwards for the begin of an
    outer group passes over the part. -/
theorem Prints.groupBefore (h : Prints level r ps) (depth : Nat) (before : List (Placed Piece)) :
    groupBefore depth (ps.reverse ++ before) =
      (groupBefore depth before).map (ps.reverse ++ ·) := by
  induction h generalizing depth before with
  | symbol c offset => rfl
  | @group r ps left right h ih =>
    rw [reverse_group]
    show (Pattern.groupBefore (depth + 1) (ps.reverse ++ [⟨.leftParen, left⟩] ++ before)).map
      (_ :: ·) = _
    rw [List.append_assoc, ih]
    show ((((Pattern.groupBefore depth before).map (_ :: ·))).map (_ ++ ·)).map (_ :: ·) = _
    cases Pattern.groupBefore depth before with
    | none => rfl
    | some g => simp
  | ofAtom _ ih | ofRepeated _ ih | ofSequence _ ih => exact ih depth before
  | @star r ps offset h ih =>
    rw [List.reverse_append]
    show (Pattern.groupBefore depth (ps.reverse ++ before)).map (_ :: ·) = _
    rw [ih]
    cases Pattern.groupBefore depth before <;> rfl
  | append _ _ ih ih' =>
    rw [List.reverse_append, List.append_assoc, ih', ih]
    cases Pattern.groupBefore depth before with
    | none => rfl
    | some g => simp
  | @bar r s ps qs offset hr hs ih ih' =>
    rw [List.reverse_append, List.reverse_cons, List.append_assoc, List.append_assoc, ih']
    show ((Pattern.groupBefore depth (ps.reverse ++ before)).map (_ :: ·)).map (_ ++ ·) = _
    rw [ih]
    cases Pattern.groupBefore depth before with
    | none => rfl
    | some g => simp

theorem operandBefore_star (offset : Nat) {p : Placed Piece} (hp : p.value = .star)
    (before : List (Placed Piece)) :
    operandBefore offset (p :: before) = (operandBefore offset before).map (p :: ·) := by
  let isStar : Placed Piece → Bool := fun p => p.value = .star
  have hstar : isStar p = true := decide_eq_true hp
  have htake : (p :: before).takeWhile isStar = p :: before.takeWhile isStar :=
    List.takeWhile_cons_of_pos hstar
  have hdrop : (p :: before).dropWhile isStar = before.dropWhile isStar :=
    List.dropWhile_cons_of_pos hstar
  rw [operandBefore, operandBefore, List.span_eq_takeWhile_dropWhile,
    List.span_eq_takeWhile_dropWhile, htake, hdrop]
  cases before.dropWhile isStar with
  | nil => rfl
  | cons q rest =>
    obtain ⟨piece, offset⟩ := q
    cases piece with
    | rightParen => cases h : groupBefore 0 rest <;> simp only [h] <;> rfl
    | symbol | operator | star | leftParen => rfl

/-- Behind a group the operand of a plus is this group, if it has a begin. -/
theorem operandBefore_rightParen (offset right : Nat) (before : List (Placed Piece)) :
    operandBefore offset (⟨.rightParen, right⟩ :: before) =
      match groupBefore 0 before with
      | some group => .ok (⟨.rightParen, right⟩ :: group)
      | none => .error (.unbalancedParenthesis right) := by
  have hspan : (⟨.rightParen, right⟩ :: before : List (Placed Piece)).span
      (fun p => p.value = .star) = ([], ⟨.rightParen, right⟩ :: before) := rfl
  rw [operandBefore, hspan]
  rfl

/-- The operand of a plus is the last factor before it: an operand with all its stars. -/
theorem Prints.operandBefore (h : Prints level r ps) (hlevel : level = .atom ∨ level = .repeated)
    (offset : Nat) (before : List (Placed Piece)) :
    operandBefore offset (ps.reverse ++ before) = .ok ps.reverse := by
  induction h with
  | symbol c offset => rfl
  | @group r ps left right h ih =>
    have hgroup : Pattern.groupBefore 0 (ps.reverse ++ [⟨.leftParen, left⟩] ++ before) =
        some (ps.reverse ++ [⟨.leftParen, left⟩]) := by
      rw [List.append_assoc, h.groupBefore]
      rfl
    rw [reverse_group, List.cons_append, operandBefore_rightParen, hgroup]
  | ofAtom _ ih => exact ih (.inl rfl)
  | star o h ih =>
    rw [List.reverse_append, List.reverse_singleton, List.singleton_append, List.cons_append,
      operandBefore_star offset rfl, ih (.inr rfl)]
    rfl
  | ofRepeated | append | ofSequence | bar => simp at hlevel

/-! ## Runs of postfix operators -/

/-- `Context F front`: with any factor after them, the pieces `front` print the product of the
    language `F` and that of the factor. -/
def Context (F : Language String) (front : List (Placed Piece)) : Prop :=
  ∀ f last, Prints .repeated f last →
    ∃ e, Prints .sequence e (front ++ last) ∧ e.language = F * f.language

theorem context_nil : Context 1 [] := fun f _ hf => ⟨f, .ofRepeated hf, (one_mul _).symm⟩

theorem Context.append {F : Language String} {front last : List (Placed Piece)}
    (hfront : Context F front) (hf : Prints .repeated f last) :
    Context (F * f.language) (front ++ last) := by
  intro g more hg
  obtain ⟨e, he, hlang⟩ := hfront f last hf
  exact ⟨.concat e g, .append he hg, by rw [Regex.language_concat, hlang]⟩

/-- `Expands ps tokens qs`: written out after the pieces `ps`, the tokens turn them into `qs`,
    whatever stands before and whatever follows. -/
def Expands (ps : List (Placed Piece)) (tokens : List (Placed Token)) (qs : List (Placed Piece)) :
    Prop :=
  ∀ before rest,
    expandFrom (ps.reverse ++ before) (tokens ++ rest) = expandFrom (qs.reverse ++ before) rest

variable {us : List (Placed Piece)} {tokens tokens' : List (Placed Token)}

theorem expands_nil (ps : List (Placed Piece)) : Expands ps [] ps := fun _ _ => rfl

theorem Expands.append (h : Expands ps tokens qs) (h' : Expands qs tokens' us) :
    Expands ps (tokens ++ tokens') us := by
  intro before rest
  rw [List.append_assoc, h, h']

/-- What is written out by itself is written out after any other pieces. -/
theorem Expands.after (h : Expands [] tokens qs) (ps : List (Placed Piece)) :
    Expands ps tokens (ps ++ qs) := by
  intro before rest
  rw [List.reverse_append, List.append_assoc]
  exact h (ps.reverse ++ before) rest

theorem expands_star (offset : Nat) (front last : List (Placed Piece)) :
    Expands (front ++ last) [⟨.star, offset⟩]
      (front ++ (last ++ [⟨.star, offset⟩] : List (Placed Piece))) := by
  intro before rest
  rw [List.singleton_append, expandFrom]
  simp

/-- A plus writes its operand once more, with a star. -/
theorem expands_plus (offset : Nat) {last : List (Placed Piece)} (hf : Prints .repeated f last)
    (front : List (Placed Piece)) :
    Expands (front ++ last) [⟨.plus, offset⟩]
      (front ++ last ++ (last ++ [⟨.star, offset⟩] : List (Placed Piece))) := by
  intro before rest
  have hoperand : operandBefore offset ((front ++ last).reverse ++ before) = .ok last.reverse := by
    rw [List.reverse_append, List.append_assoc, hf.operandBefore (.inr rfl)]
  rw [List.singleton_append, expandFrom, hoperand]
  show expandFrom _ rest = _
  simp

/-- Once the last factor is a star, further operators leave the language as it is. -/
theorem Prints.expands_run {F : Language String} {front last : List (Placed Piece)}
    (hfront : Context F front) (hf : Prints .repeated f last) (hlang : f.language = L∗)
    (ops : List Postfix) (htokens : tokens.map (·.value) = ops.map Postfix.token) :
    ∃ ps e, Expands (front ++ last) tokens ps ∧ Prints .sequence e ps ∧ e.language = F * L∗ := by
  induction ops generalizing F f front last tokens with
  | nil =>
    obtain rfl := List.map_eq_nil_iff.1 htokens
    obtain ⟨e, he, hlang'⟩ := hfront f last hf
    exact ⟨front ++ last, e, expands_nil _, he, by rw [hlang', hlang]⟩
  | cons op ops ih =>
    obtain ⟨⟨_, offset⟩, tokens, rfl, rfl, hrest⟩ := List.map_eq_cons_iff.1 htokens
    have hstar : (Regex.star f).language = L∗ := by
      rw [Regex.language_star, hlang, kstar_idem]
    cases op with
    | star =>
      obtain ⟨ps, e, hread, he, hlang'⟩ := ih hfront (hf.star offset) hstar hrest
      exact ⟨ps, e, (expands_star offset front last).append hread, he, hlang'⟩
    | plus =>
      obtain ⟨ps, e, hread, he, hlang'⟩ := ih (hfront.append hf) (hf.star offset) hstar hrest
      refine ⟨ps, e, (expands_plus offset hf front).append hread, he, ?_⟩
      rw [hlang', hlang, mul_assoc, kstar_mul_kstar]

/-- A run of operators makes of its operand what its first operator makes of it. -/
theorem Prints.expands_applyRun (h : Prints .atom r ps) (ops : List Postfix)
    (htokens : tokens.map (·.value) = ops.map Postfix.token) :
    ∃ qs e, Expands ps tokens qs ∧ Prints .sequence e qs ∧
      e.language = Postfix.applyRun ops r.language := by
  have hps := h.ofAtom
  cases ops with
  | nil =>
    obtain rfl := List.map_eq_nil_iff.1 htokens
    exact ⟨ps, r, expands_nil ps, .ofRepeated hps, rfl⟩
  | cons op ops =>
    obtain ⟨⟨_, offset⟩, tokens, rfl, rfl, hrest⟩ := List.map_eq_cons_iff.1 htokens
    have hstar := Regex.language_star (r := r)
    cases op with
    | star =>
      obtain ⟨qs, e, hread, he, hlang⟩ := (hps.star offset).expands_run context_nil hstar ops hrest
      exact ⟨qs, e, (expands_star offset [] ps).append hread, he, hlang.trans (one_mul _)⟩
    | plus =>
      obtain ⟨qs, e, hread, he, hlang⟩ :=
        (hps.star offset).expands_run (context_nil.append hps) hstar ops hrest
      refine ⟨qs, e, (expands_plus offset hps []).append hread, he, ?_⟩
      rw [hlang, one_mul]
      rfl

/-! ## Whole patterns -/

/-- Two printed sequences side by side print the product of their languages. -/
theorem Prints.sequence_append (hr : Prints .sequence r ps) (hs : Prints .sequence f qs) :
    ∃ e, Prints .sequence e (ps ++ qs) ∧ e.language = r.language * f.language := by
  generalize hlevel : Level.sequence = level at hs
  induction hs with
  | ofRepeated hs _ => exact ⟨_, hr.append hs, Regex.language_concat⟩
  | @append f g qs us _ hs ih _ =>
    obtain ⟨e, he, hlang⟩ := ih rfl
    refine ⟨.concat e g, ?_, ?_⟩
    · rw [← List.append_assoc]
      exact he.append hs
    · rw [Regex.language_concat, Regex.language_concat, hlang, mul_assoc]
  | symbol | group | ofAtom | star | ofSequence | bar => cases hlevel

/-- The level of what is written for a part: a factor with pluses becomes several. -/
def Level.written : Level → Level
  | repeated => sequence
  | level => level

/-- A token list is written out as pieces that print an expression of its language. -/
theorem Reads.expands (h : Reads level r L ts) (htokens : tokens.map (·.value) = ts) :
    ∃ ps e, Expands [] tokens ps ∧ Prints level.written e ps ∧ e.language = L := by
  induction h generalizing tokens with
  | symbol c =>
    obtain ⟨⟨_, offset⟩, rest, rfl, rfl, hrest⟩ := List.map_eq_cons_iff.1 htokens
    obtain rfl := List.map_eq_nil_iff.1 hrest
    exact ⟨[⟨.symbol c, offset⟩], .symbol c, fun _ _ => rfl, .symbol c offset,
      Regex.language_symbol⟩
  | group _ ih =>
    obtain ⟨front, last, rfl, hfront, hlast⟩ := List.map_eq_append_iff.1 htokens
    obtain ⟨⟨_, left⟩, inner, rfl, rfl, hinner⟩ := List.map_eq_cons_iff.1 hfront
    obtain ⟨⟨_, right⟩, rest, rfl, rfl, hrest⟩ := List.map_eq_cons_iff.1 hlast
    obtain rfl := List.map_eq_nil_iff.1 hrest
    obtain ⟨ps, e, hread, he, hlang⟩ := ih hinner
    have hopen : Expands [] [⟨.leftParen, left⟩] [⟨.leftParen, left⟩] := fun _ _ => rfl
    have hclose : Expands [] [⟨.rightParen, right⟩] [⟨.rightParen, right⟩] := fun _ _ => rfl
    exact ⟨_, e, (hopen.append (hread.after _)).append (hclose.after _), .group left right he,
      hlang⟩
  | run ops _ ih =>
    obtain ⟨atom, run, rfl, hatom, hrun⟩ := List.map_eq_append_iff.1 htokens
    obtain ⟨ps, e, hread, he, rfl⟩ := ih hatom
    obtain ⟨qs, g, hread', hg, hlang⟩ := he.expands_applyRun ops hrun
    exact ⟨qs, g, hread.append hread', hg, hlang⟩
  | ofRepeated _ ih => exact ih htokens
  | append _ _ ih ih' =>
    obtain ⟨front, last, rfl, hfront, hlast⟩ := List.map_eq_append_iff.1 htokens
    obtain ⟨ps, e, hread, he, rfl⟩ := ih hfront
    obtain ⟨qs, g, hread', hg, rfl⟩ := ih' hlast
    obtain ⟨e', he', hlang⟩ := he.sequence_append hg
    exact ⟨ps ++ qs, e', hread.append (hread'.after ps), he', hlang⟩
  | ofSequence _ ih =>
    obtain ⟨ps, e, hread, he, hlang⟩ := ih htokens
    exact ⟨ps, e, hread, .ofSequence he, hlang⟩
  | bar _ _ ih ih' =>
    obtain ⟨front, last, rfl, hfront, hlast⟩ := List.map_eq_append_iff.1 htokens
    obtain ⟨⟨_, offset⟩, last, rfl, rfl, hright⟩ := List.map_eq_cons_iff.1 hlast
    obtain ⟨ps, e, hread, he, rfl⟩ := ih hfront
    obtain ⟨qs, g, hread', hg, rfl⟩ := ih' hright
    have hbar : Expands [] [⟨.bar, offset⟩] [⟨.operator .union, offset⟩] := fun _ _ => rfl
    refine ⟨_, _, ?_, .bar offset he hg, Regex.language_union⟩
    exact hread.append ((hbar.append (hread'.after _)).after ps)

/-- After the pluses are written out, the tokens of a pattern print an expression of its
    language. -/
theorem Reads.expandPlus (h : Reads .alternatives r L (tokens.map (·.value))) :
    ∃ ps e, expandPlus tokens = .ok ps ∧ Prints .alternatives e ps ∧ e.language = L := by
  obtain ⟨ps, e, hread, he, hlang⟩ := h.expands rfl
  refine ⟨ps, e, ?_, he, hlang⟩
  have hread := hread [] []
  rw [List.reverse_nil, List.append_nil, List.append_nil, List.append_nil] at hread
  rw [Pattern.expandPlus, hread, expandFrom, List.reverse_reverse]

end Pattern

end Acceptors
