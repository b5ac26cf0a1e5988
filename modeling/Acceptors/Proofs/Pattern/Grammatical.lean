import Acceptors.Proofs.Pattern.Compiled
import Acceptors.Proofs.Pattern.Operands

/-!
# The compiler accepts the grammar

What is compiled follows the grammar, and all that follows it is compiled. A plus is written out by
copying what stands before it, but a copy is read like the original: it begins and ends a group as
often, and an operand that is missing in one is missing in the other. So the tokens of a pattern are
read like the pieces that are written for them, and from a reading that ends well the expression is
built up, with one unfinished body for each group that is open.

Results:
* `Pattern.scan_expandFrom`: writing out pluses changes no reading.
* `Pattern.Begins.read`: a reading builds up the expression of the pattern.
* `Pattern.Sound`, `Pattern.sound_of_scan`: what a pattern looks like that is read to the end.
* `Compiler.compile_isOk_iff_writes`: the patterns that are compiled are those of the grammar.
-/

namespace Acceptors

namespace Pattern

variable {before operand ps : List (Placed Piece)} {tokens : List (Placed Token)} {offset : Nat}
variable {s s' : Progress} {front cs : List Char} {r : Regex} {level : Level}

/-! ## Copies of operands -/

theorem rolesOf_append (ps qs : List (Placed Piece)) :
    rolesOf (ps ++ qs) = rolesOf ps ++ rolesOf qs := List.map_append

theorem scan_concat (s : Progress) (front : List Role) (role : Role) :
    scan s (front ++ [role]) = (scan s front).bind fun s => s.step role := by
  rw [scan_append]
  congr 1
  funext s
  rw [scan_cons]
  exact Option.bind_fun_some _

/-- Wherever it stands, what has the given roles is read alike: as an operand, or not at all. -/
def IsOperand (roles : List Role) : Prop :=
  ∃ complete : Bool, ∀ s : Progress,
    scan s roles = if complete then some ⟨s.depth, true⟩ else none

/-- A second copy of an operand changes nothing. -/
theorem IsOperand.scan_twice {roles : List Role} (h : IsOperand roles) (s : Progress)
    (front : List Role) : scan s (front ++ roles ++ roles) = scan s (front ++ roles) := by
  obtain ⟨complete, h⟩ := h
  rw [List.append_assoc, scan_append s front, scan_append s front]
  congr 1
  funext s
  rw [scan_append, h s]
  cases complete with
  | false => rfl
  | true => exact h _

/-- Stars after an operand belong to it. -/
theorem IsOperand.append {roles more : List Role} (h : IsOperand roles)
    (hmore : ∀ role ∈ more, role = .repetition) : IsOperand (roles ++ more) := by
  induction more generalizing roles with
  | nil => rwa [List.append_nil]
  | cons role more ih =>
    obtain ⟨hrole, hmore⟩ := List.forall_mem_cons.1 hmore
    have hone : IsOperand (roles ++ [role]) := by
      obtain ⟨complete, h⟩ := h
      refine ⟨complete, fun s => ?_⟩
      rw [scan_concat, h s, hrole]
      cases complete <;> rfl
    rw [List.append_cons]
    exact ih hone hmore

/-- Wherever it stands, what has the given roles is read alike: it leaves `k` groups more open than
    before, or is not read at all. -/
def Raises (k : Nat) (roles : List Role) : Prop :=
  ∃ ready : Option Bool, ∀ s : Progress,
    scan s roles = ready.map fun b => ⟨s.depth + k, b⟩

section Raises

variable {k : Nat} {roles : List Role}

theorem raises_opening : Raises 1 [.opening] := ⟨some false, fun _ => rfl⟩

theorem Raises.opening (h : Raises k roles) : Raises (k + 1) (roles ++ [.opening]) := by
  obtain ⟨ready, h⟩ := h
  refine ⟨ready.map fun _ => false, fun s => ?_⟩
  rw [scan_concat, h s]
  cases ready <;> rfl

/-- A group that ends is an operand, if it is the only one that was begun. -/
theorem Raises.closing (h : Raises (k + 1) roles) :
    Raises k (roles ++ [.closing]) ∧ (k = 0 → IsOperand (roles ++ [.closing])) := by
  obtain ⟨ready, h⟩ := h
  have hclosing : ∀ s, scan s (roles ++ [.closing]) =
      if ready.getD false then some ⟨s.depth + k, true⟩ else none := by
    intro s
    rw [scan_concat, h s]
    cases ready with
    | none => rfl
    | some b => cases b <;> simp [Progress.step]
  refine ⟨⟨if ready.getD false then some true else none, fun s => ?_⟩, ?_⟩
  · rw [hclosing s]
    cases ready.getD false <;> rfl
  · rintro rfl
    exact ⟨ready.getD false, hclosing⟩

theorem Raises.inside (h : Raises k roles) {role : Role} (hopening : role ≠ .opening)
    (hclosing : role ≠ .closing) : Raises k (roles ++ [role]) := by
  obtain ⟨ready, h⟩ := h
  refine ⟨ready.bind fun b => (Progress.step ⟨0, b⟩ role).map (·.ready), fun s => ?_⟩
  rw [scan_concat, h s]
  cases ready with
  | none => rfl
  | some b => cases role <;> cases b <;> simp_all [Progress.step]

end Raises

theorem rolesOf_reverse_cons (p : Placed Piece) (ps : List (Placed Piece)) :
    rolesOf (p :: ps).reverse = rolesOf ps.reverse ++ [p.value.role] := by
  rw [List.reverse_cons, rolesOf_append]
  rfl

/-- A piece that is no parenthesis, by the cases in which the end of a group is read backwards. -/
theorem role_ne_of_inside {piece : Piece} {depth : Nat}
    (hzero : piece = .leftParen → depth = 0 → False)
    (hsucc : ∀ d : Nat, piece = .leftParen → depth = d.succ → False)
    (hright : piece = .rightParen → False) : piece.role ≠ .opening ∧ piece.role ≠ .closing := by
  cases piece with
  | leftParen =>
    cases depth with
    | zero => exact absurd rfl (hzero rfl)
    | succ d => exact absurd rfl (hsucc d rfl)
  | rightParen => exact absurd rfl hright
  | symbol | star | operator =>
    constructor
    · intro h
      cases h
    · intro h
      cases h

/-- Read backwards up to its begin, the end of a group has the begins of all groups that end in it,
    and of those that are to be begun before it. -/
theorem raises_groupBefore {depth : Nat} {group : List (Placed Piece)}
    (h : groupBefore depth before = some group) :
    (∃ earlier, before = group ++ earlier) ∧ Raises (depth + 1) (rolesOf group.reverse) := by
  fun_induction groupBefore depth before generalizing group with
  | case1 => cases h
  | case2 p before hp =>
    cases h
    refine ⟨⟨before, rfl⟩, ?_⟩
    rw [rolesOf_reverse_cons, hp]
    exact raises_opening
  | case3 p before depth hp ih =>
    obtain ⟨group, hgroup, rfl⟩ := Option.map_eq_some_iff.1 h
    obtain ⟨⟨earlier, rfl⟩, hraises⟩ := ih hgroup
    rw [rolesOf_reverse_cons, hp]
    exact ⟨⟨earlier, rfl⟩, hraises.opening⟩
  | case4 p before depth hp ih =>
    obtain ⟨group, hgroup, rfl⟩ := Option.map_eq_some_iff.1 h
    obtain ⟨⟨earlier, rfl⟩, hraises⟩ := ih hgroup
    rw [rolesOf_reverse_cons, hp]
    exact ⟨⟨earlier, rfl⟩, hraises.closing.1⟩
  | case5 p before depth hzero hsucc hright ih =>
    obtain ⟨group, hgroup, rfl⟩ := Option.map_eq_some_iff.1 h
    obtain ⟨⟨earlier, rfl⟩, hraises⟩ := ih hgroup
    obtain ⟨hopening, hclosing⟩ := role_ne_of_inside hzero hsucc hright
    rw [rolesOf_reverse_cons]
    exact ⟨⟨earlier, rfl⟩, hraises.inside hopening hclosing⟩

/-- The operand of a plus: the stars that stand before it, and before them a symbol or a group. -/
theorem operandBefore_eq_ok (h : operandBefore offset before = .ok operand) :
    ∃ stars body earlier, before = stars ++ body ++ earlier ∧ operand = stars ++ body ∧
      (∀ p ∈ stars, p.value = .star) ∧
      ((∃ p c, body = [p] ∧ p.value = .symbol c) ∨
        ∃ p group, body = p :: group ∧ p.value = .rightParen ∧
          groupBefore 0 (group ++ earlier) = some group) := by
  let isStar : Placed Piece → Bool := fun p => p.value = .star
  have hstars : ∀ p ∈ before.takeWhile isStar, p.value = .star := fun p hp =>
    of_decide_eq_true (List.all_eq_true.1 List.all_takeWhile p hp)
  have hbefore : before.takeWhile isStar ++ before.dropWhile isStar = before :=
    List.takeWhile_append_dropWhile
  rw [operandBefore, List.span_eq_takeWhile_dropWhile] at h
  cases hrest : before.dropWhile isStar with
  | nil =>
    rw [hrest] at h
    cases h
  | cons p earlier =>
    rw [hrest] at h hbefore
    cases hp : p.value with
    | symbol c =>
      simp only [hp] at h
      cases h
      exact ⟨_, [p], earlier, by simpa using hbefore.symm, rfl, hstars, .inl ⟨p, c, rfl, hp⟩⟩
    | rightParen =>
      simp only [hp] at h
      cases hgroup : groupBefore 0 earlier with
      | none =>
        rw [hgroup] at h
        cases h
      | some group =>
        rw [hgroup] at h
        cases h
        obtain ⟨⟨rest, rfl⟩, -⟩ := raises_groupBefore hgroup
        exact ⟨_, p :: group, rest, by simpa using hbefore.symm, rfl, hstars,
          .inr ⟨p, group, rfl, hp, hgroup⟩⟩
    | star | operator | leftParen =>
      simp only [hp] at h
      cases h

/-- A plus is refused if no operand ends before it, or if the group that ends there has no begin. -/
theorem operandBefore_eq_error {e : Error} (h : operandBefore offset before = .error e) :
    e = .missingOperand offset ∨
      ∃ stars p earlier, before = stars ++ p :: earlier ∧ (∀ q ∈ stars, q.value = .star) ∧
        p.value = .rightParen ∧ groupBefore 0 earlier = none ∧
        e = .unbalancedParenthesis p.offset := by
  let isStar : Placed Piece → Bool := fun p => p.value = .star
  have hstars : ∀ p ∈ before.takeWhile isStar, p.value = .star := fun p hp =>
    of_decide_eq_true (List.all_eq_true.1 List.all_takeWhile p hp)
  have hbefore : before.takeWhile isStar ++ before.dropWhile isStar = before :=
    List.takeWhile_append_dropWhile
  rw [operandBefore, List.span_eq_takeWhile_dropWhile] at h
  cases hrest : before.dropWhile isStar with
  | nil =>
    rw [hrest] at h
    cases h
    exact .inl rfl
  | cons p earlier =>
    rw [hrest] at h hbefore
    cases hp : p.value with
    | symbol c =>
      simp only [hp] at h
      cases h
    | rightParen =>
      simp only [hp] at h
      cases hgroup : groupBefore 0 earlier with
      | none =>
        rw [hgroup] at h
        cases h
        exact .inr ⟨_, p, earlier, hbefore.symm, hstars, hp, hgroup, rfl⟩
      | some group =>
        rw [hgroup] at h
        cases h
    | star | operator | leftParen =>
      simp only [hp] at h
      cases h
      exact .inl rfl

/-- The operand of a plus stands before it, and is read as an operand or not at all. -/
theorem isOperand_operandBefore (h : operandBefore offset before = .ok operand) :
    (∃ earlier, before = operand ++ earlier) ∧ IsOperand (rolesOf operand.reverse) := by
  obtain ⟨stars, body, earlier, rfl, rfl, hstars, hbody⟩ := operandBefore_eq_ok h
  refine ⟨⟨earlier, rfl⟩, ?_⟩
  have hread : IsOperand (rolesOf body.reverse) := by
    rcases hbody with ⟨p, c, rfl, hp⟩ | ⟨p, group, rfl, hp, hgroup⟩
    · rw [rolesOf_reverse_cons, hp]
      exact ⟨true, fun _ => rfl⟩
    · rw [rolesOf_reverse_cons, hp]
      exact (raises_groupBefore hgroup).2.closing.2 rfl
  rw [List.reverse_append, rolesOf_append]
  refine hread.append fun role hrole => ?_
  obtain ⟨p, hp, rfl⟩ := List.mem_map.1 hrole
  rw [hstars p (List.mem_reverse.1 hp)]
  rfl

/-- The piece that is written for a token, where a plus has its operand copied before. -/
def Token.piece : Token → Piece
  | symbol c => .symbol c
  | bar => .operator .union
  | star | plus => .star
  | leftParen => .leftParen
  | rightParen => .rightParen

theorem Token.role_piece (t : Token) : t.piece.role = t.role := by
  cases t <;> rfl

/-- What may stand before the piece of a token: nothing, or for a plus a copy of its operand. -/
def Copied (t : Placed Token) (before operand : List (Placed Piece)) : Prop :=
  operand = [] ∨ operandBefore t.offset before = .ok operand

theorem expandFrom_cons_eq_ok {t : Placed Token} (h : expandFrom before (t :: tokens) = .ok ps) :
    ∃ operand, Copied t before operand ∧
      expandFrom (⟨t.value.piece, t.offset⟩ :: (operand ++ before)) tokens = .ok ps := by
  obtain ⟨token, offset⟩ := t
  cases token with
  | plus =>
    obtain ⟨operand, hoperand, h⟩ := Except.bind_eq_ok_iff.1 h
    exact ⟨operand, .inr hoperand, h⟩
  | symbol | bar | star | leftParen | rightParen => exact ⟨[], .inl rfl, h⟩

theorem expandFrom_cons_eq_error {t : Placed Token} {e : Error}
    (h : expandFrom before (t :: tokens) = .error e) :
    operandBefore t.offset before = .error e ∨ ∃ operand, Copied t before operand ∧
      expandFrom (⟨t.value.piece, t.offset⟩ :: (operand ++ before)) tokens = .error e := by
  obtain ⟨token, offset⟩ := t
  cases token with
  | plus =>
    rcases Except.bind_eq_error_iff.1 h with h | ⟨operand, hoperand, h⟩
    · exact .inl h
    · exact .inr ⟨operand, .inr hoperand, h⟩
  | symbol | bar | star | leftParen | rightParen => exact .inr ⟨[], .inl rfl, h⟩

theorem Copied.scan {t : Placed Token} (h : Copied t before operand) (s : Progress) :
    scan s (rolesOf (operand ++ before).reverse) = scan s (rolesOf before.reverse) := by
  rcases h with rfl | h
  · rfl
  · obtain ⟨⟨earlier, rfl⟩, hread⟩ := isOperand_operandBefore h
    have htwice := hread.scan_twice s (rolesOf earlier.reverse)
    rwa [List.reverse_append, List.reverse_append, rolesOf_append, rolesOf_append]

/-- The roles of tokens. -/
def tokenRoles (tokens : List (Placed Token)) : List Role := tokens.map (·.value.role)

/-- Writing out the pluses changes no reading: what is written is read like what was written before
    and the tokens that follow. -/
theorem scan_expandFrom (h : expandFrom before tokens = .ok ps) (s : Progress) :
    scan s (rolesOf ps) = scan s (rolesOf before.reverse ++ tokenRoles tokens) := by
  induction tokens generalizing before with
  | nil =>
    cases h
    exact congrArg (scan s) (List.append_nil _).symm
  | cons t rest ih =>
    obtain ⟨operand, hcopied, h⟩ := expandFrom_cons_eq_ok h
    rw [ih h, rolesOf_reverse_cons, Token.role_piece, List.append_assoc, scan_append,
      hcopied.scan s, ← scan_append]
    rfl

/-! ## From a reading to the expression -/

/-- The part of the body of a group that has been read, or of the whole pattern; `ready` says
    whether an operand has just ended. -/
inductive Body : (ready : Bool) → List Char → Prop
  | nil : Body false []
  | bar {r : Regex} {cs : List Char} : Writes .alternatives r cs → Body false (cs ++ ['|'])
  | whole {r : Regex} {cs : List Char} : Writes .alternatives r cs → Body true cs

/-- The text begins a pattern: within each group that is open, a part of the body has been read. -/
inductive Begins : Progress → List Char → Prop
  | outer {ready : Bool} {cs : List Char} : Body ready cs → Begins ⟨0, ready⟩ cs
  | inner {s : Progress} {ready : Bool} {front cs : List Char} : Begins s front → Body ready cs →
      Begins ⟨s.depth + 1, ready⟩ (front ++ '(' :: cs)

/-- One more factor goes with the last alternative. -/
theorem Writes.alternatives_append {f : Regex} {ds : List Char} (h : Writes .alternatives r cs)
    (hf : Writes .repeated f ds) : ∃ e, Writes .alternatives e (cs ++ ds) := by
  cases h with
  | ofSequence h => exact ⟨_, .ofSequence (h.append hf)⟩
  | bar h h' =>
    rw [List.append_assoc, List.cons_append]
    exact ⟨_, h.bar (h'.append hf)⟩

/-- A star or a plus goes with the last factor. -/
theorem Writes.sequence_postfixOp (h : Writes .sequence r cs) (op : Postfix) :
    ∃ e, Writes .sequence e (cs ++ [op.char]) := by
  have hfactor : ∀ {f ds}, Writes .repeated f ds →
      Writes .repeated (op.regex f) (ds ++ [op.char]) := by
    intro f ds hf
    cases op with
    | star => exact hf.star
    | plus => exact hf.plus
  cases h with
  | ofRepeated h => exact ⟨_, .ofRepeated (hfactor h)⟩
  | append h h' =>
    rw [List.append_assoc]
    exact ⟨_, h.append (hfactor h')⟩

theorem Body.factor {ready : Bool} {f : Regex} {ds : List Char} (h : Body ready cs)
    (hf : Writes .repeated f ds) : Body true (cs ++ ds) := by
  cases h with
  | nil => exact .whole (.ofSequence (.ofRepeated hf))
  | bar h =>
    rw [List.append_assoc]
    exact .whole (h.bar (.ofRepeated hf))
  | whole h =>
    obtain ⟨e, he⟩ := h.alternatives_append hf
    exact .whole he

theorem Body.postfixOp (h : Body true cs) (op : Postfix) : Body true (cs ++ [op.char]) := by
  cases h with
  | whole h =>
    cases h with
    | ofSequence h =>
      obtain ⟨e, he⟩ := h.sequence_postfixOp op
      exact .whole (.ofSequence he)
    | bar h h' =>
      obtain ⟨e, he⟩ := h'.sequence_postfixOp op
      rw [List.append_assoc, List.cons_append]
      exact .whole (h.bar he)

theorem Body.separate (h : Body true cs) : Body false (cs ++ ['|']) := by
  cases h with
  | whole h => exact .bar h

/-- What extends every body extends the innermost one. -/
theorem Begins.extend {ready : Bool} {ds : List Char} (h : Begins s front)
    (hbody : ∀ cs, Body s.ready cs → Body ready (cs ++ ds)) :
    Begins ⟨s.depth, ready⟩ (front ++ ds) := by
  cases h with
  | outer h => exact .outer (hbody _ h)
  | inner h h' =>
    rw [List.append_assoc, List.cons_append]
    exact .inner h (hbody _ h')

/-- The end of a group makes an operand of its body. -/
theorem Begins.close {depth : Nat} (h : Begins ⟨depth + 1, true⟩ front) :
    Begins ⟨depth, true⟩ (front ++ [')']) := by
  cases h with
  | @inner s _ front cs h h' =>
    cases h' with
    | whole h' =>
      rw [List.append_assoc]
      exact h.extend fun _ hbody => hbody.factor (.ofAtom h'.group)

/-- One character that no backslash precedes. -/
theorem Begins.plain {c : Char} (h : Begins s front) (hc : c ≠ '\\')
    (hstep : s.step (Token.ofChar c).role = some s') : Begins s' (front ++ [c]) := by
  have hpostfix : ∀ op : Postfix, s.step .repetition = some s' →
      Begins s' (front ++ [op.char]) := by
    intro op hstep
    have hready := (Progress.step_spec hstep).2.2 rfl
    obtain rfl : ⟨s.depth, true⟩ = s' := by simpa [Progress.step, hready] using hstep
    exact h.extend fun _ hbody => (hready ▸ hbody : Body true _).postfixOp op
  by_cases hsymbol : Token.ofChar c = .symbol c
  · rw [hsymbol] at hstep
    cases hstep
    have hplain := Token.ofChar_eq_symbol_iff.1 hsymbol
    exact h.extend fun _ hbody => hbody.factor (.ofAtom (.plain hc hplain))
  · rw [Token.ofChar] at hstep hsymbol
    split at hstep
    · next hbar =>
      subst hbar
      have hready := (Progress.step_spec hstep).2.2 rfl
      obtain rfl : ⟨s.depth, false⟩ = s' := by simpa [Progress.step, Token.role, hready] using hstep
      exact h.extend fun _ hbody => (hready ▸ hbody : Body true _).separate
    split at hstep
    · next hstar =>
      subst hstar
      exact hpostfix .star hstep
    split at hstep
    · next hplus =>
      subst hplus
      exact hpostfix .plus hstep
    split at hstep
    · next hopen =>
      subst hopen
      cases hstep
      exact h.inner .nil
    split at hstep
    · next hclose =>
      subst hclose
      have hready := (Progress.step_spec hstep).2.2 rfl
      obtain ⟨depth, ready⟩ := s
      obtain rfl : ready = true := hready
      cases depth with
      | zero => cases hstep
      | succ depth =>
        cases hstep
        exact h.close
    · simp_all

theorem Begins.escaped (h : Begins s front) (c : Char) :
    Begins ⟨s.depth, true⟩ (front ++ ['\\', c]) :=
  h.extend fun _ hbody => hbody.factor (.ofAtom (.escaped c))

theorem exists_step_of_scan_cons {role : Role} {roles : List Role}
    (h : scan s (role :: roles) = some s') :
    ∃ t, s.step role = some t ∧ scan t roles = some s' := by
  rw [scan_cons] at h
  exact Option.bind_eq_some_iff.1 h

/-- Reading on builds up the pattern. -/
theorem Begins.read (h : Begins s front) (htokens : tokensFrom offset cs = .ok tokens)
    (hscan : scan s (tokenRoles tokens) = some s') : Begins s' (front ++ cs) := by
  fun_induction tokensFrom offset cs generalizing s front tokens with
  | case1 =>
    cases htokens
    cases hscan
    rwa [List.append_nil]
  | case2 => cases htokens
  | case3 offset c rest ih =>
    obtain ⟨more, hrest, htokens⟩ := Except.bind_eq_ok_iff.1 htokens
    cases htokens
    obtain ⟨t, hstep, hscan⟩ := exists_step_of_scan_cons hscan
    cases hstep
    have hread := ih (h.escaped c) hrest hscan
    rwa [List.append_assoc] at hread
  | case4 offset c rest hlast hescaped ih =>
    have hc : c ≠ '\\' := ne_backslash_of_tokensFrom hlast hescaped
    obtain ⟨more, hrest, htokens⟩ := Except.bind_eq_ok_iff.1 htokens
    cases htokens
    obtain ⟨t, hstep, hscan⟩ := exists_step_of_scan_cons hscan
    have hread := ih (h.plain hc hstep) hrest hscan
    rwa [List.append_assoc] at hread

/-- A pattern that is read to the end follows the grammar. -/
theorem exists_writes_of_scan (htokens : tokensFrom offset cs = .ok tokens)
    (hscan : scan ⟨0, false⟩ (tokenRoles tokens) = some ⟨0, true⟩) :
    ∃ r, Writes .alternatives r cs := by
  have hread := Begins.read (.outer .nil) htokens hscan
  rw [List.nil_append] at hread
  cases hread with
  | outer hbody =>
    cases hbody with
    | whole h => exact ⟨_, h⟩

/-! ## What is refused -/

/-- Every operator, every end of a group and the end of the pattern stand right behind an operand,
    and the parentheses are balanced. -/
structure Sound (roles : List Role) : Prop where
  operand_before : ∀ front role back, roles = front ++ role :: back → role.needsOperand = true →
    ∃ last ∈ front.getLast?, last.endsOperand = true
  operand_last : ∃ last ∈ roles.getLast?, last.endsOperand = true
  begun_before : ∀ front back, roles = front ++ back →
    front.count .closing ≤ front.count .opening
  balanced : roles.count .closing = roles.count .opening

/-- What has been read tells the number of open groups and whether an operand has just ended. -/
theorem progress_of_scan {roles : List Role} (h : scan ⟨0, false⟩ roles = some s) :
    s.depth + roles.count .closing = roles.count .opening ∧
      (s.ready = true → ∃ last ∈ roles.getLast?, last.endsOperand = true) := by
  induction roles using List.reverseRecOn generalizing s with
  | nil =>
    cases h
    exact ⟨rfl, fun h => by cases h⟩
  | append_singleton roles role ih =>
    rw [scan_concat] at h
    obtain ⟨t, ht, hstep⟩ := Option.bind_eq_some_iff.1 h
    obtain ⟨hready, hdepth, -⟩ := Progress.step_spec hstep
    have hcount := (ih ht).1
    refine ⟨?_, fun hs => ⟨role, by simp, hready ▸ hs⟩⟩
    rw [List.count_append, List.count_append]
    omega

theorem sound_of_scan {roles : List Role} (h : scan ⟨0, false⟩ roles = some ⟨0, true⟩) :
    Sound roles where
  operand_before front role back hroles hneeds := by
    rw [hroles, scan_append] at h
    obtain ⟨s, hfront, h⟩ := Option.bind_eq_some_iff.1 h
    obtain ⟨t, hstep, -⟩ := exists_step_of_scan_cons h
    obtain ⟨-, -, hready⟩ := Progress.step_spec hstep
    exact (progress_of_scan hfront).2 (hready hneeds)
  operand_last := (progress_of_scan h).2 rfl
  begun_before front back hroles := by
    rw [hroles, scan_append] at h
    obtain ⟨s, hfront, -⟩ := Option.bind_eq_some_iff.1 h
    have := (progress_of_scan hfront).1
    omega
  balanced := by
    have := (progress_of_scan h).1
    rwa [Nat.zero_add] at this

end Pattern

namespace Compiler

open Pattern

/-- A pattern that is compiled has tokens that are read to the end. -/
theorem scan_of_compile {k : Compiler} {pattern : String} {n : Nfa}
    (h : (k.compile pattern).1 = .ok n) :
    ∃ tokens, tokenize pattern = .ok tokens ∧
      scan ⟨0, false⟩ (tokenRoles tokens) = some ⟨0, true⟩ := by
  obtain ⟨tokens, instrs, htokens, hinstrs, h⟩ := exists_instructions_of_compile h
  obtain ⟨ps, hps, hpostorder⟩ := Except.bind_eq_ok_iff.1 hinstrs
  have heval : evaluate k.config instrs [] k.next =
      (.ok n, (evaluate k.config instrs [] k.next).2) := Prod.ext h rfl
  refine ⟨tokens, htokens, ?_⟩
  rw [← scan_of_evaluate hpostorder heval]
  exact (scan_expandFrom hps _).symm

/-- The compiler accepts exactly the patterns of the grammar, whatever its settings and the number
    of its next state. So every operator, every end of a group and the end of the pattern stand
    right behind an operand, and the parentheses are balanced. -/
theorem compile_isOk_iff_writes (k : Compiler) (pattern : String) :
    ((∃ n, (k.compile pattern).1 = .ok n) ↔ ∃ r, Writes .alternatives r pattern.toList) ∧
      ((∃ n, (k.compile pattern).1 = .ok n) →
        ∃ tokens, tokenize pattern = .ok tokens ∧ Sound (tokenRoles tokens)) := by
  constructor
  · constructor
    · rintro ⟨n, hn⟩
      obtain ⟨tokens, htokens, hscan⟩ := scan_of_compile hn
      exact exists_writes_of_scan htokens hscan
    · rintro ⟨r, hr⟩
      obtain ⟨L, ts, hspells, hreads⟩ := hr.reads
      obtain ⟨n, hn, -⟩ := k.compile_of_reads hspells hreads
      exact ⟨n, hn⟩
  · rintro ⟨n, hn⟩
    obtain ⟨tokens, htokens, hscan⟩ := scan_of_compile hn
    exact ⟨tokens, htokens, sound_of_scan hscan⟩

end Compiler

end Acceptors
