import Acceptors.Proofs.Pattern.Located

/-!
# Groups without a body

A pattern can be nothing but parentheses, first the begins of some groups and then their ends. There
is no operand in it, and no operator either: no group begins after another has ended, so that
nothing is concatenated. Reordering takes the parentheses away, and nothing remains to be evaluated.
Any other pattern that has tokens leaves an element, or is refused before. The empty text is the
case of no groups at all.

Results:
* `Pattern.instructionsOf_eq_nil_iff`: the tokens that give no elements.
* `Pattern.exists_nested_tokensFrom_iff`: the texts of these tokens.
-/

namespace Acceptors

namespace Pattern

variable {before ps : List (Placed Piece)} {tokens : List (Placed Token)}
variable {stack : List (Placed Pending)} {offset a b : Nat} {cs : List Char}

/-! ## Roles -/

/-- Nothing but begins and ends of groups. -/
def OnlyParens (roles : List Role) : Prop := ∀ role ∈ roles, role = .opening ∨ role = .closing

theorem onlyParens_nil : OnlyParens [] := List.forall_mem_nil _

theorem onlyParens_cons {role : Role} {roles : List Role} :
    OnlyParens (role :: roles) ↔ (role = .opening ∨ role = .closing) ∧ OnlyParens roles :=
  List.forall_mem_cons

theorem onlyParens_append {front back : List Role} :
    OnlyParens (front ++ back) ↔ OnlyParens front ∧ OnlyParens back := List.forall_mem_append

theorem OnlyParens.ne {role : Role} {roles : List Role} (h : OnlyParens roles)
    (hrole : role ∈ roles) : role ≠ .symbol ∧ role ≠ .repetition := by
  rcases h role hrole with rfl | rfl
  · exact ⟨by decide, by decide⟩
  · exact ⟨by decide, by decide⟩

/-- Groups within each other: first all begins, then all ends. -/
def nested (a b : Nat) : List Role := List.replicate a .opening ++ List.replicate b .closing

theorem onlyParens_nested (a b : Nat) : OnlyParens (nested a b) := fun _ h =>
  (List.mem_append.1 h).imp List.eq_of_mem_replicate List.eq_of_mem_replicate

theorem closes_nested {depth : Nat} : Closes depth (nested a b) ↔ depth + a = b := by
  induction a generalizing depth with
  | zero =>
    induction b generalizing depth with
    | zero => rfl
    | succ b ih =>
      cases depth with
      | zero => exact iff_of_false id (by omega)
      | succ depth =>
        show Closes depth (nested 0 b) ↔ _
        rw [ih]
        omega
  | succ a ih =>
    show Closes (depth + 1) (nested a b) ↔ _
    rw [ih]
    omega

/-! ## Passes -/

/-- Only parentheses leave no elements. -/
theorem onlyParens_of_postorderFrom (h : postorderFrom stack ps = .ok []) :
    OnlyParens (rolesOf ps) := by
  induction ps generalizing stack with
  | nil => exact onlyParens_nil
  | cons p ps ih =>
    obtain ⟨-, hoperators, -⟩ := count_of_postorderFrom h
    obtain ⟨out, waiting, rest, hreorders, hrest, hnil⟩ := postorderFrom_cons_eq_ok h
    obtain ⟨rfl, rfl⟩ := List.append_eq_nil_iff.1 hnil
    rw [rolesOf_cons, onlyParens_cons]
    cases hreorders with
    | operator => exact absurd hoperators (by simp [roleCount, operatorCount, Piece.role])
    | opening => exact ⟨.inl rfl, ih hrest⟩
    | closing => exact ⟨.inr rfl, ih hrest⟩

/-- Parentheses that are balanced leave no elements. -/
theorem postorderFrom_eq_nil (hstack : ∀ p ∈ stack, p.value = .group)
    (hroles : OnlyParens (rolesOf ps)) (hcloses : Closes stack.length (rolesOf ps)) :
    postorderFrom stack ps = .ok [] := by
  induction ps generalizing stack with
  | nil =>
    obtain rfl := List.eq_nil_of_length_eq_zero hcloses
    rfl
  | cons p ps ih =>
    obtain ⟨piece, offset⟩ := p
    rw [rolesOf_cons, onlyParens_cons] at hroles
    obtain ⟨hrole, hroles⟩ := hroles
    cases piece with
    | leftParen => exact ih (List.forall_mem_cons.2 ⟨rfl, hstack⟩) hroles hcloses
    | rightParen =>
      rcases stack with _ | ⟨⟨pending, start⟩, stack⟩
      · exact absurd hcloses id
      · obtain ⟨hgroup, houter⟩ := List.forall_mem_cons.1 hstack
        obtain rfl : pending = .group := hgroup
        have hrest := ih houter hroles hcloses
        show emit [] (postorderFrom stack ps) = .ok []
        rw [hrest]
        rfl
    | symbol | star | operator => exact absurd hrole (by simp [Piece.role])

/-- A sign of concatenation stands wherever a group begins after another has ended. -/
theorem exists_nested_of_explicit {ready : Bool}
    (h : OnlyParens (rolesOf (explicit ready ps))) :
    ∃ a b, rolesOf ps = nested a b ∧ (ready = true → a = 0) := by
  induction ps generalizing ready with
  | nil => exact ⟨0, 0, rfl, fun _ => rfl⟩
  | cons p ps ih =>
    obtain ⟨piece, offset⟩ := p
    rw [explicit, rolesOf_append, onlyParens_append, rolesOf_cons, onlyParens_cons] at h
    obtain ⟨hsign, hrole, hrest⟩ := h
    cases piece with
    | leftParen =>
      cases ready with
      | true => exact absurd (hsign _ List.mem_cons_self) (by simp [Piece.role])
      | false =>
        obtain ⟨a, b, hroles, -⟩ := ih hrest
        exact ⟨a + 1, b, congrArg (Role.opening :: ·) hroles, fun h => by cases h⟩
    | rightParen =>
      obtain ⟨a, b, hroles, ha⟩ := ih hrest
      obtain rfl := ha rfl
      exact ⟨0, b + 1, congrArg (Role.closing :: ·) hroles, fun _ => rfl⟩
    | symbol | star | operator => exact absurd hrole (by simp [Piece.role])

/-- No sign of concatenation goes between groups within each other. -/
theorem onlyParens_explicit {ready : Bool} (h : rolesOf ps = nested a b)
    (hready : ready = true → a = 0) : OnlyParens (rolesOf (explicit ready ps)) := by
  induction ps generalizing ready a b with
  | nil => exact onlyParens_nil
  | cons p ps ih =>
    obtain ⟨piece, offset⟩ := p
    rw [explicit, rolesOf_append, onlyParens_append, rolesOf_cons, onlyParens_cons]
    rw [rolesOf_cons] at h
    have hrole : piece.role = .opening ∨ piece.role = .closing :=
      onlyParens_nested a b _ (h ▸ List.mem_cons_self)
    cases piece with
    | leftParen =>
      cases a with
      | zero => cases b <;> cases h
      | succ a =>
        obtain rfl : ready = false := Bool.eq_false_iff.2 fun htrue => by cases hready htrue
        exact ⟨onlyParens_nil, hrole, ih (List.cons.inj h).2 fun h => by cases h⟩
    | rightParen =>
      cases a with
      | succ a => cases h
      | zero =>
        cases b with
        | zero => cases h
        | succ b =>
          rw [if_neg (by simp [Piece.startsOperand])]
          have hrest : rolesOf ps = nested 0 b := (List.cons.inj h).2
          exact ⟨onlyParens_nil, hrole, ih hrest fun _ => rfl⟩
    | symbol | star | operator => exact absurd hrole (by simp [Piece.role])

/-- Where nothing is repeated, each token is written as one piece. -/
theorem expandFrom_of_forall_ne (h : ∀ role ∈ tokenRoles tokens, role ≠ .repetition)
    (before : List (Placed Piece)) :
    ∃ ps, expandFrom before tokens = .ok ps ∧
      rolesOf ps = rolesOf before.reverse ++ tokenRoles tokens := by
  induction tokens generalizing before with
  | nil => exact ⟨before.reverse, rfl, (List.append_nil _).symm⟩
  | cons t rest ih =>
    obtain ⟨token, offset⟩ := t
    obtain ⟨hrole, hrest⟩ := List.forall_mem_cons.1 h
    obtain ⟨ps, hps, hroles⟩ := ih hrest (⟨token.piece, offset⟩ :: before)
    rw [rolesOf_reverse_cons, Token.role_piece, List.append_assoc] at hroles
    refine ⟨ps, ?_, hroles⟩
    cases token with
    | plus => exact absurd rfl hrole
    | symbol | bar | star | leftParen | rightParen => exact hps

/-- Every token is written. -/
theorem sublist_rolesOf_expandFrom (h : expandFrom before tokens = .ok ps) :
    (rolesOf before.reverse ++ tokenRoles tokens).Sublist (rolesOf ps) := by
  induction tokens generalizing before with
  | nil =>
    cases h
    rw [tokenRoles, List.map_nil, List.append_nil]
  | cons t rest ih =>
    obtain ⟨operand, -, h⟩ := expandFrom_cons_eq_ok h
    refine List.Sublist.trans ?_ (ih h)
    rw [rolesOf_reverse_cons, Token.role_piece, List.append_assoc, List.reverse_append,
      rolesOf_append]
    exact List.Sublist.append_right (List.sublist_append_left _ _) _

/-- The tokens of a pattern give no elements just if they are groups within each other. -/
theorem instructionsOf_eq_nil_iff :
    instructionsOf tokens = .ok [] ↔ ∃ m, tokenRoles tokens = nested m m := by
  constructor
  · intro h
    obtain ⟨ps, hps, h⟩ := Except.bind_eq_ok_iff.1 h
    rw [insertConcat_eq_explicit] at h
    obtain ⟨a, b, hroles, -⟩ := exists_nested_of_explicit (onlyParens_of_postorderFrom h)
    have hcloses : Closes 0 (rolesOf ps) :=
      (closes_explicit false ps).1 (count_of_postorderFrom h).2.2
    rw [hroles, closes_nested, Nat.zero_add] at hcloses
    subst hcloses
    have htokens : ∀ role ∈ tokenRoles tokens, role ≠ .repetition := fun role hrole =>
      ((onlyParens_nested a a).ne (hroles ▸ (sublist_rolesOf_expandFrom hps).subset hrole)).2
    obtain ⟨qs, hqs, hroles'⟩ := expandFrom_of_forall_ne htokens []
    obtain rfl : qs = ps := Except.ok.inj (hqs.symm.trans hps)
    exact ⟨a, hroles'.symm.trans hroles⟩
  · rintro ⟨m, hm⟩
    have htokens : ∀ role ∈ tokenRoles tokens, role ≠ .repetition := fun role hrole =>
      ((onlyParens_nested m m).ne (hm ▸ hrole)).2
    obtain ⟨ps, hps, hroles⟩ := expandFrom_of_forall_ne htokens []
    have hnested : rolesOf ps = nested m m := hroles.trans hm
    refine Except.bind_eq_ok_iff.2 ⟨ps, hps, ?_⟩
    rw [insertConcat_eq_explicit]
    refine postorderFrom_eq_nil (List.forall_mem_nil _)
      (onlyParens_explicit hnested fun h => by cases h) ((closes_explicit false ps).2 ?_)
    rw [hnested]
    exact closes_nested.2 (Nat.zero_add m)

/-! ## Texts -/

/-- Where nothing is a symbol, nothing is escaped. -/
theorem tokenRoles_of_forall_ne (h : tokensFrom offset cs = .ok tokens)
    (hroles : ∀ role ∈ tokenRoles tokens, role ≠ .symbol) :
    tokenRoles tokens = cs.map fun c => (Token.ofChar c).role := by
  fun_induction tokensFrom offset cs generalizing tokens with
  | case1 =>
    cases h
    rfl
  | case2 => cases h
  | case3 offset c rest ih =>
    obtain ⟨more, -, h⟩ := Except.bind_eq_ok_iff.1 h
    cases h
    exact absurd rfl (List.forall_mem_cons.1 hroles).1
  | case4 offset c rest hlast hescaped ih =>
    obtain ⟨more, hmore, h⟩ := Except.bind_eq_ok_iff.1 h
    cases h
    exact congrArg _ (ih hmore (List.forall_mem_cons.1 hroles).2)

/-- Without a backslash, each character is a token. -/
theorem exists_tokensFrom_of_forall_ne (h : ∀ c ∈ cs, c ≠ '\\') (offset : Nat) :
    ∃ tokens, tokensFrom offset cs = .ok tokens ∧
      tokenRoles tokens = cs.map fun c => (Token.ofChar c).role := by
  induction cs generalizing offset with
  | nil => exact ⟨[], rfl, rfl⟩
  | cons c cs ih =>
    obtain ⟨hc, hcs⟩ := List.forall_mem_cons.1 h
    obtain ⟨tokens, htokens, hroles⟩ := ih hcs (offset + 1)
    refine ⟨⟨.ofChar c, offset⟩ :: tokens, ?_, congrArg (_ :: ·) hroles⟩
    rw [tokensFrom_plain hc, htokens]
    rfl

/-- The text of groups within each other. -/
theorem exists_nested_tokensFrom_iff :
    (∃ tokens, tokensFrom offset cs = .ok tokens ∧ tokenRoles tokens = nested a b) ↔
      cs = List.replicate a '(' ++ List.replicate b ')' := by
  constructor
  · rintro ⟨tokens, htokens, hroles⟩
    have hsymbol : ∀ role ∈ tokenRoles tokens, role ≠ .symbol := fun role hrole =>
      ((onlyParens_nested a b).ne (hroles ▸ hrole)).1
    rw [tokenRoles_of_forall_ne htokens hsymbol] at hroles
    obtain ⟨front, back, rfl, hfront, hback⟩ := List.map_eq_append_iff.1 hroles
    obtain ⟨hlength, hfront⟩ := List.eq_replicate_iff.1 hfront
    obtain ⟨hlength', hback⟩ := List.eq_replicate_iff.1 hback
    rw [List.length_map] at hlength hlength'
    rw [List.forall_mem_map] at hfront hback
    congr 1
    · exact List.eq_replicate_iff.2
        ⟨hlength, fun c hc => role_ofChar_eq_opening_iff.1 (hfront c hc)⟩
    · exact List.eq_replicate_iff.2
        ⟨hlength', fun c hc => role_ofChar_eq_closing_iff.1 (hback c hc)⟩
  · rintro rfl
    have hplain : ∀ c ∈ List.replicate a '(' ++ List.replicate b ')', c ≠ '\\' := by
      rintro c hc rfl
      rcases List.mem_append.1 hc with hc | hc
      · exact absurd (List.eq_of_mem_replicate hc) (by decide)
      · exact absurd (List.eq_of_mem_replicate hc) (by decide)
    obtain ⟨tokens, htokens, hroles⟩ := exists_tokensFrom_of_forall_ne hplain offset
    refine ⟨tokens, htokens, hroles.trans ?_⟩
    rw [List.map_append, List.map_replicate, List.map_replicate]
    rfl

end Pattern

end Acceptors
