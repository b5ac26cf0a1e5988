/-!
# What can go wrong inside the algebra

Every operation that may refuse its input answers with one of the causes below. A cause carries what
the user needs to find the place: the offset in a pattern counted in characters, the offending
symbol, the name of a state.

Results:
* `Except.bind_eq_ok_iff`, `Except.map_eq_ok_iff`, `Except.mapError_eq_ok_iff`: a result that is
  made in steps is there exactly if all steps succeed.
* `Except.bind_eq_error_iff`, `Except.map_eq_error_iff`, `Except.mapError_eq_error_iff`: the error
  of the first step that does not.
* `mapM_eq_pure_map`: steps that all succeed give the list of their results.
-/

namespace Acceptors

/-- The reasons for which an alphabet, a pattern, a conversion or a divisibility automaton is
    refused. -/
inductive Error where
  /-- The parenthesis at this offset of the pattern has no partner. -/
  | unbalancedParenthesis (offset : Nat)
  /-- The operator at this offset of the pattern has too few operands. -/
  | missingOperand (offset : Nat)
  /-- The backslash at this offset is the last character of the pattern. -/
  | danglingEscape (offset : Nat)
  /-- The pattern describes no automaton at all. -/
  | emptyPattern
  /-- Evaluation of a pattern ended with this many automata instead of one. -/
  | leftover (count : Nat)
  /-- The symbol occurs twice in one alphabet. -/
  | duplicateSymbol (symbol : String)
  /-- The symbol is not in the alphabet. -/
  | unknownSymbol (symbol : String)
  /-- The named state has an epsilon move or several targets on one symbol. -/
  | notDeterministic (state : String)
  /-- Multiples of zero were asked for. -/
  | zeroNumber
  /-- The base has fewer than two digits or more than sixteen. -/
  | baseOutOfRange (base : Nat)
  deriving DecidableEq

namespace Error

/-- The sentence shown to the user (`fmt`). -/
def message : Error → String
  | unbalancedParenthesis offset => s!"unbalanced parenthesis at offset {offset}"
  | missingOperand offset => s!"operator at offset {offset} is missing an operand"
  | danglingEscape offset => s!"escape at offset {offset} has nothing to escape"
  | emptyPattern => "pattern is empty"
  | leftover count => s!"internal error: {count} automata left after evaluation"
  | duplicateSymbol symbol => s!"duplicate symbol: {symbol}"
  | unknownSymbol symbol => s!"symbol not in alphabet: {symbol}"
  | notDeterministic state => s!"state {state} is not deterministic"
  | zeroNumber => "invalid parameter: number must be positive"
  | baseOutOfRange base => s!"invalid parameter: base {base} is outside 2..=16"

end Error

/-! ## Results made in steps -/

/-- Steps that all succeed give the list of their results. -/
theorem mapM_eq_pure_map {m : Type → Type} [Monad m] [LawfulMonad m] {α β : Type} {f : α → m β}
    {f' : α → β} {l : List α} (h : ∀ a ∈ l, f a = pure (f' a)) : l.mapM f = pure (l.map f') := by
  induction l with
  | nil => rfl
  | cons a l ih =>
    obtain ⟨ha, h⟩ := List.forall_mem_cons.1 h
    rw [List.mapM_cons, ha, pure_bind, ih h, pure_bind, List.map_cons]

namespace Except

variable {α β ε ε' : Type} {x : Except ε α}

theorem bind_eq_ok_iff {f : α → Except ε β} {b : β} :
    (x >>= f) = .ok b ↔ ∃ a, x = .ok a ∧ f a = .ok b := by
  cases x with
  | error e => exact iff_of_false nofun fun ⟨_, h, _⟩ => nomatch h
  | ok a => exact ⟨fun h => ⟨a, rfl, h⟩, fun ⟨_, ha, h⟩ => Except.ok.inj ha ▸ h⟩

theorem bind_eq_error_iff {f : α → Except ε β} {e : ε} :
    (x >>= f) = .error e ↔ x = .error e ∨ ∃ a, x = .ok a ∧ f a = .error e := by
  cases x with
  | error e' =>
    constructor
    · exact fun h => .inl (congrArg _ (Except.error.inj h))
    · rintro (h | ⟨a, h, -⟩)
      · cases h
        rfl
      · cases h
  | ok a =>
    constructor
    · exact fun h => .inr ⟨a, rfl, h⟩
    · rintro (h | ⟨a', h, h'⟩)
      · cases h
      · cases h
        exact h'

theorem map_eq_ok_iff {f : α → β} {b : β} : x.map f = .ok b ↔ ∃ a, x = .ok a ∧ f a = b := by
  cases x with
  | error e => exact iff_of_false nofun fun ⟨_, h, _⟩ => nomatch h
  | ok a => simp [Except.map]

theorem mapError_eq_ok_iff {f : ε → ε'} {a : α} : x.mapError f = .ok a ↔ x = .ok a := by
  cases x with
  | error e => exact iff_of_false nofun nofun
  | ok b => exact ⟨fun h => congrArg _ (Except.ok.inj h), fun h => congrArg _ (Except.ok.inj h)⟩

theorem map_eq_error_iff {f : α → β} {e : ε} : x.map f = .error e ↔ x = .error e := by
  cases x with
  | error e' => simp [Except.map]
  | ok a => exact iff_of_false nofun nofun

theorem mapError_eq_error_iff {f : ε → ε'} {e' : ε'} :
    x.mapError f = .error e' ↔ ∃ e, x = .error e ∧ f e = e' := by
  cases x with
  | error e =>
    constructor
    · exact fun h => ⟨e, rfl, Except.error.inj h⟩
    · rintro ⟨_, h, rfl⟩
      cases h
      rfl
  | ok a => exact iff_of_false nofun fun ⟨_, h, _⟩ => nomatch h

end Except

end Acceptors
