import Acceptors.Proofs.Pattern.Compiled

/-!
# Runs of stars and pluses, and groups in their place

By the grammar a run of stars and pluses means the same as if each operator stood alone after a
group, `(… (operand op₁) …) opₖ`. A plus takes its whole operand, with all the stars before it. But
a star after a plus repeats only the last factor that the plus has written: `a+*` is written out as
`aa**`, which asks for one symbol, while `(a+)*` asks for none.

Results:
* `Pattern.grouped_reads`: with groups in place of the run, every operator applies to all before it.
* `Compiler.run_accepts_eq_grouped_iff`: the exact condition under which the run and the groups are
  compiled to the same language.
* `Compiler.plus_star_rejects_nil`: a run for which they are not.
-/

namespace Acceptors

namespace Pattern

variable {cs : List Char} {ts : List Token} {r : Regex} {L : Language String}

/-- A text with postfix operators after it, where each but the first stands after a group of all
    that comes before: `(… (cs op₁) …) opₖ`. -/
def grouped (cs : List Char) : List Postfix → List Char
  | [] => cs
  | op :: ops => ops.foldl (fun cs op => '(' :: cs ++ [')'] ++ [op.char]) (cs ++ [op.char])

/-- One operator after an operand applies to the operand. -/
theorem Reads.single (h : Reads .atom r L ts) (op : Postfix) :
    Reads .repeated (op.regex r) (op.apply L) (ts ++ [op.token]) := h.run [op]

/-- With groups in place of a run, every operator applies to all that comes before it. -/
theorem grouped_reads (hcs : Spells cs ts) (h : Reads .atom r L ts) (ops : List Postfix) :
    ∃ us, Spells (grouped cs ops) us ∧
      Reads .repeated (ops.foldl (fun s op => op.regex s) r) (ops.foldl (fun L op => op.apply L) L)
        us := by
  have hgroups : ∀ (ops : List Postfix) {cs ts r L}, Spells cs ts → Reads .repeated r L ts →
      ∃ us, Spells (ops.foldl (fun cs op => '(' :: cs ++ [')'] ++ [op.char]) cs) us ∧
        Reads .repeated (ops.foldl (fun s op => op.regex s) r)
          (ops.foldl (fun L op => op.apply L) L) us := by
    intro ops
    induction ops with
    | nil => exact fun hcs h => ⟨_, hcs, h⟩
    | cons op ops ih =>
      exact fun hcs h => ih (hcs.group.append (spells_postfixChar op))
        (h.ofRepeated.ofSequence.group.single op)
  cases ops with
  | nil => exact ⟨ts ++ [], by rwa [List.append_nil], h.run []⟩
  | cons op ops => exact hgroups ops (hcs.append (spells_postfixChar op)) (h.single op)

end Pattern

namespace Compiler

open Pattern

variable {r : Regex} {operand : List Char}

/-- What is read on the level of a factor is a whole pattern as well. -/
theorem compile_of_repeated (k : Compiler) {cs : List Char} {ts : List Token} {L : Language String}
    (hcs : Spells cs ts) (h : Reads .repeated r L ts) :
    ∃ n, (k.compile (String.ofList cs)).1 = .ok n ∧ n.WellFormed ∧ n.language = L := by
  refine k.compile_of_reads ?_ h.ofRepeated.ofSequence
  rwa [String.toList_ofList]

/-- A run of stars and pluses is compiled to the language of the groups in its place, unless it
    begins with a plus, contains a star, and its operand does not accept the empty word. -/
theorem run_accepts_eq_grouped_iff (h : Writes .atom r operand) (ops : List Postfix)
    (k k' k'' : Compiler) :
    ∃ p n m, (k.compile (String.ofList operand)).1 = .ok p ∧
      (k'.compile (String.ofList (operand ++ ops.map Postfix.char))).1 = .ok n ∧
      (k''.compile (String.ofList (grouped operand ops))).1 = .ok m ∧
      ((∀ w, n.accepts w = m.accepts w) ↔
        (ops.head? = some .plus ∧ .star ∈ ops → p.accepts [] = true)) := by
  obtain ⟨L, ts, hspells, hreads⟩ := h.reads
  obtain ⟨us, hspells', hreads'⟩ := grouped_reads hspells hreads ops
  obtain ⟨p, hp, hpwf, hplang⟩ := k.compile_of_repeated (hspells.append spells_nil) (hreads.run [])
  obtain ⟨n, hn, hnwf, hnlang⟩ :=
    k'.compile_of_repeated (hspells.append (spells_postfixes ops)) (hreads.run ops)
  obtain ⟨m, hm, hmwf, hmlang⟩ := k''.compile_of_repeated hspells' hreads'
  rw [List.append_nil] at hp
  refine ⟨p, n, m, hp, hn, hm, ?_⟩
  have hwords : (∀ w, n.accepts w = m.accepts w) ↔ n.language = m.language := by
    simp only [Language.ext_iff, Bool.eq_iff_iff, hnwf.accepts_iff, hmwf.accepts_iff]
  rw [hwords, hnlang, hmlang, Postfix.applyRun_eq_foldl_iff, hpwf.accepts_iff, hplang]
  rfl

/-- A plus and a star after a symbol. -/
theorem run_accepts_eq_grouped_iff_plus_star :
    ∃ p n m, (({} : Compiler).compile "a").1 = .ok p ∧ (({} : Compiler).compile "a+*").1 = .ok n ∧
      (({} : Compiler).compile "(a+)*").1 = .ok m ∧
      ((∀ w, n.accepts w = m.accepts w) ↔
        ([Postfix.plus, .star].head? = some .plus ∧ .star ∈ [Postfix.plus, .star] →
          p.accepts [] = true)) :=
  have ha : Writes .atom (.symbol 'a') ['a'] := .plain (by decide) (by decide)
  run_accepts_eq_grouped_iff ha [.plus, .star] {} {} {}

/-- The run `a+*` asks for a symbol, but the groups `(a+)*` do not. -/
theorem plus_star_rejects_nil :
    ∃ n m, (({} : Compiler).compile "a+*").1 = .ok n ∧ (({} : Compiler).compile "(a+)*").1 = .ok m ∧
      n.accepts [] = false ∧ m.accepts [] = true := by
  refine ⟨_, _, rfl, rfl, ?_, ?_⟩ <;> decide

end Compiler

end Acceptors
