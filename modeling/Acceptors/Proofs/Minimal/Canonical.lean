import Mathlib.Logic.Equiv.Fin.Basic
import Acceptors.Proofs.Minimal.Minimized

/-!
# Minimization is a canonical form

In a trim automaton a state is known by the words that it accepts: any two states are told apart,
and each is reached by a word, which tells what it accepts from what the whole automaton accepts.
So the states of two trim automata for the same words are matched by their words. The match keeps
the start and the accepting states. It keeps the moves as well, because a move leads to a state that
accepts some word, which the matching state has to read by a move of its own.

Automata that accept nothing are minimized on another way, to a start state without moves.

Results:
* `Dfa.Renumbers`: one automaton is another up to the numbers of its states.
* `Dfa.Trim.exists_renumbers`: trim automata for the same words.
* `Automaton.minimize_canonical`: minimized automata for the same words.
-/

namespace Acceptors

namespace Dfa

variable {d e : Dfa} {s t s' t' : Nat} {x : String} {w : List String}

/-- The states of `d` and `e` correspond to each other: start to start and accepting states to
    accepting ones, and for every symbol, by its text, defined moves to defined moves and undefined
    ones to undefined ones. -/
structure Renumbers (d e : Dfa) (f : Fin d.size ≃ Fin e.size) : Prop where
  start : ∀ s : Fin d.size, s.val = d.start ↔ (f s).val = e.start
  accepting : ∀ s : Fin d.size, d.isAccepting s = e.isAccepting (f s)
  defined : ∀ (s t : Fin d.size) (x : String),
    d.next s x = some t.val ↔ e.next (f s) x = some (f t).val
  undefined : ∀ (s : Fin d.size) (x : String), d.next s x = none ↔ e.next (f s) x = none

/-- Automata that are the same up to the numbers of their states accept the same words. -/
theorem Renumbers.accepts_eq {f : Fin d.size ≃ Fin e.size} (h : d.Renumbers e f)
    (hd : d.WellFormed) : d.accepts w = e.accepts w := by
  have hstart : (f ⟨d.start, hd.start_lt⟩).val = e.start := (h.start ⟨d.start, hd.start_lt⟩).1 rfl
  rw [accepts, accepts, ← hstart]
  refine acceptsFrom_eq_of_simulation (R := fun s t => ∃ hs, (f ⟨s, hs⟩).val = t) ?_ ?_
    ⟨hd.start_lt, rfl⟩
  · rintro s _ ⟨hs, rfl⟩
    exact h.accepting ⟨s, hs⟩
  · rintro s _ ⟨hs, rfl⟩ x
    cases hnext : d.next s x with
    | some r =>
      have hr := hd.next_lt hnext
      exact .inl ⟨r, f ⟨r, hr⟩, rfl, (h.defined ⟨s, hs⟩ ⟨r, hr⟩ x).1 hnext, hr, rfl⟩
    | none =>
      have hnone := (h.undefined ⟨s, hs⟩ x).1 hnext
      refine .inr ⟨fun r hr => ?_, fun r hr => ?_⟩
      · cases hr
      · cases hnone.symm.trans hr

/-! ## Trim automata -/

/-- A state of a trim automaton is known by its words. -/
theorem Trim.eq_of_same (hd : d.Trim) (hs : s < d.size) (ht : t < d.size) (h : d.Same s t) :
    s = t := by
  by_contra hne
  obtain ⟨v, hv⟩ := hd.separated s hs t ht hne
  exact hv (h v)

/-- If two states accept the same words, a move of the one to a state with some word is answered by
    a move of the other, to the state with the words of the first one's target. -/
theorem Trim.next_eq_of_next (hd : d.Trim) (hd' : d.WellFormed) (he : e.Trim) (he' : e.WellFormed)
    (hs : ∀ v, d.acceptsFrom s v = e.acceptsFrom s' v)
    (ht : ∀ v, d.acceptsFrom t v = e.acceptsFrom t' v) (hlt : t' < e.size)
    (hnext : d.next s x = some t) : e.next s' x = some t' := by
  have hwords : ∀ v, d.acceptsFrom t v = (e.next s' x).any fun r => e.acceptsFrom r v := by
    intro v
    rw [← acceptsFrom_cons, ← hs, acceptsFrom_cons, hnext]
    rfl
  obtain ⟨u, hu⟩ := hd.productive t (hd'.next_lt hnext)
  rw [hwords, Option.any_eq_true] at hu
  obtain ⟨r, hr, -⟩ := hu
  have hsame : e.Same r t' := by
    intro v
    rw [← ht, hwords, hr]
    rfl
  rw [hr, he.eq_of_same (he'.next_lt hr) hlt hsame]

/-- Trim automata for the same words are the same up to the numbers of their states. -/
theorem Trim.exists_renumbers (hd : d.Trim) (hd' : d.WellFormed) (he : e.Trim) (he' : e.WellFormed)
    (h : ∀ w, d.accepts w = e.accepts w) : ∃ f, d.Renumbers e f := by
  have hright : ∀ s : Fin d.size, ∃ t : Fin e.size, ∀ v, d.acceptsFrom s v = e.acceptsFrom t v :=
    fun s => hd.exists_same he' (fun w => (h w).symm) s.isLt
  have hleft : ∀ t : Fin e.size, ∃ s : Fin d.size, ∀ v, e.acceptsFrom t v = d.acceptsFrom s v :=
    fun t => he.exists_same hd' h t.isLt
  choose f hf using hright
  choose g hg using hleft
  have hgf : ∀ s : Fin d.size, g (f s) = s := fun s =>
    Fin.ext (hd.eq_of_same (g (f s)).isLt s.isLt fun v => by rw [← hg, ← hf])
  have hfg : ∀ t : Fin e.size, f (g t) = t := fun t =>
    Fin.ext (he.eq_of_same (f (g t)).isLt t.isLt fun v => by rw [← hf, ← hg])
  have hdefined : ∀ (s t : Fin d.size) (x : String),
      d.next s x = some t.val ↔ e.next (f s) x = some (f t).val := by
    intro s t x
    constructor
    · exact hd.next_eq_of_next hd' he he' (hf s) (hf t) (f t).isLt
    · exact he.next_eq_of_next he' hd hd' (fun v => (hf s v).symm) (fun v => (hf t v).symm) t.isLt
  have hstart : f ⟨d.start, hd'.start_lt⟩ = ⟨e.start, he'.start_lt⟩ :=
    Fin.ext (he.eq_of_same (f _).isLt he'.start_lt fun v => (hf _ v).symm.trans (h v))
  refine ⟨⟨f, g, hgf, hfg⟩, fun s => ?_, fun s => hf s [], hdefined, fun s x => ?_⟩
  · have hinjective : Function.Injective f := Function.LeftInverse.injective hgf
    show s.val = d.start ↔ (f s).val = e.start
    rw [← Fin.val_mk hd'.start_lt, ← Fin.val_mk he'.start_lt, ← hstart, ← Fin.ext_iff,
      ← Fin.ext_iff, hinjective.eq_iff]
  · -- a move that only one of the two states has would lead to a state that corresponds to none
    show d.next s x = none ↔ e.next (f s) x = none
    simp only [Option.eq_none_iff_forall_ne_some]
    constructor
    · intro hnone r hr
      have hlt := he'.next_lt hr
      refine hnone (g ⟨r, hlt⟩) ((hdefined s (g ⟨r, hlt⟩) x).2 ?_)
      rw [hfg, hr]
    · intro hnone r hr
      exact hnone _ ((hdefined s ⟨r, hd'.next_lt hr⟩ x).1 hr)

/-! ## Minimized automata -/

theorem renumbers_new {alphabet alphabet' : Alphabet} {name name' : String} :
    (new alphabet name).Renumbers (new alphabet' name') (finCongr (size_new.trans size_new.symm))
    where
  start _ := Iff.rfl
  accepting _ := rfl
  defined s t x := by rw [next_new, next_new]; simp
  undefined s x := by rw [next_new, next_new]

/-- Automata accept the same words exactly when they are minimized to the same automaton, up to the
    numbers of the states. -/
theorem WellFormed.accepts_eq_iff_exists_renumbers (hd : d.WellFormed) (he : e.WellFormed)
    (config config' : Config) :
    (∀ w, d.accepts w = e.accepts w) ↔
      ∃ f, (d.minimize config).Renumbers (e.minimize config') f := by
  constructor
  · intro h
    rcases d.accepts_some_or_none with ⟨w, hw⟩ | hnone
    · have hd' := hd.trim_minimize config hw
      have he' := he.trim_minimize config' ((h w).symm.trans hw)
      refine hd'.exists_renumbers (hd.minimize config) he' (he.minimize config') fun v => ?_
      rw [hd.accepts_minimize, he.accepts_minimize, h]
    · rw [hd.minimize_eq_new config hnone,
        he.minimize_eq_new config' fun w => (h w).symm.trans (hnone w)]
      exact ⟨_, renumbers_new⟩
  · rintro ⟨f, hf⟩ w
    rw [← hd.accepts_minimize config, ← he.accepts_minimize config',
      hf.accepts_eq (hd.minimize config)]

end Dfa

namespace Automaton

variable {a b : Automaton}

/-- Automata of either kind accept the same words exactly when they are minimized to the same
    automaton, up to the numbers of the states, whatever the names of their states, the order of
    their symbols and the settings. -/
theorem minimize_canonical (ha : a.WellFormed) (hb : b.WellFormed) (config config' : Config) :
    (∀ w, a.accepts w = b.accepts w) ↔
      ∃ f, (a.minimize config).Renumbers (b.minimize config') f := by
  rw [Automaton.minimize, Automaton.minimize,
    ← (ha.toDfa config).accepts_eq_iff_exists_renumbers (hb.toDfa config') config config']
  simp only [ha.accepts_toDfa, hb.accepts_toDfa]

/-- A nondeterministic automaton with epsilon moves, and a deterministic one for the same words with
    its columns in another order. -/
theorem minimize_canonical_columns :
    let n := ((Nfa.new ⟨["a", "b"], by decide⟩ "p").addState "q").addMove 0 0 1
    let a : Automaton := (n.setAccepting 1 true).star {}
    let b : Automaton := (a.toDfa {}).widen ⟨["b", "a"], by decide⟩
    let config : Config := { dfaPrefix := "p", sinkName := "p" }
    ∃ f, (a.minimize {}).Renumbers (b.minimize config) f := by
  intro n a b config
  have hn : n.WellFormed := (Nfa.wellFormed_new.addState _).addMove 0 0 (by decide)
  have ha : a.WellFormed := (hn.setAccepting (by decide) true).star
  have hd := ha.toDfa {}
  have hb : b.WellFormed := hd.widen _
  have hsub : ∀ x ∈ (a.toDfa {}).alphabet, x ∈ (⟨["b", "a"], by decide⟩ : Alphabet) := by
    intro x hx
    rw [alphabet_toDfa] at hx
    have hx' : x ∈ ["a", "b"] := hx
    show x ∈ ["b", "a"]
    simpa [or_comm] using hx'
  have hwords : ∀ w, b.accepts w = (a.toDfa {}).accepts w := fun w => hd.accepts_widen hsub
  refine (minimize_canonical ha hb {} config).1 fun w => ?_
  rw [hwords, ha.accepts_toDfa {}]

end Automaton

end Acceptors
