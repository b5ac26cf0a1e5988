import Acceptors.Proofs.InRange
import Acceptors.Proofs.Intersection
import Acceptors.Proofs.Loaded
import Acceptors.Proofs.Minimal.Minimized

/-!
# Every automaton that can be built is well-formed

Automata come into being in many ways: state by state and move by move, by the operations on
automata of one kind or the other, and from patterns, tables, grammars and other sources. Each way
keeps all parts of an automaton in step, as long as numbers of states and columns are only passed on
where there are such states and columns. So whatever is done in whatever order, every automaton
has a row for each state and a column for each symbol, names only states that exist, and is read
within its tables.

The operations that work in several steps build automata on the way. The steps are counted among
the operations here, so that what is true of every automaton that is built is also true within an
operation.

Results:
* `Automaton.Built`: the automata that can be built.
* `Automaton.Built.wellFormed`: they are well-formed.
* `Automaton.built_inRange`: the invariant in full.
-/

namespace Acceptors

namespace Automaton

/-- What the operations build from what they have built before, in any order and number. A state or
    a column that is passed to an operation is one of the automaton. -/
inductive Built : Automaton → Prop
  -- step by step
  | newNfa (alphabet : Alphabet) (name : String) : Built (nfa (.new alphabet name))
  | newDfa (alphabet : Alphabet) (name : String) : Built (dfa (.new alphabet name))
  | addStateNfa {n : Nfa} (name : String) : Built (nfa n) → Built (nfa (n.addState name))
  | addStateDfa {d : Dfa} (name : String) : Built (dfa d) → Built (dfa (d.addState name))
  | addMove {n : Nfa} {source column target : Nat} : Built (nfa n) → source < n.size →
      column < n.alphabet.size → target < n.size → Built (nfa (n.addMove source column target))
  | addEpsilon {n : Nfa} {source target : Nat} : Built (nfa n) → source < n.size →
      target < n.size → Built (nfa (n.addEpsilon source target))
  | setMove {d : Dfa} {source column : Nat} {target : Option Nat} : Built (dfa d) →
      source < d.size → column < d.alphabet.size → (∀ t, target = some t → t < d.size) →
      Built (dfa (d.setMove source column target))
  | setStartNfa {n : Nfa} {state : Nat} : Built (nfa n) → state < n.size →
      Built (nfa (n.setStart state))
  | setStartDfa {d : Dfa} {state : Nat} : Built (dfa d) → state < d.size →
      Built (dfa (d.setStart state))
  | setAcceptingNfa {n : Nfa} {state : Nat} (accepts : Bool) : Built (nfa n) → state < n.size →
      Built (nfa (n.setAccepting state accepts))
  | setAcceptingDfa {d : Dfa} {state : Nat} (accepts : Bool) : Built (dfa d) → state < d.size →
      Built (dfa (d.setAccepting state accepts))
  -- from one kind to the other
  | toNfa {a : Automaton} : Built a → Built (nfa a.toNfa)
  | toDfa {a : Automaton} (config : Config) : Built a → Built (dfa (a.toDfa config))
  | ofToDfa {n : Nfa} {d : Dfa} : Built (nfa n) → n.toDfa? = .ok d → Built (dfa d)
  | eliminateEpsilon {n : Nfa} : Built (nfa n) → Built (nfa n.eliminateEpsilon)
  | determinize {n : Nfa} (config : Config) : Built (nfa n) → Built (dfa (n.determinize config))
  -- operations
  | complement {a : Automaton} (config : Config) : Built a → Built (dfa (a.complement config))
  | union {a b : Automaton} (config : Config) : Built a → Built b →
      Built (nfa (a.union config b))
  | concat {a b : Automaton} : Built a → Built b → Built (nfa (a.concat b))
  | star {a : Automaton} (config : Config) : Built a → Built (nfa (a.star config))
  | inter {a b : Automaton} (config : Config) : Built a → Built b →
      Built (dfa (a.inter config b))
  | minimize {a : Automaton} (config : Config) : Built a → Built (dfa (a.minimize config))
  | complete {d : Dfa} (sinkName : String) : Built (dfa d) → Built (dfa (d.complete sinkName))
  | restrict {d : Dfa} {keep : StateSet} : Built (dfa d) → (∀ s ∈ keep, s < d.size) →
      d.start ∈ keep → Built (dfa (d.restrict keep))
  -- steps of operations
  | widenNfa {n : Nfa} {alphabet : Alphabet} : Built (nfa n) → (∀ x ∈ n.alphabet, x ∈ alphabet) →
      Built (nfa (n.widen alphabet))
  | widenDfa {d : Dfa} {alphabet : Alphabet} : Built (dfa d) → (∀ x ∈ d.alphabet, x ∈ alphabet) →
      Built (dfa (d.widen alphabet))
  | join {l r : Nfa} : Built (nfa l) → Built (nfa r) → Built (nfa (l.join r))
  | merge {d : Dfa} : Built (dfa d) → d.isComplete = true → Built (dfa d.merge)
  | prune {d : Dfa} : Built (dfa d) → Built (dfa d.prune)
  -- from patterns, numbers and descriptions
  | compile {k : Compiler} {pattern : String} {n : Nfa} : (k.compile pattern).1 = .ok n →
      Built (nfa n)
  | multiplesOf {number base : Nat} {d : Dfa} : Dfa.multiplesOf number base = .ok d → Built (dfa d)
  | load {config : Config} {text : String} {n : Nfa} : Table.load config text = .ok n →
      Built (nfa n)
  | ofGrammar {g : Grammar} {config : Config} {n : Nfa} : g.toNfa config = .ok n → Built (nfa n)
  | build {builder : Builder} {n : Nfa} : builder.build = .ok n → Built (nfa n)

variable {a : Automaton}

/-- One operation after the other, automata stay well-formed. -/
theorem Built.wellFormed (h : a.Built) : a.WellFormed := by
  induction h with
  | newNfa => exact Nfa.wellFormed_new
  | newDfa => exact Dfa.wellFormed_new
  | addStateNfa name _ ih => exact Nfa.WellFormed.addState ih name
  | addStateDfa name _ ih => exact Dfa.WellFormed.addState ih name
  | addMove _ _ _ htarget ih => exact Nfa.WellFormed.addMove ih _ _ htarget
  | addEpsilon _ _ htarget ih => exact Nfa.WellFormed.addEpsilon ih _ htarget
  | setMove _ _ _ htarget ih => exact Dfa.WellFormed.setMove ih _ _ htarget
  | setStartNfa _ hstate ih => exact Nfa.WellFormed.setStart ih hstate
  | setStartDfa _ hstate ih => exact Dfa.WellFormed.setStart ih hstate
  | setAcceptingNfa accepts _ hstate ih => exact Nfa.WellFormed.setAccepting ih hstate accepts
  | setAcceptingDfa accepts _ hstate ih => exact Dfa.WellFormed.setAccepting ih hstate accepts
  | toNfa _ ih => exact WellFormed.toNfa ih
  | toDfa config _ ih => exact WellFormed.toDfa ih config
  | ofToDfa _ h ih => exact Nfa.WellFormed.toDfa? ih h
  | eliminateEpsilon _ ih => exact Nfa.WellFormed.eliminateEpsilon ih
  | determinize config _ _ => exact Nfa.wellFormed_determinize
  | complement config _ ih => exact WellFormed.complement ih config
  | union config _ _ iha ihb => exact WellFormed.union iha ihb config
  | concat _ _ iha ihb => exact WellFormed.concat iha ihb
  | star config _ ih => exact WellFormed.star ih config
  | inter config _ _ iha ihb => exact WellFormed.inter iha ihb config
  | minimize config _ ih => exact WellFormed.minimize ih config
  | complete sinkName _ ih => exact Dfa.WellFormed.complete ih sinkName
  | restrict _ _ hstart ih => exact Dfa.WellFormed.restrict ih hstart
  | widenNfa _ _ ih => exact Nfa.WellFormed.widen ih _
  | widenDfa _ _ ih => exact Dfa.WellFormed.widen ih _
  | join _ _ ihl ihr => exact Nfa.WellFormed.join ihl ihr
  | merge _ hcomplete ih => exact Dfa.WellFormed.merge ih hcomplete
  | prune _ ih => exact Dfa.WellFormed.prune ih
  | compile h => exact Compiler.wellFormed_of_compile h
  | multiplesOf h => exact Dfa.wellFormed_of_multiplesOf h
  | load h => exact Table.wellFormed_of_load h
  | ofGrammar h => exact Grammar.wellFormed_of_toNfa h
  | build h => exact Builder.wellFormed_of_build h

/-- An automaton that is built has a state, and the start and the accepting states are among its
    states; its symbols are distinct, and so are its names, by which the states are found. Its
    tables have a row for each state and a column for each symbol, all targets are states, and the
    operations read the tables only where they have entries. -/
theorem built_inRange (h : a.Built) :
    (0 < a.names.size ∧ a.start < a.names.size ∧
      ∀ s, a.isAccepting s = true → s < a.names.size) ∧
    (a.alphabet.symbols.Nodup ∧ a.names.toList.Nodup ∧
      ∀ s < a.names.size, a.names.idOf? (a.names.name s) = some s) ∧
    (∀ n, a = nfa n → n.moves.HasShape n.size n.alphabet.size ∧ n.epsilon.size = n.size ∧
      (∀ s c, ∀ t ∈ n.targets s c, t < n.size) ∧
      (∀ s, ∀ t ∈ n.epsilonTargets s, t < n.size) ∧ n.InRange) ∧
    ∀ d, a = dfa d → d.moves.HasShape d.size d.alphabet.size ∧
      (∀ s c t, d.move s c = some t → t < d.size) ∧ d.InRange := by
  have hwell := h.wellFormed
  have hstates : a.start < a.names.size ∧ ∀ s, a.isAccepting s = true → s < a.names.size := by
    cases a with
    | nfa n =>
      have hn : n.WellFormed := hwell
      exact ⟨hn.start_lt, hn.accepting_lt⟩
    | dfa d =>
      have hd : d.WellFormed := hwell
      exact ⟨hd.start_lt, hd.accepting_lt⟩
  refine ⟨⟨Nat.zero_lt_of_lt hstates.1, hstates⟩, ⟨a.alphabet.nodup, a.names.nodup_toList,
    fun s => StateNames.idOf?_name⟩, ?_, ?_⟩
  · rintro n rfl
    have hn : n.WellFormed := hwell
    exact ⟨hn.shape, hn.epsilon_size, hn.targets_lt, hn.epsilonTargets_lt, hn.inRange⟩
  · rintro d rfl
    have hd : d.WellFormed := hwell
    exact ⟨hd.shape, hd.move_lt, hd.inRange⟩

/-- An automaton with two states of one name, made by hand, and the multiples of three; their
    intersection, minimized. -/
theorem built_inRange_multiples :
    let n := (((Nfa.new (.single "0") "p").addState "p").addMove 0 0 1).addEpsilon 1 0
    let a : Automaton := n.setAccepting 1 true
    let both : Automaton := a.inter {} (Dfa.remainders 3 2)
    let m := both.minimize {}
    m.start < m.size ∧ m.names.toList.Nodup ∧ m.moves.HasShape m.size m.alphabet.size ∧
      m.InRange := by
  intro n a both m
  have hstates : Built (nfa ((Nfa.new (.single "0") "p").addState "p")) :=
    .addStateNfa "p" (.newNfa (.single "0") "p")
  have hmoves : Built (nfa n) :=
    .addEpsilon (.addMove hstates (by decide) (by decide) (by decide)) (by decide) (by decide)
  have ha : Built a := .setAcceptingNfa true hmoves (by decide)
  have hb : Built (Dfa.remainders 3 2) := @Built.multiplesOf 3 2 _ rfl
  have hboth : Built both := .inter {} ha hb
  obtain ⟨⟨-, hstart, -⟩, ⟨-, hnames, -⟩, -, hdfa⟩ := built_inRange (hboth.minimize {})
  obtain ⟨hshape, -, hrange⟩ := hdfa m rfl
  exact ⟨hstart, hnames, hshape, hrange⟩

end Automaton

end Acceptors
