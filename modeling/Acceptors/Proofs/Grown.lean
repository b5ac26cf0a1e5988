import Acceptors.Proofs.Dfa.Copied
import Acceptors.Proofs.Table.RoundTrip

/-!
# Automata that grow with a listing

An automaton can be made while it is described. A state is added when its name is mentioned for the
first time, and a move or an accepting state when it is listed. After each step there is the
automaton of what has been listed so far, as long as nothing is listed before it is mentioned.

Results:
* `Listing.Closed`: whatever is listed is mentioned.
* `Listing.Closed.stateNamed_toNfa`, `Listing.addEdge_toNfa`, `Listing.setAccepting_toNfa`: what one
  step adds to a listing.
* `Listing.new_eq_toNfa`: the listing that everything begins with.
-/

namespace Acceptors

/-! ## Named states and moves -/

namespace Nfa

/-- The number of the state of a name (`state_named`). The state is added if there is none. -/
def stateNamed (n : Nfa) (x : String) : Nfa × Nat :=
  match n.idOf? x with
  | some s => (n, s)
  | none => (n.addState x, n.size)

/-- Adds a move on the symbol of a column, or an epsilon move. -/
def addEdge (n : Nfa) (s : Nat) (column : Option Nat) (t : Nat) : Nfa :=
  match column with
  | some c => n.addMove s c t
  | none => n.addEpsilon s t

open Table (targetsOn)

variable {n m : Nfa} {s t source target : Nat} {column on : Option Nat}

/-- The column of a symbol, or none. -/
def HasColumn (n : Nfa) (column : Option Nat) : Prop := ∀ c ∈ column, c < n.alphabet.size

theorem hasColumn_some {x : String} {c : Nat} (hc : n.alphabet.idxOf? x = some c) :
    n.HasColumn (some c) := by
  rintro _ ⟨⟩
  exact Alphabet.lt_size_of_idxOf? hc

theorem mem_targetsOn_addEdge (hn : n.WellFormed) :
    t ∈ targetsOn (n.addEdge source on target) s column ↔
      t ∈ targetsOn n s column ∨
        (source < n.size ∧ n.HasColumn on) ∧ s = source ∧ column = on ∧ t = target := by
  cases on with
  | none =>
    have hsource : source < n.epsilon.size ↔ source < n.size := by rw [hn.epsilon_size]
    cases column with
    | none =>
      refine mem_epsilonTargets_addEpsilon.trans ?_
      simp [targetsOn, HasColumn, hsource]
    | some c => simp [targetsOn, addEdge, addEpsilon, targets]
  | some d =>
    cases column with
    | none => simp [targetsOn, addEdge, addMove, epsilonTargets]
    | some c =>
      refine (mem_targets_addMove hn).trans ?_
      simp [targetsOn, HasColumn]

theorem WellFormed.addEdge (hn : n.WellFormed) (s : Nat) (column : Option Nat) (ht : t < n.size) :
    (n.addEdge s column t).WellFormed := by
  cases column with
  | none => exact hn.addEpsilon s ht
  | some c => exact hn.addMove s c ht

theorem alphabet_addEdge : (n.addEdge s column t).alphabet = n.alphabet := by
  cases column <;> rfl

theorem names_addEdge : (n.addEdge s column t).names = n.names := by
  cases column <;> rfl

theorem start_addEdge : (n.addEdge s column t).start = n.start := by
  cases column <;> rfl

theorem accepting_addEdge : (n.addEdge s column t).accepting = n.accepting := by
  cases column <;> rfl

/-- A name that has been made free is not changed when it is added. -/
theorem addState_fresh (n : Nfa) (x : String) : n.addState (n.names.fresh x) = n.addState x := by
  have hfresh := StateNames.fresh_of_not_mem (n.names.fresh_not_mem x)
  simp only [addState, StateNames.insert, hfresh]

/-- Automata with the same states, moves and accepting states are equal. -/
theorem WellFormed.eq_of_targetsOn (hn : n.WellFormed) (hm : m.WellFormed)
    (halphabet : n.alphabet = m.alphabet) (hnames : n.names = m.names) (hstart : n.start = m.start)
    (htargets : ∀ s column t, t ∈ targetsOn n s column ↔ t ∈ targetsOn m s column)
    (haccepting : ∀ s, s ∈ n.accepting ↔ s ∈ m.accepting) : n = m :=
  hn.eq_of_targets hm halphabet hnames (fun s c t => htargets s (some c) t)
    (fun s t => htargets s none t) hstart (StateSet.ext haccepting)

end Nfa

/-! ## Longer listings -/

namespace Listing

open Table (targetsOn)

variable {l : Listing} {x y : String} {s t c : Nat} {column : Option Nat}

/-- The listing with more mentions, edges and accepting states at its end. -/
def append (l : Listing) (mentions : List String) (edges : List Edge) (accepting : List String) :
    Listing :=
  { l with
    mentions := l.mentions ++ mentions
    edges := l.edges ++ edges
    accepting := l.accepting ++ accepting }

theorem append_append {mentions mentions' : List String} {edges edges' : List Edge}
    {accepting accepting' : List String} :
    (l.append mentions edges accepting).append mentions' edges' accepting' =
      l.append (mentions ++ mentions') (edges ++ edges') (accepting ++ accepting') := by
  simp only [append, List.append_assoc]

theorem append_nil : l.append [] [] [] = l := by
  simp only [append, List.append_nil]

/-- Whatever has a move or accepts is mentioned. -/
structure Closed (l : Listing) : Prop where
  source : ∀ e ∈ l.edges, e.source ∈ l.names.toList
  target : ∀ e ∈ l.edges, e.target ∈ l.names.toList
  accepting : ∀ x ∈ l.accepting, x ∈ l.names.toList

theorem names_append : (l.append [x] [] []).names = l.names.mention x := by
  show (l.start :: (l.mentions ++ [x])).foldl StateNames.mention .empty = _
  rw [← List.cons_append, List.foldl_append]
  rfl

theorem mem_names_append {edges : List Edge} {accepting mentions : List String} :
    y ∈ (l.append mentions edges accepting).names.toList ↔
      y ∈ l.names.toList ∨ y ∈ mentions := by
  simp only [names, append, StateNames.mem_ofMentions, ← List.cons_append, List.mem_append]

/-- A name keeps its number when more is listed. -/
theorem idOf?_append {mentions : List String} {edges : List Edge} {accepting : List String}
    (hx : l.names.idOf? x = some s) :
    (l.append mentions edges accepting).names.idOf? x = some s := by
  have htable : (l.append mentions edges accepting).names.table =
      mentions.foldl .insert l.names.table := by
    rw [names, names, StateNames.table_ofMentions, StateNames.table_ofMentions, Numbering.ofList,
      Numbering.ofList, ← List.foldl_append]
    rfl
  rw [StateNames.idOf?, Numbering.idOf?_eq_some_iff] at hx ⊢
  rw [htable]
  exact Numbering.get?_foldl_insert hx

theorem idOf?_append_eq {mentions : List String} {edges : List Edge} {accepting : List String}
    (hx : x ∈ l.names.toList) :
    (l.append mentions edges accepting).names.idOf? x = l.names.idOf? x := by
  obtain ⟨s, hs⟩ := StateNames.mem_toList_iff.1 hx
  rw [idOf?_append hs, hs]

/-- A name that is mentioned for the first time gets the next number. -/
theorem idOf?_append_of_not_mem {edges : List Edge} {accepting : List String}
    (hx : x ∉ l.names.toList) :
    (l.append [x] edges accepting).names.idOf? x = some l.names.size := by
  have hid := l.names.idOf?_insert_fresh x
  rw [StateNames.fresh_of_not_mem hx] at hid
  show (l.append [x] [] []).names.idOf? x = _
  rw [names_append, StateNames.mention_of_not_mem hx]
  exact hid

/-- A state is entered if an edge of the listing says so by name. -/
theorem mem_targetsOn_iff_idOf? :
    t ∈ targetsOn l.toNfa s column ↔ l.toNfa.HasColumn column ∧ ∃ e ∈ l.edges,
      e.column = column ∧ l.names.idOf? e.source = some s ∧ l.names.idOf? e.target = some t := by
  have hmem : t ∈ targetsOn l.toNfa s column ↔ s < l.toNfa.size ∧ t < l.toNfa.size ∧
      l.toNfa.HasColumn column ∧ ⟨l.names.name s, column, l.names.name t⟩ ∈ l.edges := by
    cases column with
    | none =>
      refine mem_epsilonTargets_iff.trans ?_
      simp [Nfa.HasColumn, Nfa.name, toNfa, Nfa.ofFn]
    | some c =>
      refine mem_targets_iff.trans ?_
      simp [Nfa.HasColumn, Nfa.name, toNfa, Nfa.ofFn]
  rw [hmem]
  constructor
  · rintro ⟨hs, ht, hcolumn, he⟩
    exact ⟨hcolumn, _, he, rfl, StateNames.idOf?_name hs, StateNames.idOf?_name ht⟩
  · rintro ⟨hcolumn, ⟨source, on, target⟩, he, rfl, hs, ht⟩
    refine ⟨StateNames.lt_size_of_idOf? hs, StateNames.lt_size_of_idOf? ht, hcolumn, ?_⟩
    rw [StateNames.name_of_idOf? hs, StateNames.name_of_idOf? ht]
    exact he

theorem mem_accepting_iff_idOf? :
    s ∈ l.toNfa.accepting ↔ ∃ x ∈ l.accepting, l.names.idOf? x = some s := by
  show s ∈ StateSet.ofList (l.accepting.filterMap l.names.idOf?) ↔ _
  rw [StateSet.mem_ofList, List.mem_filterMap]

/-- A name that is mentioned for the first time is that of a new state. -/
theorem Closed.addState_toNfa (hl : l.Closed) (hx : x ∉ l.names.toList) :
    l.toNfa.addState x = (l.append [x] [] []).toNfa := by
  have hn := l.wellFormed_toNfa
  have hnames : l.names.insert x = (l.append [x] [] []).names := by
    rw [names_append, StateNames.mention_of_not_mem hx]
  have hedges : (l.append [x] [] []).edges = l.edges := List.append_nil _
  have haccepting : (l.append [x] [] []).accepting = l.accepting := List.append_nil _
  have htargets : ∀ s column,
      targetsOn (l.toNfa.addState x) s column = targetsOn l.toNfa s column := by
    intro s column
    cases column with
    | none => exact Nfa.epsilonTargets_addState x
    | some c => exact Nfa.targets_addState hn x
  refine (hn.addState x).eq_of_targetsOn (wellFormed_toNfa _) rfl hnames rfl (fun s column t => ?_)
    fun s => ?_
  · rw [htargets, mem_targetsOn_iff_idOf?, mem_targetsOn_iff_idOf?, hedges]
    refine and_congr_right fun _ => exists_congr fun e => and_congr_right fun he => ?_
    rw [idOf?_append_eq (hl.source e he), idOf?_append_eq (hl.target e he)]
  · show s ∈ l.toNfa.accepting ↔ _
    rw [mem_accepting_iff_idOf?, mem_accepting_iff_idOf?, haccepting]
    refine exists_congr fun y => and_congr_right fun hy => ?_
    rw [idOf?_append_eq (hl.accepting y hy)]

/-- The number of a name is found, and afterwards the name is mentioned. -/
theorem Closed.stateNamed_toNfa (hl : l.Closed) (x : String) :
    ∃ s, l.toNfa.stateNamed x = ((l.append [x] [] []).toNfa, s) ∧
      (l.append [x] [] []).names.idOf? x = some s := by
  rw [Nfa.stateNamed]
  cases hs : l.toNfa.idOf? x with
  | some s =>
    have hx : x ∈ l.names.toList := StateNames.mem_toList_iff.2 ⟨s, hs⟩
    have hnames : (l.append [x] [] []).names = l.names := by
      rw [names_append, StateNames.mention_of_mem hx]
    refine ⟨s, congrArg (·, s) ?_, idOf?_append hs⟩
    rw [toNfa, toNfa, hnames]
    simp only [append, List.append_nil]
  | none =>
    have hx : x ∉ l.names.toList := fun hx => by
      obtain ⟨s, hs'⟩ := StateNames.mem_toList_iff.1 hx
      cases hs.symm.trans hs'
    exact ⟨_, congrArg (·, _) (hl.addState_toNfa hx), idOf?_append_of_not_mem hx⟩

theorem Closed.append (hl : l.Closed) {mentions : List String} {edges : List Edge}
    {accepting : List String}
    (hsource : ∀ e ∈ edges, e.source ∈ l.names.toList ∨ e.source ∈ mentions)
    (htarget : ∀ e ∈ edges, e.target ∈ l.names.toList ∨ e.target ∈ mentions)
    (haccepting : ∀ x ∈ accepting, x ∈ l.names.toList ∨ x ∈ mentions) :
    (l.append mentions edges accepting).Closed := by
  refine ⟨fun e he => ?_, fun e he => ?_, fun x hx => ?_⟩
  · refine mem_names_append.2 ((List.mem_append.1 he).elim (fun he => ?_) (hsource e))
    exact .inl (hl.source e he)
  · refine mem_names_append.2 ((List.mem_append.1 he).elim (fun he => ?_) (htarget e))
    exact .inl (hl.target e he)
  · refine mem_names_append.2 ((List.mem_append.1 hx).elim (fun hx => ?_) (haccepting x))
    exact .inl (hl.accepting x hx)

/-- Names that are mentioned in turn, each of them added only if there is no state of this name. -/
theorem Closed.foldl_stateNamed_toNfa (hl : l.Closed) (names : List String) :
    names.foldl (fun n x => (n.stateNamed x).1) l.toNfa = (l.append names [] []).toNfa := by
  induction names generalizing l with
  | nil => rw [List.foldl_nil, append_nil]
  | cons x names ih =>
    obtain ⟨s, hstate, -⟩ := hl.stateNamed_toNfa x
    have hclosed : (l.append [x] [] []).Closed :=
      hl.append (List.forall_mem_nil _) (List.forall_mem_nil _) (List.forall_mem_nil _)
    rw [List.foldl_cons, hstate, ih hclosed, append_append]
    rfl

theorem names_append_nil {edges : List Edge} {accepting : List String} :
    (l.append [] edges accepting).names = l.names := by
  simp only [names, append, List.append_nil]

/-- A move that is added is one more edge. -/
theorem addEdge_toNfa (hs : l.names.idOf? x = some s) (ht : l.names.idOf? y = some t)
    (hcolumn : l.toNfa.HasColumn column) :
    l.toNfa.addEdge s column t = (l.append [] [⟨x, column, y⟩] []).toNfa := by
  have hn := l.wellFormed_toNfa
  have hlt : t < l.toNfa.size := StateNames.lt_size_of_idOf? ht
  refine (hn.addEdge s column hlt).eq_of_targetsOn (wellFormed_toNfa _) Nfa.alphabet_addEdge
    (Nfa.names_addEdge.trans names_append_nil.symm) Nfa.start_addEdge (fun s' on t' => ?_)
    fun s' => ?_
  · rw [Nfa.mem_targetsOn_addEdge hn, mem_targetsOn_iff_idOf?, mem_targetsOn_iff_idOf?,
      names_append_nil]
    constructor
    · rintro (⟨hon, e, he, hmove⟩ | ⟨-, rfl, rfl, rfl⟩)
      · exact ⟨hon, e, List.mem_append_left _ he, hmove⟩
      · exact ⟨hcolumn, _, List.mem_concat_self, rfl, hs, ht⟩
    · rintro ⟨hon, e, he, hmove⟩
      rcases List.mem_append.1 he with he | he
      · exact .inl ⟨hon, e, he, hmove⟩
      · obtain rfl := List.mem_singleton.1 he
        obtain ⟨rfl, hs', ht'⟩ := hmove
        exact .inr ⟨⟨StateNames.lt_size_of_idOf? hs, hcolumn⟩,
          Option.some.inj (hs'.symm.trans hs), rfl, Option.some.inj (ht'.symm.trans ht)⟩
  · rw [Nfa.accepting_addEdge, mem_accepting_iff_idOf?, mem_accepting_iff_idOf?, names_append_nil]
    simp only [Listing.append, List.append_nil]

/-- A state that is made to accept is one more accepting state. -/
theorem setAccepting_toNfa (hs : l.names.idOf? x = some s) {accepts : Bool}
    (hx : accepts = false → x ∉ l.accepting) :
    l.toNfa.setAccepting s accepts = (l.append [] [] (if accepts then [x] else [])).toNfa := by
  have hn := l.wellFormed_toNfa
  have hlt : s < l.toNfa.size := StateNames.lt_size_of_idOf? hs
  refine (hn.setAccepting hlt accepts).eq_of_targetsOn (wellFormed_toNfa _) rfl
    names_append_nil.symm rfl (fun s' on t' => ?_) fun s' => ?_
  · have hsame : targetsOn (l.toNfa.setAccepting s accepts) s' on = targetsOn l.toNfa s' on := by
      cases on <;> rfl
    rw [hsame, mem_targetsOn_iff_idOf?, mem_targetsOn_iff_idOf?, names_append_nil]
    simp only [Listing.append, List.append_nil]
    exact Iff.rfl
  · rw [mem_accepting_iff_idOf?, names_append_nil]
    cases accepts with
    | true =>
      refine StateSet.mem_insert.trans ?_
      rw [mem_accepting_iff_idOf?]
      constructor
      · rintro (⟨y, hy, hs'⟩ | rfl)
        · exact ⟨y, List.mem_append_left _ hy, hs'⟩
        · exact ⟨x, List.mem_concat_self, hs⟩
      · rintro ⟨y, hy, hs'⟩
        rcases List.mem_append.1 hy with hy | hy
        · exact .inl ⟨y, hy, hs'⟩
        · obtain rfl := List.mem_singleton.1 hy
          exact .inr (Option.some.inj (hs'.symm.trans hs))
    | false =>
      refine StateSet.mem_erase.trans ?_
      rw [mem_accepting_iff_idOf?]
      constructor
      · rintro ⟨⟨y, hy, hs'⟩, -⟩
        exact ⟨y, List.mem_append_left _ hy, hs'⟩
      · rintro ⟨y, hy, hs'⟩
        have hy : y ∈ l.accepting := List.append_nil l.accepting ▸ hy
        refine ⟨⟨y, hy, hs'⟩, ?_⟩
        rintro rfl
        have hxy : y = x := (StateNames.name_of_idOf? hs').symm.trans (StateNames.name_of_idOf? hs)
        exact hx rfl (hxy ▸ hy)

/-- It does not matter in which order the accepting states are listed. -/
theorem toNfa_eq_of_mem_accepting {l' : Listing} (h : ∀ x, x ∈ l.accepting ↔ x ∈ l'.accepting)
    (hsame : l = { l' with accepting := l.accepting }) : l.toNfa = l'.toNfa := by
  have hset : StateSet.ofList (l.accepting.filterMap l'.names.idOf?) =
      StateSet.ofList (l'.accepting.filterMap l'.names.idOf?) := by
    apply StateSet.ext
    intro s
    simp only [StateSet.mem_ofList, List.mem_filterMap, h]
  rw [hsame]
  exact congrArg (fun X => { l'.toNfa with accepting := X }) hset

/-- A listing of the start state alone. -/
theorem new_eq_toNfa (alphabet : Alphabet) (start : String) :
    Nfa.new alphabet start = (mk alphabet start [] [] []).toNfa := by
  refine Nfa.wellFormed_new.eq_of_targetsOn (wellFormed_toNfa _) rfl rfl rfl
    (fun s column t => iff_of_false ?_ ?_) fun s => Iff.rfl
  · have hempty : targetsOn (.new alphabet start) s column = ∅ := by
      cases column with
      | none => exact Nfa.epsilonTargets_new
      | some c => exact Nfa.targets_new
    rw [hempty]
    exact StateSet.not_mem_empty t
  · rw [mem_targetsOn_iff_idOf?]
    rintro ⟨-, e, he, -⟩
    cases he

end Listing

end Acceptors
