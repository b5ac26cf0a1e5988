import Acceptors.Numbering
import Acceptors.StateSet

/-!
# Names of states

A state is a number; its name exists for reading and writing. Names within one automaton are
distinct, so that a written automaton can be read back. A name that is already taken gets the rename
suffix as often as it takes to become free.

Results:
* `StateNames.fresh_not_mem`, `StateNames.fresh_of_not_mem`: the name that `fresh` finds is free,
  and a free name stays as it is.
* `StateNames.toList_insert`, `StateNames.idOf?_insert_fresh`: insertion leaves the earlier names
  alone, and the new one gets the next number.
* `StateNames.ext_toList`, `StateNames.ofList_toList`: a table is determined by its names, and is
  made again from them.
* `StateNames.toList_restrict`, `StateNames.toList_numbered`: the names of the other tables.
* `StateNames.idOf?_eq_some_iff`: names and numbers determine each other.
* `StateNames.toList_ofMentions`, `StateNames.idOf?_ofMentions_cons`: names in order of mention.
-/

namespace Acceptors

/-- The mark that a taken name gets (`RENAME_SUFFIX`). -/
def renameSuffix : String := "'"

/-- Distinct names, by state. -/
structure StateNames where
  /-- The names; state `i` has the `i`-th. -/
  table : Numbering String
  deriving DecidableEq

namespace StateNames

/-- No names. -/
def empty : StateNames := ⟨.empty⟩

/-- The names in the order of their states. -/
def toList (t : StateNames) : List String := t.table.toList

/-- The number of names (`len`). -/
def size (t : StateNames) : Nat := t.table.size

/-- Whether a name is taken. -/
def contains (t : StateNames) (name : String) : Bool := t.table.contains name

/-- The name of a state; a number that is no state has the empty name (`name`). -/
def name (t : StateNames) (id : Nat) : String := (t.table.get? id).getD ""

/-- The state of a name (`id`). -/
def idOf? (t : StateNames) (name : String) : Option Nat := t.table.idOf? name

/-- The first name among `name`, `name'`, `name''`, … that is free, tried at most `tries` times (the
    loop of `insert`). -/
def firstFree (t : StateNames) : (tries : Nat) → (name : String) → String
  | 0, name => name
  | tries + 1, name =>
    if t.contains name then t.firstFree tries (name ++ renameSuffix) else name

/-- The name with as few rename suffixes as make it free. -/
def fresh (t : StateNames) (name : String) : String := t.firstFree t.size name

/-! ## Fresh names -/

theorem contains_iff_mem {t : StateNames} {name : String} :
    t.contains name = true ↔ name ∈ t.toList := Numbering.contains_iff_mem

/-- A list has fewer long members than it has members at least as long as one of its own. -/
theorem countP_longer_lt {l : List String} {x : String} (h : x ∈ l) :
    l.countP (x.length + 1 ≤ ·.length) < l.countP (x.length ≤ ·.length) := by
  induction l with
  | nil => cases h
  | cons y l ih =>
    have hle : l.countP (x.length + 1 ≤ ·.length) ≤ l.countP (x.length ≤ ·.length) :=
      List.countP_mono_left fun z _ hz => by
        simp only [decide_eq_true_eq] at *
        omega
    simp only [List.countP_cons, decide_eq_true_eq]
    rcases List.mem_cons.1 h with rfl | h
    · have : ¬ x.length + 1 ≤ x.length := by omega
      simp only [this, if_false, Nat.le_refl, if_true]
      omega
    · have := ih h
      split <;> split <;> omega

theorem firstFree_not_mem {t : StateNames} :
    ∀ {tries : Nat} {name : String}, t.toList.countP (name.length ≤ ·.length) ≤ tries →
      t.firstFree tries name ∉ t.toList
  | 0, name, h => by
    intro hmem
    have : 0 < t.toList.countP (name.length ≤ ·.length) :=
      List.countP_pos_iff.2 ⟨name, hmem, by simp⟩
    omega
  | tries + 1, name, h => by
    rw [firstFree]
    split
    · next htaken =>
      apply firstFree_not_mem
      have := countP_longer_lt (contains_iff_mem.1 htaken)
      have hlen : (name ++ renameSuffix).length = name.length + 1 := by
        rw [String.length_append]
        rfl
      rw [hlen]
      omega
    · next hfree => exact fun hmem => hfree (contains_iff_mem.2 hmem)

/-- The name that is found is free. -/
theorem fresh_not_mem (t : StateNames) (name : String) : t.fresh name ∉ t.toList := by
  apply firstFree_not_mem
  have := List.countP_le_length (p := (name.length ≤ String.length ·)) (l := t.toList)
  rwa [toList, Numbering.length_toList] at this

/-- A name that is free gets no suffix. -/
theorem fresh_of_not_mem {t : StateNames} {name : String} (h : name ∉ t.toList) :
    t.fresh name = name := by
  rw [fresh]
  cases t.size with
  | zero => rfl
  | succ tries => rw [firstFree, if_neg fun htaken => h (contains_iff_mem.1 htaken)]

/-! ## Making tables of names -/

/-- Adds a state of the given name, renamed if the name is taken (`insert`). -/
def insert (t : StateNames) (name : String) : StateNames := ⟨t.table.insert (t.fresh name)⟩

/-- Adds states of the given names in turn. -/
def insertAll (t : StateNames) (names : List String) : StateNames := names.foldl insert t

/-- States of the given names in turn, each renamed if its name is taken by then. -/
def ofList (names : List String) : StateNames := empty.insertAll names

/-- Adds the name unless it is there (`state_named`). -/
def mention (t : StateNames) (name : String) : StateNames := ⟨t.table.insert name⟩

/-- The distinct names of a list in order of first mention. -/
def ofMentions (names : List String) : StateNames := names.foldl mention empty

/-- The names of the states in `keep`, in their order. -/
def restrict (t : StateNames) (keep : StateSet) : StateNames :=
  ⟨.ofList ((t.toList.zipIdx.filter (·.2 ∈ keep)).map Prod.fst)⟩

/-- The first `n` names of the form `stem0`, `stem1`, `stem2`, … -/
def numbered (stem : String) (n : Nat) : StateNames :=
  ⟨.ofList ((List.range n).map fun i => stem ++ toString i)⟩

/-- Two tables count as equal when they hold the same names, in whatever order. -/
instance : BEq StateNames where
  beq a b := a.size == b.size && b.toList.all a.contains

/-! ## Laws -/

/-- No two states share a name. -/
theorem nodup_toList (t : StateNames) : t.toList.Nodup := t.table.nodup_toList

theorem length_toList (t : StateNames) : t.toList.length = t.size := t.table.length_toList

/-- A table is determined by its names in the order of their states. -/
theorem ext_toList {t u : StateNames} (h : t.toList = u.toList) : t = u := by
  obtain ⟨t⟩ := t
  obtain ⟨u⟩ := u
  exact congrArg mk (Numbering.ext_values (Array.toList_inj.1 h))

/-- Insertion adds one name at the end and leaves the earlier ones alone. -/
theorem toList_insert (t : StateNames) (name : String) :
    (t.insert name).toList = t.toList ++ [t.fresh name] :=
  Numbering.toList_insert_of_not_mem (t.fresh_not_mem name)

theorem size_insert (t : StateNames) (name : String) : (t.insert name).size = t.size + 1 := by
  rw [← length_toList, toList_insert, List.length_append, length_toList]
  rfl

theorem size_insertAll (t : StateNames) (names : List String) :
    (t.insertAll names).size = t.size + names.length := by
  induction names generalizing t with
  | nil => rfl
  | cons name names ih =>
    rw [insertAll, List.foldl_cons, ← insertAll, ih, size_insert, List.length_cons]
    omega

theorem size_ofList (names : List String) : (ofList names).size = names.length := by
  rw [ofList, size_insertAll]
  exact Nat.zero_add _

/-- Distinct names that are free are added as they stand. -/
theorem toList_insertAll {t : StateNames} {names : List String}
    (h : (t.toList ++ names).Nodup) : (t.insertAll names).toList = t.toList ++ names := by
  induction names generalizing t with
  | nil => exact (List.append_nil _).symm
  | cons name names ih =>
    have hfree : name ∉ t.toList := fun hmem =>
      (List.nodup_append.1 h).2.2 name hmem name List.mem_cons_self rfl
    have hinsert : (t.insert name).toList = t.toList ++ [name] := by
      rw [toList_insert, fresh_of_not_mem hfree]
    rw [insertAll, List.foldl_cons, ← insertAll, ih (by rw [hinsert]; simpa using h), hinsert,
      List.append_assoc, List.singleton_append]

/-- The names of a table, added in turn to an empty one, make the same table. -/
theorem ofList_toList (t : StateNames) : ofList t.toList = t :=
  ext_toList (toList_insertAll t.nodup_toList)

/-- A name that is there stays as it is. -/
theorem mention_of_mem {t : StateNames} {name : String} (h : name ∈ t.toList) :
    t.mention name = t :=
  ext_toList (Numbering.toList_insert_of_mem h)

/-- A name that is not there is added as it stands. -/
theorem mention_of_not_mem {t : StateNames} {name : String} (h : name ∉ t.toList) :
    t.mention name = t.insert name := by
  rw [mention, insert, fresh_of_not_mem h]

/-- A restricted table holds the names of the states that are kept. -/
theorem toList_restrict (t : StateNames) (keep : StateSet) :
    (t.restrict keep).toList = (t.toList.zipIdx.filter (·.2 ∈ keep)).map Prod.fst := by
  apply Numbering.toList_ofList
  have hsub : ((t.toList.zipIdx.filter (·.2 ∈ keep)).map Prod.fst).Sublist t.toList := by
    have := (List.filter_sublist (l := t.toList.zipIdx) (p := (·.2 ∈ keep))).map Prod.fst
    simpa [List.zipIdx_map_fst] using this
  exact t.nodup_toList.sublist hsub

/-- Distinct numbers have distinct decimal forms. -/
theorem toString_injective {a b : Nat} (h : toString a = toString b) : a = b := by
  have h' : Nat.toDigits 10 a = Nat.toDigits 10 b := by
    have := congrArg String.toList h
    simpa [toString, Nat.repr] using this
  rw [← Nat.ofDigitChars_toDigits (b := 10) (n := a) (by decide) (by decide), h',
    Nat.ofDigitChars_toDigits (by decide) (by decide)]

/-- Numbered names are distinct, so that none is renamed. -/
theorem toList_numbered (stem : String) (n : Nat) :
    (numbered stem n).toList = (List.range n).map fun i => stem ++ toString i := by
  apply Numbering.toList_ofList
  rw [List.nodup_iff_pairwise_ne, List.pairwise_map]
  refine List.pairwise_lt_range.imp fun {i j} hij heq => ?_
  have : toString i = toString j := by
    apply String.toList_injective
    have := congrArg String.toList heq
    simpa using this
  exact absurd (toString_injective this) (by omega)

theorem size_numbered (stem : String) (n : Nat) : (numbered stem n).size = n := by
  rw [← length_toList, toList_numbered, List.length_map, List.length_range]

/-- A state has a name exactly when the name has that state. -/
theorem idOf?_eq_some_iff {t : StateNames} {name : String} {id : Nat} :
    t.idOf? name = some id ↔ t.toList[id]? = some name := by
  rw [idOf?, Numbering.idOf?_eq_some_iff, Numbering.get?, toList, Numbering.toList,
    Array.getElem?_toList]

/-- The name that is added has the next number. -/
theorem idOf?_insert_fresh (t : StateNames) (name : String) :
    (t.insert name).idOf? (t.fresh name) = some t.size := by
  rw [idOf?_eq_some_iff, toList_insert, ← length_toList, List.getElem?_concat_length]

theorem getElem?_toList {t : StateNames} {id : Nat} (h : id < t.size) :
    t.toList[id]? = some (t.name id) := by
  have hlt : id < t.toList.length := by rwa [length_toList]
  rw [name, ← Numbering.getElem?_toList, ← toList, List.getElem?_eq_getElem hlt, Option.getD_some]

/-- The names of all states, by number. -/
theorem map_name_range (t : StateNames) : (List.range t.size).map t.name = t.toList := by
  refine map_range_eq t.length_toList fun id x hx => ?_
  have hlt : id < t.size := t.length_toList ▸ (List.getElem?_eq_some_iff.1 hx).1
  exact Option.some.inj ((getElem?_toList hlt).symm.trans hx)

/-- A state is found by its name. -/
theorem idOf?_name {t : StateNames} {id : Nat} (h : id < t.size) : t.idOf? (t.name id) = some id :=
  idOf?_eq_some_iff.2 (getElem?_toList h)

theorem lt_size_of_idOf? {t : StateNames} {x : String} {id : Nat} (h : t.idOf? x = some id) :
    id < t.size := by
  rw [← length_toList]
  exact (List.getElem?_eq_some_iff.1 (idOf?_eq_some_iff.1 h)).1

theorem name_of_idOf? {t : StateNames} {x : String} {id : Nat} (h : t.idOf? x = some id) :
    t.name id = x :=
  Option.some.inj ((getElem?_toList (lt_size_of_idOf? h)).symm.trans (idOf?_eq_some_iff.1 h))

/-- No two states have the same name. -/
theorem name_inj {t : StateNames} {i j : Nat} (hi : i < t.size) (hj : j < t.size) :
    t.name i = t.name j ↔ i = j := by
  refine ⟨fun h => ?_, congrArg t.name⟩
  have hid := idOf?_name hi
  rw [h, idOf?_name hj] at hid
  exact (Option.some.inj hid).symm

theorem mem_toList_iff {t : StateNames} {x : String} :
    x ∈ t.toList ↔ ∃ id, t.idOf? x = some id := by
  simp only [List.mem_iff_getElem?, idOf?_eq_some_iff]

theorem name_numbered {stem : String} {n id : Nat} (h : id < n) :
    (numbered stem n).name id = stem ++ toString id := by
  have hget := getElem?_toList (t := numbered stem n) (by rwa [size_numbered])
  rw [toList_numbered, List.getElem?_map, List.getElem?_range h] at hget
  exact (Option.some.inj hget).symm

/-- One more numbered name is not taken, so that it is not changed when it is added. -/
theorem insert_numbered (stem : String) (n : Nat) :
    (numbered stem n).insert (stem ++ toString n) = numbered stem (n + 1) := by
  have hlist := toList_numbered stem (n + 1)
  rw [List.range_succ, List.map_append, ← toList_numbered] at hlist
  have hfree : stem ++ toString n ∉ (numbered stem n).toList := by
    have hnodup := (numbered stem (n + 1)).nodup_toList
    rw [hlist] at hnodup
    intro hmem
    exact (List.nodup_append.1 hnodup).2.2 _ hmem _ (List.mem_singleton_self _) rfl
  apply ext_toList
  rw [toList_insert, fresh_of_not_mem hfree, hlist]
  rfl

/-! ## Names in order of mention -/

theorem table_ofMentions (names : List String) : (ofMentions names).table = .ofList names := by
  have key : ∀ t : StateNames, (names.foldl mention t).table = names.foldl .insert t.table := by
    induction names with
    | nil => exact fun _ => rfl
    | cons x names ih => exact fun t => ih (t.mention x)
  exact key empty

/-- Names are numbered in the order in which they are first mentioned. -/
theorem toList_ofMentions (names : List String) : (ofMentions names).toList = names.eraseDups := by
  rw [toList, table_ofMentions, Numbering.toList_ofList_eq]

theorem mem_ofMentions {names : List String} {x : String} :
    x ∈ (ofMentions names).toList ↔ x ∈ names := by
  rw [toList_ofMentions, List.mem_eraseDups]

/-- The first name that is mentioned belongs to the first state. -/
theorem idOf?_ofMentions_cons (x : String) (names : List String) :
    (ofMentions (x :: names)).idOf? x = some 0 := by
  rw [idOf?, table_ofMentions, Numbering.idOf?_eq_some_iff, Numbering.ofList, List.foldl_cons]
  apply Numbering.get?_foldl_insert
  rw [← Numbering.getElem?_toList, Numbering.toList_insert_of_not_mem List.not_mem_nil]
  rfl

end StateNames

end Acceptors
