import Acceptors.Proofs.Renamed

/-!
# Names are inserted one after the other

A name is inserted by a loop that puts one more rename suffix behind it as long as it is taken. Only
so many names are taken, and each pass makes the name longer, so that the loop ends. What it has
then is added at the end of the table, and its number there is the number of names before it. The
names that are in the table already stay where they are.

The names in a table are all different. When they are inserted again in their order, each of them is
free, the loop makes no pass, and the same table arises.

Results:
* `StateNames.freeName?_eq`, `StateNames.enter?_eq`: what the loop finds, and what one insertion
  does.
* `StateNames.enterAll?_eq`: what insertions in turn do.
* `StateNames.GivenInTurn.getElem?`: each name is the one that was wanted, with as few suffixes as
  possible.
* `StateNames.isPrefix_insertAll`, `StateNames.idOf?_insertAll`: what later insertions leave alone.
* `StateNames.enterAll_exact`: all of it.
-/

namespace Acceptors

namespace StateNames

variable {t : StateNames} {names more taken wanted given : List String} {x y : String}
variable {tries k i : Nat}

/-! ## The loop -/

/-- Puts rename suffixes behind a name until it is free (the loop of `insert`). There is no result
    if it would take more of them than the given number. -/
def freeName? (t : StateNames) : (tries : Nat) → (name : String) → Option String
  | 0, name => if t.contains name then none else some name
  | tries + 1, name =>
    if t.contains name then t.freeName? tries (name ++ renameSuffix) else some name

/-- Adds a name, with suffixes if it is taken, and looks up the number that it has then
    (`insert`). -/
def enter? (t : StateNames) (tries : Nat) (name : String) : Option (StateNames × Nat) := do
  let free ← t.freeName? tries name
  let table := t.table.insert free
  let id ← table.idOf? free
  return (⟨table⟩, id)

/-- Adds names in turn, and lists their numbers. -/
def enterAll? (t : StateNames) (tries : Nat) : (names : List String) →
    Option (StateNames × List Nat)
  | [] => some (t, [])
  | name :: names => do
    let (t, id) ← t.enter? tries name
    let (t, ids) ← t.enterAll? tries names
    return (t, id :: ids)

/-! ## One insertion -/

/-- More passes than a search needs do not change what it finds. -/
theorem freeName?_eq_firstFree (hfree : t.firstFree k x ∉ t.toList) (hle : k ≤ tries) :
    t.freeName? tries x = some (t.firstFree k x) := by
  induction k generalizing tries x with
  | zero =>
    have htaken : ¬ t.contains x = true := mt contains_iff_mem.1 hfree
    cases tries <;> rw [freeName?, if_neg htaken, firstFree]
  | succ k ih =>
    obtain ⟨tries, rfl⟩ := Nat.exists_eq_add_of_le' (Nat.zero_lt_of_lt hle)
    rw [firstFree] at hfree ⊢
    rw [freeName?]
    split
    · next htaken =>
      rw [if_pos htaken] at hfree
      exact ih hfree (Nat.le_of_succ_le_succ hle)
    · rfl

/-- The loop ends after as many passes as there are names in the table. -/
theorem freeName?_eq (hsize : t.size ≤ tries) (x : String) :
    t.freeName? tries x = some (t.fresh x) :=
  freeName?_eq_firstFree (t.fresh_not_mem x) hsize

/-- The loop makes no pass for a name that is free. -/
theorem freeName?_of_not_mem (hx : x ∉ t.toList) (tries : Nat) : t.freeName? tries x = some x :=
  freeName?_eq_firstFree (k := 0) hx (Nat.zero_le tries)

/-- The name that the loop finds is added, and its number is the number of names before it. -/
theorem enter?_eq (h : t.freeName? tries x = some (t.fresh x)) :
    t.enter? tries x = some (t.insert x, t.size) := by
  rw [enter?, h]
  show ((t.insert x).idOf? (t.fresh x) >>= fun id => some (t.insert x, id)) = _
  rw [idOf?_insert_fresh]
  rfl

/-! ## Insertions in turn -/

/-- If every loop ends, the names are added in turn and get the next numbers. -/
theorem enterAll?_eq (h : ∀ front x back, names = front ++ x :: back →
      (t.insertAll front).freeName? tries x = some ((t.insertAll front).fresh x)) :
    t.enterAll? tries names = some (t.insertAll names, List.range' t.size names.length) := by
  -- on the names from any table, as each name that is added changes what is taken for the next
  induction names generalizing t with
  | nil => rfl
  | cons x names ih =>
    have hfirst : t.enter? tries x = some (t.insert x, t.size) := enter?_eq (h [] x names rfl)
    have hrest : (t.insert x).enterAll? tries names =
        some ((t.insert x).insertAll names, List.range' (t.size + 1) names.length) := by
      rw [← size_insert t x]
      refine ih fun front y back hnames => ?_
      exact h (x :: front) y back (congrArg (x :: ·) hnames)
    rw [enterAll?, hfirst, List.length_cons, List.range'_succ]
    show ((t.insert x).enterAll? tries names >>= fun r => some (r.1, t.size :: r.2)) = _
    rw [hrest]
    rfl

/-- All loops end after as many passes as there are names in the end. -/
theorem enterAll?_eq_of_le (hle : t.size + names.length ≤ tries) :
    t.enterAll? tries names = some (t.insertAll names, List.range' t.size names.length) := by
  refine enterAll?_eq fun front x back hnames => freeName?_eq ?_ x
  rw [hnames, List.length_append, List.length_cons] at hle
  rw [size_insertAll]
  omega

/-- No loop makes a pass when the names of a table are inserted again. -/
theorem enterAll?_toList (t : StateNames) (tries : Nat) :
    empty.enterAll? tries t.toList = some (t, List.range t.size) := by
  have hfree : ∀ front x back, t.toList = front ++ x :: back →
      (ofList front).freeName? tries x = some ((ofList front).fresh x) := by
    intro front x back hnames
    -- the names before `x` are different, so that they are added as they are, and `x` is not there
    have hnodup : (front ++ x :: back).Nodup := hnames ▸ t.nodup_toList
    have hfront : (ofList front).toList = front :=
      toList_insertAll (t := empty) (List.nodup_append.1 hnodup).1
    have hx : x ∉ (ofList front).toList := by
      rw [hfront]
      exact fun hmem => (List.nodup_append.1 hnodup).2.2 x hmem x List.mem_cons_self rfl
    rw [freeName?_of_not_mem hx, fresh_of_not_mem hx]
  rw [enterAll?_eq hfree, ← ofList, ofList_toList, length_toList, List.range_eq_range']
  rfl

/-! ## What is in the table -/

/-- Each name is the one that was wanted, with as few suffixes as make it differ from those that
    were given before it. -/
theorem GivenInTurn.getElem? (h : GivenInTurn taken wanted given) (hx : wanted[i]? = some x) :
    ∃ y, given[i]? = some y ∧ LeastRenamed (taken ++ given.take i) x y := by
  induction h generalizing i with
  | nil => cases hx
  | @cons taken wanted given z y hy _ ih =>
    cases i with
    | zero =>
      obtain rfl : z = x := Option.some.inj hx
      exact ⟨y, rfl, by rwa [List.take_zero, List.append_nil]⟩
    | succ i =>
      obtain ⟨w, hw, hleast⟩ := ih hx
      refine ⟨w, hw, ?_⟩
      rwa [List.take_succ_cons, ← List.singleton_append, ← List.append_assoc]

/-- Later insertions add names behind the earlier ones. -/
theorem isPrefix_insertAll (t : StateNames) (more : List String) :
    t.toList <+: (t.insertAll more).toList := by
  obtain ⟨given, -, hlist⟩ := t.exists_toList_insertAll more
  exact ⟨given, hlist.symm⟩

/-- Later insertions leave the numbers of the earlier names alone. -/
theorem idOf?_insertAll (h : t.idOf? x = some i) : (t.insertAll more).idOf? x = some i := by
  rw [idOf?_eq_some_iff] at h ⊢
  obtain ⟨given, hlist⟩ := t.isPrefix_insertAll more
  rw [← hlist]
  exact List.getElem?_append_left (List.getElem?_eq_some_iff.1 h).1 ▸ h

/-- Later insertions leave the names of the earlier numbers alone. -/
theorem name_insertAll (h : i < t.size) : (t.insertAll more).name i = t.name i :=
  name_of_idOf? (idOf?_insertAll (idOf?_name h))

theorem ofList_append (names more : List String) :
    ofList (names ++ more) = (ofList names).insertAll more := List.foldl_append

/-- Whatever names are inserted in turn into an empty table, every loop ends and the names are
    numbered from zero. A name in the table is the one that was inserted, with the least number of
    rename suffixes that makes it differ from all names before it, so that all names are different.
    Later insertions change neither the names nor their numbers. When the names of the table are
    inserted in their order into an empty one, the same table arises and no loop makes a pass. -/
theorem enterAll_exact (names : List String) :
    let t := ofList names
    (∀ tries ≥ names.length, empty.enterAll? tries names = some (t, List.range names.length)) ∧
      (∀ i x, names[i]? = some x →
        ∃ y, t.toList[i]? = some y ∧ LeastRenamed (t.toList.take i) x y) ∧
      t.toList.Nodup ∧
      (∀ more, t.toList <+: (ofList (names ++ more)).toList ∧
        (∀ i < names.length, (ofList (names ++ more)).name i = t.name i) ∧
        ∀ x i, t.idOf? x = some i → (ofList (names ++ more)).idOf? x = some i) ∧
      ∀ tries, empty.enterAll? tries t.toList = some (t, List.range names.length) := by
  intro t
  have hsize : t.size = names.length := size_ofList names
  refine ⟨fun tries htries => ?_, fun i x hx => ?_, t.nodup_toList, fun more => ?_, fun tries => ?_⟩
  · have hle : empty.size + names.length ≤ tries := by
      show 0 + names.length ≤ tries
      omega
    rw [enterAll?_eq_of_le hle, List.range_eq_range']
    rfl
  · exact (givenInTurn_ofList names).getElem? hx
  · rw [ofList_append]
    refine ⟨t.isPrefix_insertAll more, fun i hi => ?_, fun x i hx => idOf?_insertAll hx⟩
    exact name_insertAll (hsize.symm ▸ hi)
  · rw [enterAll?_toList, hsize]

/-- Names that have suffixes already, which the renaming of others comes upon. -/
theorem enterAll_exact_suffixed :
    let names := ["q'", "q", "q", "q'"]
    let t := ofList names
    empty.enterAll? 4 names = some (t, [0, 1, 2, 3]) ∧ t.toList = ["q'", "q", "q''", "q'''"] ∧
      LeastRenamed ["q'", "q"] "q" "q''" ∧ t.toList.Nodup ∧
      (ofList (names ++ ["q"])).idOf? "q''" = some 2 ∧
      empty.enterAll? 0 t.toList = some (t, [0, 1, 2, 3]) := by
  intro names t
  have hlist : t.toList = ["q'", "q", "q''", "q'''"] := by decide
  obtain ⟨hentered, hleast, hnodup, hlater, hagain⟩ := enterAll_exact names
  obtain ⟨y, hy, hleast⟩ := hleast 2 "q" rfl
  have hy : y = "q''" := by
    have hthird : t.toList[2]? = some y := hy
    rw [hlist] at hthird
    exact (Option.some.inj hthird).symm
  refine ⟨hentered 4 (by decide), hlist, ?_, hnodup, (hlater ["q"]).2.2 "q''" 2 (by decide),
    hagain 0⟩
  have hbefore : t.toList.take 2 = ["q'", "q"] := by rw [hlist]; rfl
  rw [← hy, ← hbefore]
  exact hleast

end StateNames

end Acceptors
