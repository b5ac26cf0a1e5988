import Mathlib.Data.List.TakeDrop
import Acceptors.Proofs.Text.Trimmed

/-!
# Reading line by line

Tables and grammars are read from the first line to the last. What a line says may depend on the
lines before it, but never on those behind it. So reading fails at a line exactly if all lines
before it are read and the line itself is not, and this is so whatever follows.

Results:
* `Text.readLines_append`: a text is read in two parts.
* `Text.readLines_eq_error_iff`: the line at which reading fails.
* `Text.lines_firstLines`: the text that is made of the first lines of another.
* `Text.failsFirstAt_of_numberedLines`: when a reader fails at the first line that is at fault.
-/

namespace Acceptors

namespace Text

/-! ## Lines that are not blank -/

section Lines

variable {σ α ε : Type} {read : σ → List Char → Except ε α} {next : σ → α → σ} {state : σ}
variable {front ls : List (Nat × List Char)} {n : Nat} {fault : ε}

/-- Reads the lines that are not blank, one after the other. The state keeps what the later lines
    depend on. An error comes with the number of its line. -/
def readLines (read : σ → List Char → Except ε α) (next : σ → α → σ) (state : σ) :
    List (Nat × List Char) → Except (Nat × ε) (List α)
  | [] => .ok []
  | (number, line) :: rest =>
    if line.isEmpty then readLines read next state rest
    else
      match read state line with
      | .error fault => .error (number, fault)
      | .ok a => (readLines read next (next state a) rest).map (a :: ·)

/-- The lines behind a place are read in the state to which the lines before it lead. -/
theorem readLines_append :
    readLines read next state (front ++ ls) =
      readLines read next state front >>= fun as =>
        (readLines read next (as.foldl next state) ls).map (as ++ ·) := by
  induction front generalizing state with
  | nil =>
    rw [List.nil_append, readLines]
    show _ = (readLines read next state ls).map fun bs => bs
    cases readLines read next state ls <;> rfl
  | cons entry front ih =>
    obtain ⟨number, line⟩ := entry
    rw [List.cons_append, readLines, readLines]
    split
    · exact ih
    · split
      · rfl
      · next a _ =>
        rw [ih]
        cases readLines read next (next state a) front with
        | error _ => rfl
        | ok as =>
          show Except.map _ (Except.map _ _) = Except.map _ _
          rw [List.foldl_cons]
          cases readLines read next (as.foldl next (next state a)) ls <;> rfl

/-- If the lines before a line are read and the line itself is not, it does not matter what
    follows. -/
theorem readLines_append_cons {line : List Char} {rest : List (Nat × List Char)} {as : List α}
    (hline : line ≠ []) (hfront : readLines read next state front = .ok as)
    (hread : read (as.foldl next state) line = .error fault) :
    readLines read next state (front ++ (n, line) :: rest) = .error (n, fault) := by
  have hblank : ¬ line.isEmpty = true := fun e => hline (List.isEmpty_iff.1 e)
  rw [readLines_append, hfront]
  show Except.map _ (readLines read next _ ((n, line) :: rest)) = _
  rw [readLines, if_neg hblank, hread]
  rfl

/-- Reading fails at a line exactly if the lines before it are read and the line itself is not. -/
theorem readLines_eq_error_iff :
    readLines read next state ls = .error (n, fault) ↔
      ∃ front line rest as, ls = front ++ (n, line) :: rest ∧ line ≠ [] ∧
        readLines read next state front = .ok as ∧
        read (as.foldl next state) line = .error fault := by
  constructor
  · intro h
    induction ls generalizing state with
    | nil => cases h
    | cons entry ls ih =>
      obtain ⟨number, line⟩ := entry
      rw [readLines] at h
      split at h
      · next hblank =>
        obtain ⟨front, line', rest, as, rfl, hline, hfront, hread⟩ := ih h
        refine ⟨(number, line) :: front, line', rest, as, rfl, hline, ?_, hread⟩
        rw [readLines, if_pos hblank, hfront]
      · next hblank =>
        split at h
        · next fault' hread =>
          cases h
          exact ⟨[], line, ls, [], rfl, fun e => hblank (List.isEmpty_iff.2 e), rfl, hread⟩
        · next a ha =>
          have hrest : readLines read next (next state a) ls = .error (n, fault) := by
            cases hls : readLines read next (next state a) ls with
            | error _ =>
              rw [hls] at h
              exact congrArg _ (Except.error.inj h)
            | ok as =>
              rw [hls] at h
              cases h
          obtain ⟨front, line', rest, as, rfl, hline, hfront, hread⟩ := ih hrest
          refine ⟨(number, line) :: front, line', rest, a :: as, rfl, hline, ?_, hread⟩
          rw [readLines, if_neg hblank, ha]
          simp only [hfront]
          rfl
  · rintro ⟨front, line, rest, as, rfl, hline, hfront, hread⟩
    exact readLines_append_cons hline hfront hread

end Lines

/-! ## The first lines of a text -/

variable {text other : String} {k n : Nat}

/-- The lines of a text as they stand. -/
def rawLines (text : String) : List (List Char) :=
  let parts := splitOn '\n' text.toList
  if parts.getLast? = some [] then parts.dropLast else parts

theorem lines_eq_map (text : String) : lines text = (rawLines text).map trim := rfl

/-- The text that is made of the first lines of a text. -/
def firstLines (k : Nat) (text : String) : String :=
  String.ofList (((rawLines text).take k).flatMap (· ++ ['\n']))

theorem not_mem_of_mem_rawLines {line : List Char} (h : line ∈ rawLines text) : '\n' ∉ line := by
  rw [rawLines] at h
  split at h
  · exact not_mem_of_mem_splitOn (List.dropLast_subset _ h)
  · exact not_mem_of_mem_splitOn h

/-- The lines of the text that is made of the first lines are these lines. -/
theorem lines_firstLines (k : Nat) (text : String) :
    lines (firstLines k text) = (lines text).take k := by
  have hone : ((rawLines text).take k).flatMap (splitOn '\n') = (rawLines text).take k := by
    refine (List.flatMap_congr fun line hline => ?_).trans (List.flatMap_singleton' _)
    exact splitOn_of_not_mem (not_mem_of_mem_rawLines (List.mem_of_mem_take hline))
  have htext : (firstLines k text).toList = ((rawLines text).take k).flatMap (· ++ ['\n']) :=
    String.toList_ofList
  rw [lines_of_breaks htext, hone, lines_eq_map, List.map_take]

/-! ## Numbers of lines -/

theorem take_zipIdx {α : Type} (l : List α) (k : Nat) : l.zipIdx.take k = (l.take k).zipIdx := by
  refine List.ext_getElem? fun i => ?_
  rw [List.getElem?_zipIdx, List.getElem?_take, List.getElem?_take, List.getElem?_zipIdx]
  split <;> rfl

theorem numberedLines_firstLines (k : Nat) (text : String) :
    numberedLines (firstLines k text) = (numberedLines text).take k := by
  rw [numberedLines, lines_firstLines, ← take_zipIdx, List.map_take, numberedLines]

/-- The number of a line is one more than the number of lines before it, whether these are blank or
    not. -/
theorem numberedLines_eq_append_cons {front rest : List (Nat × List Char)} {line : List Char}
    (h : numberedLines text = front ++ (n, line) :: rest) :
    n = front.length + 1 ∧ (lines text)[front.length]? = some line := by
  have hget : (numberedLines text)[front.length]? = some (n, line) := by
    rw [h, List.getElem?_append_right le_rfl, Nat.sub_self]
    rfl
  rw [numberedLines, List.getElem?_map, List.getElem?_zipIdx, Nat.zero_add] at hget
  cases hline : (lines text)[front.length]? with
  | none =>
    rw [hline] at hget
    cases hget
  | some l =>
    rw [hline] at hget
    cases hget
    exact ⟨rfl, rfl⟩

/-! ## Reading fails at the first line at fault -/

/-- A reader of texts fails at a line, as nothing in front of that line is at fault: what stands in
    front of it is read, and it fails in the same way whatever follows. Blanks around the lines do
    not matter. -/
structure FailsFirstAt {α ε : Type} (read : String → Except ε α) (text : String) (n : Nat)
    (fault : ε) : Prop where
  /-- There is a line of this number. It is not blank, though blank lines are counted. -/
  line : ∃ line, (lines text)[n - 1]? = some line ∧ line ≠ []
  /-- The lines before it are read. -/
  before : ∀ front, lines front = lines (firstLines (n - 1) text) → ∃ a, read front = .ok a
  /-- A text that begins with the same lines up to this one fails in the same way. -/
  after : ∀ other, lines (firstLines n other) = lines (firstLines n text) →
    read other = .error fault

/-- A reader fails first at a line that it does not read, if it reads the lines before it. -/
theorem failsFirstAt_of_numberedLines {α ε : Type} {read : String → Except ε α} {fault : ε}
    {rest : List (Nat × List Char)} {line : List Char} (front : List (Nat × List Char))
    (htext : numberedLines text = front ++ (n, line) :: rest) (hline : line ≠ [])
    (hbefore : ∀ other, numberedLines other = front → ∃ a, read other = .ok a)
    (hafter : ∀ other rest, numberedLines other = front ++ (n, line) :: rest →
      read other = .error fault) :
    FailsFirstAt read text n fault := by
  obtain ⟨rfl, hget⟩ := numberedLines_eq_append_cons htext
  have hfront : (numberedLines text).take front.length = front := by
    rw [htext, List.take_left]
  have hupto : (numberedLines text).take (front.length + 1) =
      front ++ [(front.length + 1, line)] := by
    rw [htext, List.take_length_add_append]
    rfl
  have hnumbered : ∀ {a b : String}, lines a = lines b → numberedLines a = numberedLines b :=
    fun h => by rw [numberedLines, h, numberedLines]
  refine ⟨⟨line, hget, hline⟩, fun other hother => ?_, fun other hother => ?_⟩
  · refine hbefore other ((hnumbered hother).trans ?_)
    rw [numberedLines_firstLines]
    exact hfront
  · have hsame := hnumbered hother
    rw [numberedLines_firstLines, numberedLines_firstLines, hupto] at hsame
    refine hafter other ((numberedLines other).drop (front.length + 1)) ?_
    calc numberedLines other
        = (numberedLines other).take (front.length + 1) ++
            (numberedLines other).drop (front.length + 1) := (List.take_append_drop _ _).symm
      _ = front ++ (front.length + 1, line) :: (numberedLines other).drop (front.length + 1) := by
        rw [hsame, List.append_assoc, List.singleton_append]

end Text

end Acceptors
