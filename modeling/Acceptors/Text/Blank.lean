/-!
# Blanks, lines and fields

Written automata and grammars consist of lines, and lines of fields between commas. Blanks around a
line or a field do not matter. A blank is a character of the Unicode property `White_Space`, which
goes beyond the blanks of ASCII: the no-break space and the ideographic space are blanks, but the
zero-width space is none.

Results:
* `Text.splitOn_intercalate`: cutting at a character undoes joining with it.
-/

namespace Acceptors

namespace Text

/-! ## Blanks -/

/-- Whether a character has the property `White_Space`. -/
def isBlank (c : Char) : Bool :=
  let n := c.toNat
  (9 ≤ n && n ≤ 13) || n == 0x20 || n == 0x85 || n == 0xa0 || n == 0x1680 ||
    (0x2000 ≤ n && n ≤ 0x200a) || n == 0x2028 || n == 0x2029 || n == 0x202f || n == 0x205f ||
    n == 0x3000

/-- A text without the blanks at its beginning and its end. -/
def trim (cs : List Char) : List Char :=
  ((cs.dropWhile isBlank).reverse.dropWhile isBlank).reverse

/-! ## Cutting -/

/-- The parts of a text between the occurrences of a character; there is one more part than there
    are occurrences. -/
def splitOn (separator : Char) : List Char → List (List Char)
  | [] => [[]]
  | c :: cs =>
    if c = separator then [] :: splitOn separator cs
    else
      match splitOn separator cs with
      | [] => [[c]]
      | part :: parts => (c :: part) :: parts

/-- The lines of a text without the blanks around them. A line break ends a line; what follows the
    last one is a line only if it is not empty. -/
def lines (text : String) : List (List Char) :=
  let parts := splitOn '\n' text.toList
  (if parts.getLast? = some [] then parts.dropLast else parts).map trim

/-- The lines of a text, each with its number, counted from one (the lines of `parse`). -/
def numberedLines (text : String) : List (Nat × List Char) :=
  (lines text).zipIdx.map fun (line, i) => (i + 1, line)

/-- The fields between the commas of a text, without the blanks around them; empty fields do not
    count (`split_list`). -/
def fields (cs : List Char) : List String :=
  (((splitOn ',' cs).map trim).filter (!·.isEmpty)).map String.ofList

theorem splitOn_ne_nil (separator : Char) (cs : List Char) : splitOn separator cs ≠ [] := by
  cases cs with
  | nil => simp [splitOn]
  | cons c cs =>
    rw [splitOn]
    split
    · simp
    · split <;> simp

/-- A part without the separator in front of the separator is the first part. -/
theorem splitOn_append_cons {separator : Char} {part : List Char} (h : separator ∉ part)
    (cs : List Char) :
    splitOn separator (part ++ separator :: cs) = part :: splitOn separator cs := by
  induction part with
  | nil => simp [splitOn]
  | cons c part ih =>
    simp only [List.mem_cons, not_or] at h
    rw [List.cons_append, splitOn, ih h.2]
    simp [Ne.symm h.1]

/-- A text without the separator is one part. -/
theorem splitOn_of_not_mem {separator : Char} {part : List Char} (h : separator ∉ part) :
    splitOn separator part = [part] := by
  induction part with
  | nil => rfl
  | cons c part ih =>
    simp only [List.mem_cons, not_or] at h
    rw [splitOn, ih h.2]
    simp [Ne.symm h.1]

/-- Cutting at a character undoes joining with it, for parts without the character. -/
theorem splitOn_intercalate {separator : Char} :
    ∀ {part : List Char} {parts : List (List Char)}, (∀ p ∈ part :: parts, separator ∉ p) →
      splitOn separator ([separator].intercalate (part :: parts)) = part :: parts
  | part, [], h => by
    simpa [List.intercalate] using splitOn_of_not_mem (h part (by simp))
  | part, next :: parts, h => by
    have ih : splitOn separator ([separator].intercalate (next :: parts)) = next :: parts :=
      splitOn_intercalate fun p hp => h p (List.mem_cons_of_mem _ hp)
    have hstep : [separator].intercalate (part :: next :: parts) =
        part ++ separator :: [separator].intercalate (next :: parts) := by
      simp [List.intercalate]
    rw [hstep, splitOn_append_cons (h part (by simp)), ih]

end Text

end Acceptors
