import Mathlib.Data.List.DropRight
import Acceptors.Proofs.Text.Lines

/-!
# Lines and fields with blanks around them

What is cut off from a text are the blanks in front of it and those behind it, in either order.
Nothing is cut off between two characters that are no blanks. So the lines of any text, and the two
sides of an arrow in it, can be found before the blanks around them are cut off.

Results:
* `Text.lines_of_breaks`: the lines of a text that is made of pieces ended by line breaks.
* `Text.trim_append`: a beginning without blanks is kept.
* `Text.fields_trim`: the blanks around a list of fields do not matter.
* `Text.splitArrow_append`: the first arrow behind a text without arrows.
* `Text.isGrammarName_iff`: the names without arrows.
-/

namespace Acceptors

namespace Text

variable {c separator : Char} {cs ds part : List Char} {parts : List (List Char)}

/-! ## Cutting off blanks -/

/-- A text without the blanks at its end. -/
abbrev trimEnd (cs : List Char) : List Char := cs.rdropWhile isBlank

theorem trim_eq (cs : List Char) : trim cs = trimEnd (cs.dropWhile isBlank) := rfl

theorem trimEnd_append :
    trimEnd (cs ++ ds) = if trimEnd ds = [] then trimEnd cs else cs ++ trimEnd ds := by
  have hnil : trimEnd ds = [] ↔ (ds.reverse.dropWhile isBlank).isEmpty = true := by
    rw [List.isEmpty_iff]
    exact List.reverse_eq_nil_iff
  rw [trimEnd, List.rdropWhile, List.reverse_append, List.dropWhile_append]
  by_cases h : trimEnd ds = []
  · rw [if_pos (hnil.1 h), if_pos h]
    rfl
  · rw [if_neg (mt hnil.2 h), if_neg h, List.reverse_append, List.reverse_reverse]
    rfl

/-- A text that does not end with a blank is kept with what follows it. -/
theorem trimEnd_append_of_eq (h : trimEnd cs = cs) : trimEnd (cs ++ ds) = cs ++ trimEnd ds := by
  rw [trimEnd_append]
  split
  · next hds => rw [h, hds, List.append_nil]
  · rfl

theorem Unspaced.trimEnd_eq (h : Unspaced cs) : trimEnd cs = cs :=
  List.rdropWhile_eq_self_iff.2 fun hne => by
    rw [h _ (List.getLast_mem hne)]
    decide

theorem trimEnd_cons :
    trimEnd (c :: cs) =
      if trimEnd cs = [] then (if isBlank c = true then [] else [c]) else c :: trimEnd cs := by
  rw [← List.rdropWhile_singleton]
  exact @trimEnd_append [c] cs

/-- Both ends of a text can be cut off in either order. -/
theorem dropWhile_trimEnd (cs : List Char) : (trimEnd cs).dropWhile isBlank = trim cs := by
  induction cs with
  | nil => rfl
  | cons c cs ih =>
    rw [trim_eq]
    by_cases hc : isBlank c = true
    · rw [List.dropWhile_cons_of_pos hc, ← trim_eq, ← ih, trimEnd_cons, if_pos hc]
      split
      · next hnil => rw [hnil]
      · exact List.dropWhile_cons_of_pos hc
    · rw [List.dropWhile_cons_of_neg hc, trimEnd_cons, if_neg hc]
      split
      · exact List.dropWhile_cons_of_neg hc
      · exact List.dropWhile_cons_of_neg hc

theorem trim_trimEnd (cs : List Char) : trim (trimEnd cs) = trim cs := by
  rw [trim_eq, dropWhile_trimEnd, trim_eq, trimEnd, List.rdropWhile_idempotent]

theorem trim_cons_of_isBlank (h : isBlank c = true) : trim (c :: cs) = trim cs := by
  rw [trim_eq, List.dropWhile_cons_of_pos h]
  rfl

theorem mem_of_mem_trim (h : c ∈ trim cs) : c ∈ cs :=
  List.dropWhile_subset isBlank ((List.rdropWhile_prefix isBlank _).subset h)

/-- A beginning without blanks is kept with what follows it. -/
theorem trim_append (h : Unspaced cs) (hne : cs ≠ []) : trim (cs ++ ds) = cs ++ trimEnd ds := by
  have hdrop : (cs ++ ds).dropWhile isBlank = cs ++ ds := by
    cases cs with
    | nil => exact absurd rfl hne
    | cons c cs =>
      exact List.dropWhile_cons_of_neg (by rw [(unspaced_cons.1 h).1]; decide)
  rw [trim_eq, hdrop, trimEnd_append_of_eq h.trimEnd_eq]

/-! ## Cutting at a separator -/

/-- The parts of a text with a separator in it are those before and those behind it. -/
theorem splitOn_append_separator :
    splitOn separator (cs ++ separator :: ds) = splitOn separator cs ++ splitOn separator ds := by
  induction cs with
  | nil => simp [splitOn]
  | cons c cs ih =>
    rw [List.cons_append, splitOn, splitOn, ih]
    split
    · rfl
    · cases hcs : splitOn separator cs with
      | nil => exact absurd hcs (splitOn_ne_nil separator cs)
      | cons part parts => rfl

/-- A text without the separator belongs to the first part of what follows it. -/
theorem splitOn_append_of_not_mem (h : separator ∉ cs)
    (hds : splitOn separator ds = part :: parts) :
    splitOn separator (cs ++ ds) = (cs ++ part) :: parts := by
  induction cs with
  | nil => exact hds
  | cons c cs ih =>
    obtain ⟨hc, hcs⟩ := not_or.1 (mt List.mem_cons.2 h)
    rw [List.cons_append, splitOn, ih hcs, if_neg (Ne.symm hc)]
    rfl

/-- The separator occurs in none of the parts. -/
theorem not_mem_of_mem_splitOn (h : part ∈ splitOn separator cs) : separator ∉ part := by
  induction cs generalizing part with
  | nil =>
    rw [List.mem_singleton.1 h]
    exact List.not_mem_nil
  | cons c cs ih =>
    rw [splitOn] at h
    split at h
    · rcases List.mem_cons.1 h with rfl | h
      · exact List.not_mem_nil
      · exact ih h
    · next hc =>
      obtain ⟨first, rest, hcs⟩ := List.exists_cons_of_ne_nil (splitOn_ne_nil separator cs)
      rw [hcs] at h ih
      rcases List.mem_cons.1 h with rfl | h
      · refine fun hmem => ih List.mem_cons_self ?_
        exact (List.mem_cons.1 hmem).resolve_left (Ne.symm hc)
      · exact ih (List.mem_cons_of_mem _ h)

/-- A text with the separator in it has at least two parts. -/
theorem exists_splitOn_eq_cons_cons (h : separator ∈ cs) :
    ∃ part next parts, splitOn separator cs = part :: next :: parts := by
  obtain ⟨front, back, rfl⟩ := List.append_of_mem h
  obtain ⟨part, parts, hfront⟩ := List.exists_cons_of_ne_nil (splitOn_ne_nil separator front)
  obtain ⟨next, parts', hback⟩ := List.exists_cons_of_ne_nil (splitOn_ne_nil separator back)
  rw [splitOn_append_separator, hfront, hback]
  cases parts with
  | nil => exact ⟨part, next, parts', rfl⟩
  | cons p parts => exact ⟨part, p, _, rfl⟩

/-! ## Lines -/

theorem splitOn_breaks {ls : List (List Char)} :
    splitOn '\n' (ls.flatMap (· ++ ['\n'])) = ls.flatMap (splitOn '\n') ++ [[]] := by
  induction ls with
  | nil => rfl
  | cons l ls ih =>
    rw [List.flatMap_cons, List.append_assoc, List.singleton_append, splitOn_append_separator, ih,
      List.flatMap_cons, List.append_assoc]

/-- A text that is made of pieces ended by line breaks has the lines of the pieces. -/
theorem lines_of_breaks {text : String} {ls : List (List Char)}
    (htext : text.toList = ls.flatMap (· ++ ['\n'])) :
    lines text = (ls.flatMap (splitOn '\n')).map trim := by
  rw [lines, htext, splitOn_breaks]
  simp only [List.getLast?_concat, if_true, List.dropLast_concat]

/-- A text without blanks is one line. -/
theorem Unspaced.map_trim_splitOn_break (h : Unspaced cs) :
    (splitOn '\n' cs).map trim = [cs] := by
  rw [splitOn_of_not_mem (h.not_mem rfl), List.map_singleton, h.trim_eq]

/-! ## Fields -/

theorem map_trim_splitOn_dropWhile (hseparator : isBlank separator = false) (cs : List Char) :
    (splitOn separator (cs.dropWhile isBlank)).map trim = (splitOn separator cs).map trim := by
  induction cs with
  | nil => rfl
  | cons c cs ih =>
    by_cases hc : isBlank c = true
    · have hne : c ≠ separator := by
        rintro rfl
        rw [hseparator] at hc
        cases hc
      rw [List.dropWhile_cons_of_pos hc, ih, splitOn, if_neg hne]
      obtain ⟨part, parts, hcs⟩ := List.exists_cons_of_ne_nil (splitOn_ne_nil separator cs)
      rw [hcs, List.map_cons, List.map_cons, trim_cons_of_isBlank hc]
    · rw [List.dropWhile_cons_of_neg hc]

theorem map_trimEnd_splitOn_trimEnd (hseparator : isBlank separator = false) (cs : List Char) :
    (splitOn separator (trimEnd cs)).map trimEnd = (splitOn separator cs).map trimEnd := by
  induction cs with
  | nil => rfl
  | cons c cs ih =>
    -- It is enough to cut off the end behind the first character.
    have hcons : (splitOn separator (c :: trimEnd cs)).map trimEnd =
        (splitOn separator (c :: cs)).map trimEnd := by
      rw [splitOn, splitOn]
      split
      · rw [List.map_cons, List.map_cons, ih]
      · obtain ⟨part, parts, hpart⟩ := List.exists_cons_of_ne_nil (splitOn_ne_nil separator cs)
        obtain ⟨part', parts', hpart'⟩ :=
          List.exists_cons_of_ne_nil (splitOn_ne_nil separator (trimEnd cs))
        rw [hpart, hpart', List.map_cons, List.map_cons] at ih
        obtain ⟨hfirst, hrest⟩ := List.cons.inj ih
        rw [hpart, hpart', List.map_cons, List.map_cons, trimEnd_cons, hfirst, hrest,
          ← trimEnd_cons]
    rw [← hcons, trimEnd_cons]
    split
    · next hnil =>
      rw [hnil]
      split
      · next hc =>
        have hne : c ≠ separator := by
          rintro rfl
          rw [hseparator] at hc
          cases hc
        simp [splitOn, hne, hc]
      · rfl
    · rfl

/-- The blanks around a list of fields do not matter. -/
theorem fields_trim (cs : List Char) : fields (trim cs) = fields cs := by
  have hdrop : ∀ parts : List (List Char),
      parts.map trim = (parts.map trimEnd).map (List.dropWhile isBlank) := by
    intro parts
    rw [List.map_map]
    exact List.map_congr_left fun part _ => (dropWhile_trimEnd part).symm
  have hcomma : isBlank ',' = false := rfl
  have hparts : (splitOn ',' (trim cs)).map trim = (splitOn ',' cs).map trim := by
    rw [hdrop, trim_eq, map_trimEnd_splitOn_trimEnd hcomma, ← hdrop,
      map_trim_splitOn_dropWhile hcomma]
  rw [fields, fields, hparts]

/-- A list falls apart at each of its commas. -/
theorem fields_append_cons : fields (cs ++ ',' :: ds) = fields cs ++ fields ds := by
  simp only [fields, splitOn_append_separator, List.map_append, List.filter_append]

/-! ## Arrows -/

theorem splitArrow_cons (h : c = '-' → cs.head? ≠ some '>') :
    splitArrow (c :: cs) = (splitArrow cs).map fun (before, after) => (c :: before, after) := by
  rw [splitArrow]
  rintro rest rfl rfl
  exact h rfl rfl

/-- The first arrow behind a text without arrows and a blank. -/
theorem splitArrow_append (h : splitArrow cs = none) :
    splitArrow (cs ++ ' ' :: '-' :: '>' :: ds) = some (cs ++ [' '], ds) := by
  induction cs with
  | nil => rfl
  | cons c cs ih =>
    have hnot : c = '-' → cs.head? ≠ some '>' := by
      rintro rfl hhead
      obtain ⟨rest, rfl⟩ := List.head?_eq_some_iff.1 hhead
      cases h
    have hnot' : c = '-' → (cs ++ ' ' :: '-' :: '>' :: ds).head? ≠ some '>' := by
      intro hc hhead
      cases cs with
      | nil => cases hhead
      | cons d cs => exact hnot hc hhead
    rw [splitArrow_cons hnot, Option.map_eq_none_iff] at h
    rw [List.cons_append, splitArrow_cons hnot', ih h]
    rfl

/-- A text is split at an arrow if there is one in it. -/
theorem splitArrow_eq_none_iff : splitArrow cs = none ↔ ¬ ['-', '>'] <:+: cs := by
  induction cs using splitArrow.induct with
  | case1 => simp [splitArrow]
  | case2 rest => exact iff_of_false (by simp [splitArrow]) fun h => h ⟨[], rest, rfl⟩
  | case3 c rest hnot ih =>
    have hhead : ¬ ['-', '>'] <+: c :: rest := by
      rintro ⟨tail, htail⟩
      obtain ⟨rfl, rfl⟩ := List.cons.inj htail
      exact hnot tail rfl rfl
    rw [splitArrow_cons, Option.map_eq_none_iff, ih, List.infix_cons_iff, or_iff_right hhead]
    rintro rfl h
    obtain ⟨tail, rfl⟩ := List.head?_eq_some_iff.1 h
    exact hnot tail rfl rfl

/-- A name can stand in a grammar if there is no arrow in it. -/
theorem isGrammarName_iff {text : String} :
    isGrammarName text = true ↔ isName text = true ∧ ¬ ['-', '>'] <:+: text.toList := by
  rw [isGrammarName, Bool.and_eq_true, Option.isNone_iff_eq_none, splitArrow_eq_none_iff]

theorem isName_of_isGrammarName {text : String} (h : isGrammarName text = true) :
    isName text = true := (isGrammarName_iff.1 h).1

/-- What stands behind the arrow is part of the text. -/
theorem mem_of_splitArrow {before after : List Char} (h : splitArrow cs = some (before, after))
    (hc : c ∈ after) : c ∈ cs := by
  induction cs using splitArrow.induct generalizing before after with
  | case1 => cases h
  | case2 rest =>
    cases h
    exact List.mem_cons_of_mem _ (List.mem_cons_of_mem _ hc)
  | case3 d rest hnot ih =>
    rw [splitArrow] at h
    · obtain ⟨⟨front, back⟩, hrest, heq⟩ := Option.map_eq_some_iff.1 h
      cases heq
      exact List.mem_cons_of_mem _ (ih hrest hc)
    · exact hnot

end Text

end Acceptors
