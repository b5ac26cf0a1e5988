import Acceptors.Proofs.Text.Trimmed

/-!
# Texts with blanks in them

A text may be written with blanks in many places: around names, between the commas of a list, at
both ends of a line, and on lines of their own. The definitions below say where the blanks may
stand. None of them mentions how a text is read.

Results:
* `Text.Padded.trim_eq`: blanks around a text do not matter.
* `Text.Entries.fields_eq`: entries between commas are read, whatever blanks stand around them.
* `Text.HasLines.exists_lines_eq`: the lines of a text that may end with a line break or without.
-/

namespace Acceptors

namespace Text

variable {c : Char} {x : String} {xs : List String} {cs ds left right : List Char}

/-! ## Blanks around a text -/

/-- There are only blanks in the text. -/
def Blanks (cs : List Char) : Prop := ∀ c ∈ cs, isBlank c = true

instance : DecidablePred Blanks := List.decidableBAll (isBlank · = true)

/-- The text `cs` is the text `ds` with blanks around it. -/
def Padded (ds cs : List Char) : Prop :=
  ∃ left right, Blanks left ∧ Blanks right ∧ cs = left ++ ds ++ right

/-- What stands at both ends of a text makes it solid. -/
theorem Solid.append (hcs : Solid cs) (hne : cs ≠ [])
    (hds : ∀ c ∈ ds.getLast?, isBlank c = false) : Solid (cs ++ ds) where
  head := by
    rw [List.head?_append_of_ne_nil cs hne]
    exact hcs.head
  last := by
    cases ds with
    | nil =>
      rw [List.append_nil]
      exact hcs.last
    | cons d ds =>
      rw [List.getLast?_append_of_ne_nil cs (List.cons_ne_nil d ds)]
      exact hds

theorem dropWhile_blanks (h : Blanks left) :
    (left ++ cs).dropWhile isBlank = cs.dropWhile isBlank :=
  List.dropWhile_append_of_pos h

theorem trimEnd_blanks (h : Blanks right) : trimEnd (cs ++ right) = trimEnd cs := by
  have hnil : trimEnd right = [] := List.rdropWhile_eq_nil_iff.2 h
  rw [trimEnd_append, if_pos hnil]

/-- Blanks around a text do not matter. -/
theorem Padded.trim_eq (h : Padded ds cs) : trim cs = trim ds := by
  obtain ⟨left, right, hleft, hright, rfl⟩ := h
  calc trim (left ++ ds ++ right) = trim (trimEnd (left ++ ds ++ right)) := (trim_trimEnd _).symm
    _ = trim (trimEnd (left ++ ds)) := by rw [trimEnd_blanks hright]
    _ = trim (left ++ ds) := trim_trimEnd _
    _ = trim ds := by rw [Text.trim_eq, dropWhile_blanks hleft, ← Text.trim_eq]

/-- It is from texts of blanks that nothing is left. -/
theorem trim_eq_nil_iff : trim cs = [] ↔ Blanks cs := by
  constructor
  · intro h
    have hdrop : ∀ c ∈ cs.dropWhile isBlank, isBlank c = true := List.rdropWhile_eq_nil_iff.1 h
    cases hcs : cs.dropWhile isBlank with
    | nil => exact List.dropWhile_eq_nil_iff.1 hcs
    | cons c rest =>
      -- The first character that is kept is no blank.
      have hc := List.head?_dropWhile_not isBlank cs
      rw [hcs] at hc hdrop
      have hblank := hdrop c List.mem_cons_self
      rw [show isBlank c = false from hc] at hblank
      cases hblank
  · intro h
    have hpadded : Padded [] cs := ⟨cs, [], h, List.forall_mem_nil _, by simp⟩
    exact hpadded.trim_eq

/-! ## Lists with blanks around their entries -/

/-- Whether a text can stand between commas: it is not empty and has neither blanks nor commas. -/
def IsEntry (x : String) : Prop := x ≠ "" ∧ ∀ c ∈ x.toList, isBlank c = false ∧ c ≠ ','

theorem isEntry_of_isName (h : isName x = true) : IsEntry x := by
  refine ⟨fun hx => (isName_iff.1 h).1 (by rw [hx]; rfl), fun c hc => ?_⟩
  refine ⟨unspaced_of_isName h c hc, ?_⟩
  rintro rfl
  exact not_mem_of_isName h rfl hc

/-- The text holds the entries with a comma between any two of them and with blanks around each. -/
inductive Entries : List String → List Char → Prop
  | none {cs : List Char} : Blanks cs → Entries [] cs
  | one {x : String} {cs : List Char} : Padded x.toList cs → Entries [x] cs
  | cons {x y : String} {xs : List String} {cs ds : List Char} : Padded x.toList cs →
      Entries (y :: xs) ds → Entries (x :: y :: xs) (cs ++ ',' :: ds)

theorem fields_of_blanks (h : Blanks cs) : fields cs = [] := by
  have hcomma : ',' ∉ cs := fun hmem => by cases h ',' hmem
  rw [fields, splitOn_of_not_mem hcomma, List.map_singleton, trim_eq_nil_iff.2 h]
  rfl

theorem Padded.fields_eq (h : Padded x.toList cs) (hx : IsEntry x) : fields cs = [x] := by
  have htrim : trim cs = x.toList :=
    h.trim_eq.trans (Unspaced.trim_eq fun c hc => (hx.2 c hc).1)
  have hcomma : ',' ∉ cs := by
    obtain ⟨left, right, hleft, hright, rfl⟩ := h
    simp only [List.mem_append, not_or]
    refine ⟨⟨fun hmem => ?_, fun hmem => (hx.2 ',' hmem).2 rfl⟩, fun hmem => ?_⟩
    · cases hleft ',' hmem
    · cases hright ',' hmem
  have hne : x.toList ≠ [] := fun e => hx.1 (String.toList_eq_nil_iff.1 e)
  rw [fields, splitOn_of_not_mem hcomma, List.map_singleton, htrim, List.filter_cons_of_pos,
    List.filter_nil, List.map_singleton, String.ofList_toList]
  simpa using hne

/-- Entries between commas are read. -/
theorem Entries.fields_eq (h : Entries xs cs) (hxs : ∀ x ∈ xs, IsEntry x) : fields cs = xs := by
  induction h with
  | none hblanks => exact fields_of_blanks hblanks
  | one hx => exact hx.fields_eq (hxs _ List.mem_cons_self)
  | cons hx _ ih =>
    obtain ⟨hentry, hxs⟩ := List.forall_mem_cons.1 hxs
    rw [fields_append_cons, hx.fields_eq hentry, ih hxs]
    rfl

theorem padded_refl (cs : List Char) : Padded cs cs :=
  ⟨[], [], List.forall_mem_nil _, List.forall_mem_nil _, by simp⟩

/-- A list may be written without blanks. -/
theorem entries_intercalate (names : List String) :
    Entries names (String.intercalate "," names).toList := by
  rw [toList_intercalate_comma]
  induction names with
  | nil => exact .none (List.forall_mem_nil _)
  | cons name names ih =>
    cases names with
    | nil =>
      rw [List.map_singleton, List.intercalate_singleton]
      exact .one (padded_refl _)
    | cons next names =>
      rw [List.map_cons, List.map_cons, List.intercalate_cons_cons, List.append_assoc]
      exact .cons (padded_refl _) ih

/-- Names between commas are read back. -/
theorem fields_intercalate {names : List String} (h : ∀ name ∈ names, isName name = true) :
    fields (String.intercalate "," names).toList = names :=
  (entries_intercalate names).fields_eq fun name hname => isEntry_of_isName (h name hname)

/-- Every character of a list is a comma, a blank or one of an entry. -/
theorem Entries.of_mem (h : Entries xs cs) (hc : c ∈ cs) :
    c = ',' ∨ isBlank c = true ∨ ∃ x ∈ xs, c ∈ x.toList := by
  have hpadded : ∀ {x : String} {cs : List Char}, Padded x.toList cs → c ∈ cs →
      isBlank c = true ∨ c ∈ x.toList := by
    rintro x _ ⟨left, right, hleft, hright, rfl⟩ hc
    rcases List.mem_append.1 hc with hc | hc
    · exact (List.mem_append.1 hc).imp_left (hleft c)
    · exact .inl (hright c hc)
  induction h with
  | none hblanks => exact .inr (.inl (hblanks c hc))
  | one hx => exact .inr ((hpadded hx hc).imp_right fun hc => ⟨_, List.mem_cons_self, hc⟩)
  | cons hx _ ih =>
    rcases List.mem_append.1 hc with hc | hc
    · exact .inr ((hpadded hx hc).imp_right fun hc => ⟨_, List.mem_cons_self, hc⟩)
    · rcases List.mem_cons.1 hc with hc | hc
      · exact .inl hc
      · exact (ih hc).imp_right
          (Or.imp_right fun ⟨y, hy, hc⟩ => ⟨y, List.mem_cons_of_mem _ hy, hc⟩)

/-! ## Lines -/

/-- The text consists of the lines. Each of them ends with a line break, but the last one may do
    without. -/
def HasLines (text : String) (ls : List (List Char)) : Prop :=
  (∀ l ∈ ls, '\n' ∉ l) ∧
    (text.toList = ls.flatMap (· ++ ['\n']) ∨ text.toList = ['\n'].intercalate ls)

/-- A last line without a character or a line break is the only one that is not read. -/
theorem HasLines.lines_eq {text : String} {ls : List (List Char)} (h : HasLines text ls) :
    lines text = ls.map trim ∨ ls.getLast? = some [] ∧ lines text = ls.dropLast.map trim := by
  obtain ⟨hbreak, htext | htext⟩ := h
  · have hone : ls.flatMap (splitOn '\n') = ls :=
      (List.flatMap_congr fun l hl => splitOn_of_not_mem (hbreak l hl)).trans
        (List.flatMap_singleton' ls)
    left
    rw [lines_of_breaks htext, hone]
  · cases ls with
    | nil =>
      left
      rw [lines, htext]
      rfl
    | cons l ls =>
      rw [lines, htext, splitOn_intercalate hbreak]
      by_cases hlast : (l :: ls).getLast? = some []
      · exact .inr ⟨hlast, by simp only [hlast, if_true]⟩
      · exact .inl (by simp only [hlast, if_false])

theorem filter_map_trim (ls : List (List Char)) :
    (ls.map trim).filter (!·.isEmpty) = (ls.filter (¬ Blanks ·)).map trim := by
  rw [List.filter_map]
  refine congrArg (List.map trim) (List.filter_congr fun l _ => ?_)
  rw [Bool.eq_iff_iff]
  simp [← trim_eq_nil_iff]

/-- The lines of a text behind a line that is not empty, as far as they are not blank. -/
theorem HasLines.exists_lines_eq {text : String} {front ls : List (List Char)} {l : List Char}
    (h : HasLines text (front ++ l :: ls)) (hl : l ≠ []) :
    ∃ rest, lines text = front.map trim ++ trim l :: rest ∧
      rest.filter (!·.isEmpty) = (ls.filter (¬ Blanks ·)).map trim := by
  rcases h.lines_eq with htext | ⟨hlast, htext⟩
  · exact ⟨ls.map trim, by rw [htext, List.map_append, List.map_cons], filter_map_trim ls⟩
  · rcases List.eq_nil_or_concat' ls with rfl | ⟨ls, last, rfl⟩
    · rw [List.getLast?_concat] at hlast
      exact absurd (Option.some.inj hlast) hl
    · rw [← List.cons_append, ← List.append_assoc, List.getLast?_concat] at hlast
      obtain rfl := Option.some.inj hlast
      -- The line that is not read is blank.
      refine ⟨ls.map trim, ?_, ?_⟩
      · rw [htext, ← List.cons_append, ← List.append_assoc, List.dropLast_concat, List.map_append,
          List.map_cons]
      · rw [filter_map_trim, List.filter_append]
        simp [Blanks]

end Text

end Acceptors
