import Mathlib.Data.String.Basic
import Mathlib.Tactic.Common
import Acceptors.Text.Name

/-!
# Names and the lines made of them

Names have no blanks and no delimiters, and what is made of names and delimiters has no blanks
either. Such a text is not changed when the blanks around it are cut off, and it contains no line
break. So a line that is made of names and delimiters is read as it is.

Results:
* `Text.isName_iff`: what a name is.
* `Text.Solid.trim_eq`, `Text.Unspaced.trim_eq`: nothing is cut off from a text with blanks at most
  inside, let alone from a text without blanks.
* `Text.mem_of_mem_intercalate`: what names between commas consist of.
-/

namespace Acceptors

namespace Text

variable {c : Char} {cs ds : List Char} {name : String} {names : List String}

/-! ## Texts without blanks -/

/-- There is no blank in the text. -/
def Unspaced (cs : List Char) : Prop := ∀ c ∈ cs, isBlank c = false

theorem unspaced_append : Unspaced (cs ++ ds) ↔ Unspaced cs ∧ Unspaced ds := List.forall_mem_append

theorem unspaced_cons : Unspaced (c :: cs) ↔ isBlank c = false ∧ Unspaced cs :=
  List.forall_mem_cons

theorem Unspaced.not_mem (h : Unspaced cs) (hc : isBlank c = true) : c ∉ cs := by
  intro hmem
  rw [h c hmem] at hc
  cases hc

/-- The text has no blank at its beginning and none at its end. -/
structure Solid (cs : List Char) : Prop where
  head : ∀ c ∈ cs.head?, isBlank c = false
  last : ∀ c ∈ cs.getLast?, isBlank c = false

/-- Nothing is cut off from a text with blanks at most inside. -/
theorem Solid.trim_eq (h : Solid cs) : trim cs = cs := by
  have hdrop : ∀ {ds : List Char}, (∀ c ∈ ds.head?, isBlank c = false) →
      ds.dropWhile isBlank = ds := by
    intro ds hds
    cases ds with
    | nil => rfl
    | cons d ds => exact List.dropWhile_cons_of_neg (by rw [hds d rfl]; decide)
  have hlast : ∀ c ∈ cs.reverse.head?, isBlank c = false := by
    rw [List.head?_reverse]
    exact h.last
  rw [trim, hdrop h.head, hdrop hlast, List.reverse_reverse]

theorem Unspaced.solid (h : Unspaced cs) : Solid cs :=
  ⟨fun c hc => h c (List.mem_of_mem_head? hc), fun c hc => h c (List.mem_of_mem_getLast? hc)⟩

/-- Nothing is cut off from a text without blanks. -/
theorem Unspaced.trim_eq (h : Unspaced cs) : trim cs = cs := h.solid.trim_eq

/-! ## Lines -/

theorem map_snd_numberedLines (text : String) :
    (numberedLines text).map Prod.snd = lines text := by
  rw [numberedLines, List.map_map]
  exact List.zipIdx_map_fst 0 (lines text)

/-! ## Names -/

/-- A name is not empty and has neither blanks nor delimiters. -/
theorem isName_iff :
    isName name = true ↔
      name.toList ≠ [] ∧ ∀ c ∈ name.toList, isBlank c = false ∧ isDelimiter c = false := by
  simp [isName]

theorem unspaced_of_isName (h : isName name = true) : Unspaced name.toList :=
  fun c hc => ((isName_iff.1 h).2 c hc).1

/-- No delimiter occurs in a name. -/
theorem not_mem_of_isName (h : isName name = true) (hc : isDelimiter c = true) :
    c ∉ name.toList := by
  intro hmem
  rw [((isName_iff.1 h).2 c hmem).2] at hc
  cases hc

theorem toList_intercalate_comma :
    (String.intercalate "," names).toList = [','].intercalate (names.map String.toList) :=
  String.toList_intercalate

/-- A joined text consists of the separators and the parts. -/
theorem mem_intercalate {parts : List (List Char)} (h : c ∈ [','].intercalate parts) :
    c = ',' ∨ ∃ part ∈ parts, c ∈ part := by
  induction parts with
  | nil => cases h
  | cons part parts ih =>
    cases parts with
    | nil => exact .inr ⟨part, List.mem_cons_self, by rwa [List.intercalate_singleton] at h⟩
    | cons next parts =>
      rw [List.intercalate_cons_cons, List.mem_append, List.mem_append, List.mem_singleton] at h
      rcases h with (h | h) | h
      · exact .inr ⟨part, List.mem_cons_self, h⟩
      · exact .inl h
      · exact (ih h).imp_right fun ⟨p, hp, hc⟩ => ⟨p, List.mem_cons_of_mem _ hp, hc⟩

/-- What names between commas consist of. -/
theorem mem_of_mem_intercalate (h : c ∈ (String.intercalate "," names).toList) :
    c = ',' ∨ ∃ name ∈ names, c ∈ name.toList := by
  rw [toList_intercalate_comma] at h
  rcases mem_intercalate h with h | ⟨part, hpart, hc⟩
  · exact .inl h
  · obtain ⟨name, hname, rfl⟩ := List.mem_map.1 hpart
    exact .inr ⟨name, hname, hc⟩

theorem unspaced_intercalate (h : ∀ name ∈ names, isName name = true) :
    Unspaced (String.intercalate "," names).toList := by
  intro c hc
  rcases mem_of_mem_intercalate hc with rfl | ⟨name, hname, hc⟩
  · decide
  · exact unspaced_of_isName (h name hname) c hc

end Text

end Acceptors
