import Mathlib.Data.List.DropRight
import RegisterMachine.Text.Blank
import RegisterMachine.Text.Split

/-!
# Trimmed, cut and split text

What is left of a text when the blanks at its ends are taken off, and where a text
is cut.

* `Blank.trim_trim`: a trimmed text has no blanks at its ends; of a part at its end
  only the blanks in front are to be taken off (`Blank.trim_of_suffix`);
* `Split.cut?_eq_some_iff`, `Split.cut?_eq_none_iff`: a text is cut at the first
  character of the kind, if it has one (`Split.cut?_append`: at a separator);
* `Split.splitOn_dropWhile`: the blanks in front of a text are those in front of its
  first piece;
* `Split.lines_append`: a text that ends with a line feed has whole lines, whatever
  comes after it;
* `Split.length_lines_le`: there are no more lines than characters.
-/

namespace RegisterMachine

namespace Blank

variable {text : List Char}

theorem trim_eq_rdropWhile (text : List Char) :
    trim text = (text.dropWhile isBlank).rdropWhile isBlank := rfl

theorem trim_eq_nil_iff : trim text = [] ↔ ∀ c ∈ text, isBlank c := by
  rw [trim_eq_rdropWhile, List.rdropWhile_eq_nil_iff, ← List.dropWhile_eq_nil_iff,
    List.dropWhile_idempotent, List.dropWhile_eq_nil_iff]

@[simp] theorem trim_dropWhile (text : List Char) : trim (text.dropWhile isBlank) = trim text := by
  rw [trim_eq_rdropWhile, List.dropWhile_idempotent, trim_eq_rdropWhile]

@[simp] theorem trim_trim (text : List Char) : trim (trim text) = trim text := by
  obtain ⟨tail, htail⟩ := List.rdropWhile_prefix isBlank (text.dropWhile isBlank)
  rw [← trim_eq_rdropWhile] at htail
  have hdrop : (trim text).dropWhile isBlank = trim text := by
    -- The first character left is that of the text without the blanks in front.
    refine List.dropWhile_eq_self_iff.2 fun hpos => ?_
    have hfirst := List.dropWhile_get_zero_not isBlank text
      (by rw [← htail, List.length_append]; omega)
    simpa [← htail, List.getElem_append_left hpos] using hfirst
  rw [trim_eq_rdropWhile (trim text), hdrop, trim_eq_rdropWhile, List.rdropWhile_idempotent]

theorem getLast_of_trim_eq_self (h : trim text = text) (hne : text ≠ []) :
    ¬ isBlank (text.getLast hne) := by
  rw [trim_eq_rdropWhile] at h
  have hlast := List.rdropWhile_last_not isBlank (text.dropWhile isBlank) (by rwa [h])
  simpa only [h] using hlast

/-- A part at the end of a trimmed text has no blanks at its own end. -/
theorem trim_of_suffix {rest : List Char} (h : trim text = text) (hsuffix : rest <:+ text) :
    trim rest = rest.dropWhile isBlank := by
  rw [trim_eq_rdropWhile]
  refine List.rdropWhile_eq_self_iff.2 fun hne => ?_
  obtain ⟨front, rfl⟩ := (List.dropWhile_suffix isBlank).trans hsuffix
  have hlast := getLast_of_trim_eq_self h (List.append_ne_nil_of_right_ne_nil front hne)
  rwa [List.getLast_append_of_ne_nil _ hne] at hlast

theorem trim_cons_of_isBlank {c : Char} (h : isBlank c) (rest : List Char) :
    trim (c :: rest) = trim rest := by
  rw [trim_eq_rdropWhile, List.dropWhile_cons_of_pos h, trim_eq_rdropWhile]

theorem trim_ne_nil_of_suffix {rest : List Char} (h : trim text = text) (hsuffix : rest <:+ text)
    (hne : rest ≠ []) : trim rest ≠ [] := by
  intro hnil
  obtain ⟨front, rfl⟩ := hsuffix
  have hlast := getLast_of_trim_eq_self h (List.append_ne_nil_of_right_ne_nil front hne)
  rw [List.getLast_append_of_ne_nil _ hne] at hlast
  exact hlast (trim_eq_nil_iff.1 hnil _ (List.getLast_mem hne))

/-- Blanks are taken off the end down to the last character that is none. -/
theorem rdropWhile_append_cons {c : Char} (h : ¬ isBlank c) (front rest : List Char) :
    (front ++ c :: rest).rdropWhile isBlank = front ++ c :: rest.rdropWhile isBlank := by
  induction rest using List.reverseRecOn with
  | nil => exact List.rdropWhile_concat_neg isBlank front c h
  | append_singleton rest d ih =>
    rw [← List.cons_append, ← List.append_assoc]
    by_cases hd : isBlank d
    · rw [List.rdropWhile_concat_pos _ _ _ hd, List.rdropWhile_concat_pos _ _ _ hd, ih]
    · rw [List.rdropWhile_concat_neg _ _ _ hd, List.rdropWhile_concat_neg _ _ _ hd,
        List.append_assoc, List.cons_append]

theorem trim_rdropWhile (text : List Char) : trim (text.rdropWhile isBlank) = trim text := by
  induction text using List.reverseRecOn with
  | nil => rfl
  | append_singleton text c ih =>
    by_cases hc : isBlank c
    · rw [List.rdropWhile_concat_pos _ _ _ hc, ih, trim_eq_rdropWhile, trim_eq_rdropWhile,
        List.dropWhile_append]
      split
      · -- There is no character in front that is not blank.
        next hempty => rw [List.isEmpty_iff.1 hempty, List.dropWhile_cons_of_pos hc]; rfl
      · rw [List.rdropWhile_concat_pos _ _ _ hc]
    · rw [List.rdropWhile_concat_neg _ _ _ hc]

end Blank

namespace Split

open Blank

theorem cut?_eq_some_iff {p : Char → Bool} {text left right : List Char} :
    cut? p text = some (left, right) ↔
      ∃ c, text = left ++ c :: right ∧ p c ∧ ∀ d ∈ left, !p d := by
  constructor
  · exact append_of_cut?_eq_some
  · rintro ⟨c, rfl, hc, hleft⟩
    rw [cut?, List.dropWhile_append_of_pos hleft, List.takeWhile_append_of_pos hleft]
    simp [hc]

theorem cut?_eq_none_iff {p : Char → Bool} {text : List Char} :
    cut? p text = none ↔ ∀ c ∈ text, !p c := by
  rw [cut?, ← List.dropWhile_eq_nil_iff]
  cases text.dropWhile (!p ·) <;> simp

/-- A text is cut at a separator that is not in front of it. -/
theorem cut?_append {separator : Char} {front : List Char} (h : separator ∉ front)
    (rest : List Char) : cut? (· == separator) (front ++ separator :: rest) = some (front, rest) :=
  cut?_eq_some_iff.2 ⟨separator, rfl, beq_self_eq_true separator,
    fun c hc => by simpa using ne_of_mem_of_not_mem hc h⟩

theorem splitOn_dropWhile {separator : Char} (h : ¬ isBlank separator) (text : List Char) :
    (text.dropWhile isBlank).splitOn separator =
      (text.splitOn separator).modifyHead (·.dropWhile isBlank) := by
  induction text with
  | nil => rfl
  | cons c rest ih =>
    by_cases hc : isBlank c
    · -- A blank belongs to the first piece, and goes with the others in front of it.
      have hne : (c == separator) = false := by
        rw [beq_eq_false_iff_ne]
        rintro rfl
        exact h hc
      rw [List.dropWhile_cons_of_pos hc, ih, List.splitOn_cons_eq_if_modifyHead, hne]
      simp [List.modifyHead_modifyHead, Function.comp_def, List.dropWhile_cons_of_pos hc]
    · rw [List.dropWhile_cons_of_neg hc, List.splitOn_cons_eq_if_modifyHead]
      split
      · rfl
      · rw [List.modifyHead_modifyHead]
        congr 1
        funext piece
        exact (List.dropWhile_cons_of_neg hc).symm

/-- A text in front of a line feed and a text after it have lines of their own. -/
theorem lines_append_lineFeed (first second : List Char) :
    lines (first ++ '\n' :: second) = first.splitOn '\n' ++ lines second := by
  have hne : second.splitOn '\n' ≠ [] := List.splitOn_ne_nil _ _
  rw [lines, lines, List.splitOn_append_cons_self, List.getLast?_append_of_ne_nil _ hne,
    List.dropLast_append_of_ne_nil hne]
  split <;> rfl

/-- The lines of a text that ends with a line feed stay what they are in front of another text. -/
theorem lines_append {first : List Char} (h : first = [] ∨ first.getLast? = some '\n')
    (second : List Char) : lines (first ++ second) = lines first ++ lines second := by
  obtain rfl | hlast := h
  · rfl
  · obtain ⟨front, rfl⟩ := List.getLast?_eq_some_iff.1 hlast
    rw [List.append_assoc, List.singleton_append, lines_append_lineFeed, lines_append_lineFeed,
      lines_nil, List.append_nil]

/-- Texts with line feeds between them are the lines of them all, unless the last is empty. -/
theorem lines_intercalate {texts : List (List Char)} (h : ∀ text ∈ texts, '\n' ∉ text)
    (hne : texts ≠ []) (hlast : texts.getLast? ≠ some []) :
    lines (['\n'].intercalate texts) = texts := by
  rw [lines, List.splitOn_intercalate '\n' h hne, if_neg hlast]

theorem length_lines_bounds (text : List Char) :
    (lines text).length ≤ (text.splitOn '\n').length ∧
      (text.splitOn '\n').length ≤ (lines text).length + 1 := by
  rw [lines]
  split
  · rw [List.length_dropLast]
    omega
  · exact ⟨Nat.le_refl _, Nat.le_succ _⟩

/-- Each line takes a character at least. -/
theorem length_lines_le (text : List Char) : (lines text).length ≤ text.length := by
  induction text with
  | nil => exact Nat.le_refl 0
  | cons c rest ih =>
    obtain rfl | hc := eq_or_ne c '\n'
    · have hlines : lines ('\n' :: rest) = [] :: lines rest := lines_append_lineFeed [] rest
      rw [hlines]
      exact Nat.succ_le_succ ih
    · -- The character joins the first piece.
      have hpieces : ((c :: rest).splitOn '\n').length = (rest.splitOn '\n').length := by
        rw [List.splitOn_cons_eq_if_modifyHead, if_neg (by simpa using hc), List.length_modifyHead]
      have hle := (length_lines_bounds (c :: rest)).1
      have hge := (length_lines_bounds rest).2
      rw [List.length_cons]
      omega

end Split

end RegisterMachine
