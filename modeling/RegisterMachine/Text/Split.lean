/-!
# Cutting text

* `cut?` cuts a text at the first character of a kind, which belongs to neither
  side: `append_of_cut?_eq_some` says that nothing else is lost;
* `lines` cuts a text into its lines. A line feed ends a line, so a text that
  ends with one has no further, empty line after it (`lines_nil`).
-/

namespace RegisterMachine.Split

/-- The text before and the text after the first character with property `p`,
    or `none` if there is no such character. -/
def cut? (p : Char → Bool) (text : List Char) : Option (List Char × List Char) :=
  match text.dropWhile (!p ·) with
  | [] => none
  | _ :: rest => some (text.takeWhile (!p ·), rest)

/-- The part of the text before the first character with property `p`: all of
    it, if there is no such character. -/
def before (p : Char → Bool) (text : List Char) : List Char :=
  text.takeWhile (!p ·)

/-- The lines of the text, without the line feeds that end them. -/
def lines (text : List Char) : List (List Char) :=
  let pieces := text.splitOn '\n'
  if pieces.getLast? = some [] then pieces.dropLast else pieces

/-- A cut is at a character of the kind, and its two sides are all the rest. -/
theorem append_of_cut?_eq_some {p : Char → Bool} {text left right : List Char}
    (h : cut? p text = some (left, right)) :
    ∃ c, text = left ++ c :: right ∧ p c ∧ ∀ d ∈ left, !p d := by
  unfold cut? at h
  split at h
  · simp at h
  · next c rest hrest =>
    obtain ⟨rfl, rfl⟩ : text.takeWhile (!p ·) = left ∧ rest = right := by simpa using h
    refine ⟨c, ?_, ?_, fun d hd => ?_⟩
    · rw [← hrest, List.takeWhile_append_dropWhile]
    · simpa [hrest] using List.head?_dropWhile_not (!p ·) text
    · exact List.all_eq_true.1 List.all_takeWhile d hd

@[simp] theorem lines_nil : lines [] = [] := rfl

end RegisterMachine.Split
