import RegisterMachine.Assembly.Line
import RegisterMachine.Proofs.Text
import RegisterMachine.Text.Case

/-!
# Upper case and the reading of text

Reading a text is a matter of its blanks, digits and separators, of which upper case
touches none, and of some letters that are read in either case. So it does not matter
whether a text is put into upper case (`Case.upper`) before it is read or afterwards.

* `Case.Caseless`: what does not depend on the case of a letter;
* `Blank.trim_upper`, `Split.cut?_upper`, `Split.splitOn_upper`, `Split.lines_upper`: a
  text in upper case is trimmed and cut at the same places;
* `Mode.ofText_upper`, `Line.isName_upper`, `Opcode.ofMnemonic?_toUpper`: it denotes the
  same mode, and is a name, or that of an operation, just the same.
-/

namespace RegisterMachine

namespace Case

/-- The text in upper case. -/
def upper (text : List Char) : List Char := text.map Char.toUpper

@[simp] theorem upper_nil : upper [] = [] := rfl

@[simp] theorem upper_cons (c : Char) (text : List Char) :
    upper (c :: text) = c.toUpper :: upper text := rfl

@[simp] theorem isEmpty_upper (text : List Char) : (upper text).isEmpty = text.isEmpty :=
  List.isEmpty_map

@[simp] theorem upper_eq_nil_iff {text : List Char} : upper text = [] ↔ text = [] :=
  List.map_eq_nil_iff

theorem toList_toUpper (text : String) : text.toUpper.toList = upper text.toList :=
  String.toList_map

@[simp] theorem toUpper_ofList (text : List Char) :
    (String.ofList text).toUpper = String.ofList (upper text) := by
  rw [← String.toList_inj, toList_toUpper, String.toList_ofList, String.toList_ofList]

/-! ## Characters -/

theorem exists_of_lower {c : Char} (h : 'a'.val ≤ c.val ∧ c.val ≤ 'z'.val) :
    ∃ i : Fin 26, c = Char.ofNat (97 + i) := by
  have hlow : 97 ≤ c.toNat := UInt32.le_iff_toNat_le.1 h.1
  have hhigh : c.toNat ≤ 122 := UInt32.le_iff_toNat_le.1 h.2
  refine ⟨⟨c.toNat - 97, by omega⟩, ?_⟩
  rw [Nat.add_sub_cancel' hlow, Char.ofNat_toNat]

/-- A function of characters that does not depend on the case of letters. -/
def Caseless {α : Type} (f : Char → α) : Prop := ∀ c : Char, f c.toUpper = f c

/-- Upper case only changes the 26 small letters. -/
theorem caseless_of_letters {α : Type} {f : Char → α}
    (h : ∀ i : Fin 26, f (Char.ofNat (97 + i)).toUpper = f (Char.ofNat (97 + i))) : Caseless f := by
  intro c
  by_cases hlower : 'a'.val ≤ c.val ∧ c.val ≤ 'z'.val
  · obtain ⟨i, rfl⟩ := exists_of_lower hlower
    exact h i
  · rw [toUpper_of_not_lower hlower]

theorem Caseless.comp_toUpper {α : Type} {f : Char → α} (h : Caseless f) : f ∘ Char.toUpper = f :=
  funext h

theorem Caseless.not {p : Char → Bool} (h : Caseless p) : Caseless (!p ·) :=
  fun c => congrArg Bool.not (h c)

theorem caseless_isBlank : Caseless Blank.isBlank := caseless_of_letters (by decide)

theorem caseless_isDigit : Caseless Char.isDigit := caseless_of_letters (by decide)

theorem caseless_isNameStart : Caseless Line.isNameStart := caseless_of_letters (by decide)

theorem caseless_isNameRest : Caseless Line.isNameRest := caseless_of_letters (by decide)

theorem caseless_ofDigit? : Caseless Register.ofDigit? := caseless_of_letters (by decide)

/-- Separators are not letters. -/
theorem caseless_beq {separator : Char} (h : separator.isAlpha = false) :
    Caseless (· == separator) := by
  refine caseless_of_letters fun i => ?_
  have hletter : (Char.ofNat (97 + i)).toUpper.isAlpha ∧ (Char.ofNat (97 + i)).isAlpha := by
    revert i
    decide
  rw [beq_false_of_ne, beq_false_of_ne]
  · rintro rfl
    exact absurd hletter.2 (by simp [h])
  · rintro rfl
    exact absurd hletter.1 (by simp [h])

theorem toUpper_eq_iff {c separator : Char} (h : separator.isAlpha = false) :
    c.toUpper = separator ↔ c = separator := by
  have hc : (c.toUpper == separator) = (c == separator) := caseless_beq h c
  rw [← beq_iff_eq, hc, beq_iff_eq]

theorem toUpper_of_isDigit {c : Char} (h : c.isDigit) : c.toUpper = c := by
  refine toUpper_of_not_lower fun hlower => ?_
  obtain ⟨i, rfl⟩ := exists_of_lower hlower
  revert i
  decide

/-- A text of nothing but digits is in upper case already. -/
theorem upper_of_isDigit {text : List Char} (h : text.all Char.isDigit) : upper text = text := by
  refine (List.map_congr_left fun c hc => ?_).trans (List.map_id text)
  exact toUpper_of_isDigit (List.all_eq_true.1 h c hc)

end Case

open Case

/-! ## Trimming and cutting -/

namespace Blank

theorem dropWhile_upper (text : List Char) :
    (upper text).dropWhile isBlank = upper (text.dropWhile isBlank) := by
  rw [upper, List.dropWhile_map, caseless_isBlank.comp_toUpper, upper]

theorem trim_upper (text : List Char) : trim (upper text) = upper (trim text) := by
  have hreverse (text : List Char) : (upper text).reverse = upper text.reverse :=
    List.map_reverse.symm
  rw [trim, dropWhile_upper, hreverse, dropWhile_upper, hreverse, trim]

end Blank

namespace Split

variable {p : Char → Bool}

theorem before_upper (hp : Caseless p) (text : List Char) :
    before p (upper text) = upper (before p text) := by
  rw [before, upper, List.takeWhile_map, hp.not.comp_toUpper, before, upper]

theorem cut?_upper (hp : Caseless p) (text : List Char) :
    cut? p (upper text) = (cut? p text).map fun sides => (upper sides.1, upper sides.2) := by
  rw [cut?, cut?, upper, List.dropWhile_map, List.takeWhile_map, hp.not.comp_toUpper]
  cases text.dropWhile (!p ·) <;> rfl

theorem splitOn_upper {separator : Char} (h : separator.isAlpha = false) (text : List Char) :
    (upper text).splitOn separator = (text.splitOn separator).map upper := by
  induction text with
  | nil => rfl
  | cons c rest ih =>
    obtain ⟨first, others, hpieces⟩ :=
      List.exists_cons_of_ne_nil (List.splitOn_ne_nil separator rest)
    have hc : (c.toUpper == separator) = (c == separator) := caseless_beq h c
    rw [upper_cons, List.splitOn_cons_eq_if_modifyHead, List.splitOn_cons_eq_if_modifyHead, hc, ih,
      hpieces]
    split <;> rfl

theorem lines_upper (text : List Char) : lines (upper text) = (lines text).map upper := by
  have hpieces : (upper text).splitOn '\n' = (text.splitOn '\n').map upper :=
    splitOn_upper rfl text
  have hlast : ((text.splitOn '\n').map upper).getLast? = some [] ↔
      (text.splitOn '\n').getLast? = some [] := by
    rw [List.getLast?_map, Option.map_eq_some_iff]
    simp
  rw [lines, lines, hpieces]
  by_cases h : (text.splitOn '\n').getLast? = some []
  · rw [if_pos (hlast.2 h), if_pos h, List.map_dropLast]
  · rw [if_neg fun h' => h (hlast.1 h'), if_neg h]

end Split

/-! ## Operands -/

namespace Numeral

theorem digits?_upper (text : List Char) : digits? (upper text) = digits? text := by
  rw [digits?, digits?, isEmpty_upper, upper, List.all_map, caseless_isDigit.comp_toUpper, ← upper]
  split
  · next h => rw [upper_of_isDigit (Bool.and_eq_true_iff.1 h).2]
  · rfl

theorem integer?_upper (text : List Char) : integer? (upper text) = integer? text := by
  obtain _ | ⟨c, rest⟩ := text
  · rfl
  obtain rfl | hc := eq_or_ne c '-'
  · have hsign : upper ('-' :: rest) = '-' :: upper rest := rfl
    rw [hsign, integer?, integer?, digits?_upper]
  · have hc' : c.toUpper ≠ '-' := fun h => hc ((toUpper_eq_iff rfl).1 h)
    rw [upper_cons, integer?_of_ne hc, integer?_of_ne hc', ← upper_cons, digits?_upper]

end Numeral

namespace Register

theorem ofText?_upper (text : List Char) : ofText? (upper text) = ofText? text := by
  by_cases hlength : text.length = 2
  · obtain ⟨letter, digit, rfl⟩ := List.length_eq_two.1 hlength
    have hletter : decide (letter.toUpper = 'R' ∨ letter.toUpper = 'r') =
        decide (letter = 'R' ∨ letter = 'r') :=
      @caseless_of_letters _ (fun c => decide (c = 'R' ∨ c = 'r')) (by decide) letter
    rw [upper_cons, upper_cons, upper_nil, ofText?_pair, ofText?_pair, caseless_ofDigit?,
      if_congr (decide_eq_decide.1 hletter) rfl rfl]
  · rw [ofText?_of_length_ne hlength, ofText?_of_length_ne (by rwa [upper, List.length_map])]

end Register

namespace Mode

open Blank

theorem value?_upper (text : List Char) : value? (upper text) = value? text := by
  rw [value?, Numeral.integer?_upper, value?]

theorem bracketed?_upper (text : List Char) :
    bracketed? (upper text) = (bracketed? text).map upper := by
  obtain _ | ⟨c, rest⟩ := text
  · rfl
  obtain rfl | hc := eq_or_ne c '['
  · have hlast : (upper rest).getLast? = some ']' ↔ rest.getLast? = some ']' := by
      simp [upper, toUpper_eq_iff]
    have hopen : upper ('[' :: rest) = '[' :: upper rest := rfl
    rw [hopen, bracketed?, bracketed?]
    by_cases h : rest.getLast? = some ']'
    · rw [if_pos h, if_pos (hlast.2 h)]
      exact congrArg some List.map_dropLast.symm
    · rw [if_neg h, if_neg fun h' => h (hlast.1 h')]
      rfl
  · have hc' : c.toUpper ≠ '[' := fun h => hc ((toUpper_eq_iff rfl).1 h)
    rw [upper_cons, bracketed?_of_ne hc, bracketed?_of_ne hc']
    rfl

theorem ofBracketed?_upper (text : List Char) : ofBracketed? (upper text) = ofBracketed? text := by
  rw [ofBracketed?, Register.ofText?_upper, value?_upper, ofBracketed?]

theorem ofText_upper (text : List Char) : ofText (upper text) = ofText text := by
  simp only [ofText, Register.ofText?_upper, value?_upper, bracketed?_upper, Option.bind_map,
    Function.comp_def, trim_upper, ofBracketed?_upper]

end Mode

/-! ## Names -/

theorem Line.isName_upper (text : List Char) : Line.isName (upper text) = Line.isName text := by
  obtain _ | ⟨c, rest⟩ := text
  · rfl
  rw [upper_cons, Line.isName, caseless_isNameStart, upper, List.all_map,
    caseless_isNameRest.comp_toUpper, Line.isName]

theorem Opcode.ofMnemonic?_toUpper (mnemonic : String) :
    Opcode.ofMnemonic? mnemonic.toUpper = Opcode.ofMnemonic? mnemonic := by
  rw [Opcode.ofMnemonic?, toUpper_toUpper, Opcode.ofMnemonic?]

end RegisterMachine
