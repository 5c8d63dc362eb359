import RegisterMachine.Program
import RegisterMachine.Text.Numeral

/-!
# Listings

The listing of a program has a line for every instruction and every label. A
label stands in front of the instruction that it is the index of, and labels
that stand in front of the same instruction are in the order of their names.
The labels beyond the last instruction come at the end, in the order of their
indices and then of their names.

The listing walks along the instructions with the labels not yet listed, which
are in that order: `Cursor.next` lists the labels of the next instruction, and
the instruction.
-/

namespace RegisterMachine

namespace Listing

/-- The line of a label. -/
def labelLine (name : String) : String := name ++ ":"

/-- The line of an instruction: its index, of at least four digits, and its text. -/
def instructionLine (index : Nat) (instruction : Instruction) : String :=
  Numeral.decimal 4 index ++ "  " ++ instruction.text

/-- The labels of a table in the order of their indices and then of their names. -/
def sortedLabels (labels : LabelTable) : List (String × Nat) :=
  labels.toList.mergeSort fun a b => a.2 ≤ b.2

/-- A place in the listing: the index of the next instruction, the labels not
    yet listed, and the lines so far. -/
structure Cursor where
  index : Nat
  pending : List (String × Nat)
  lines : Array String

/-- The start of the listing of a program with these labels. -/
def Cursor.start (labels : LabelTable) : Cursor := ⟨0, sortedLabels labels, #[]⟩

/-- Lists the labels at the head of those pending that point at the next
    instruction, and the instruction. -/
def Cursor.next (cursor : Cursor) (instruction : Instruction) : Cursor where
  index := cursor.index + 1
  pending := cursor.pending.dropWhile (·.2 == cursor.index)
  lines := (cursor.lines ++
    ((cursor.pending.takeWhile (·.2 == cursor.index)).map fun label => labelLine label.1)).push
      (instructionLine cursor.index instruction)

/-- Lists the labels that are left. -/
def Cursor.finish (cursor : Cursor) : Array String :=
  cursor.lines ++ cursor.pending.map fun label => labelLine label.1

end Listing

namespace Program

open Listing

/-- The lines of the listing. -/
def listingLines (program : Program) : List String :=
  (program.instructions.toList.foldl Cursor.next (Cursor.start program.labels)).finish.toList

/-- The listing as one text, in which a line feed ends each line. -/
def listing (program : Program) : String :=
  String.join (program.listingLines.map (· ++ "\n"))

end Program

end RegisterMachine
